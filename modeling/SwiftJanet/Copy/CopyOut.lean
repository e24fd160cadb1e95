import SwiftJanet.Lib.Walk
import SwiftJanet.Value.JanetValue
import SwiftJanet.VM.Heap

/-!
# Copying a value out of the VM

`JanetValue.init(raw:path:)` over a heap (`initRaw`), with the path of the containers being copied (`CopyPath`), the
loop over elements (`copyElements`) and the loop over a dictionary (`copyDictionary`). Every container entered costs
one unit of fuel.

`initRaw_eq_walk`: copying is a depth-bounded walk over the heap (`Heap.view`), whose nodes are the containers.
-/

namespace SwiftJanet

open Lib

/-! ## Errors and traps -/

/-- `JanetError.Phase`. -/
inductive Phase where
  | parse | compile | runtime | copy
deriving DecidableEq, Repr

/-- `JanetError`. -/
structure JanetError where
  phase : Phase
  message : Text
deriving DecidableEq, Repr

/-- What ends the process: a `NULL` pointer where Swift has no optional, a number that does not fit an `Int32`, a
failed precondition, or the VM leaving its memory. -/
inductive Trap where
  | null | overflow | precondition | memory
deriving DecidableEq, Repr

/-- A call that may throw or trap. -/
abbrev Result := Outcome JanetError Trap

/-- Deepest container nesting a value may have when copied. -/
def maxValueNestingDepth : Nat := 256

/-- "value nested deeper than 256 levels". -/
def nestedDeeper : JanetError := ⟨.copy, "value nested deeper than 256 levels".toList⟩

/-- "value contains a cycle". -/
def containsCycle : JanetError := ⟨.copy, "value contains a cycle".toList⟩

/-- The two errors can be told apart. -/
theorem nestedDeeper_ne_containsCycle : nestedDeeper ≠ containsCycle := by decide

/-! ## The path -/

/-- A mutable container: arrays and tables have addresses of their own. -/
inductive Address where
  | array (p : Nat)
  | table (p : Nat)
deriving DecidableEq, Repr

/-- `CopyPath`: the depth, and the mutable containers being copied. -/
abbrev CopyPath := Path Address

namespace CopyPath

/-- `CopyPath.enter`. -/
def enter (path : CopyPath) (container : Option Address) : Result CopyPath :=
  let depth := path.depth + 1
  if depth > maxValueNestingDepth then .throws nestedDeeper
  else match container with
    | none => .returns ⟨depth, path.marked⟩
    | some c => if c ∈ path.marked then .throws containsCycle else .returns ⟨depth, insert c path.marked⟩

/-- `CopyPath.leave`. -/
def leave (path : CopyPath) (container : Option Address) : CopyPath :=
  ⟨path.depth - 1, match container with | none => path.marked | some c => path.marked.erase c⟩

end CopyPath

/-! ## Copying -/

section Copy

variable [CanonicalForm] (copy : Janet → CopyPath → Result (JanetValue × CopyPath))

/-- `String.init(janetBytes:)`. -/
def ofJanetBytes (heap : Heap) : Option Nat → Result Text
  | none => .traps .null
  | some p => .returns (Text.decoding (heap.strings.get p))

/-- The loop of `copy(elements:count:path:)`. -/
def copyEach : List Janet → List JanetValue → CopyPath → Result (List JanetValue × CopyPath)
  | [], result, path => .returns (result, path)
  | element :: elements, result, path => do
    let (value, path) ← copy element path
    copyEach elements (result ++ [value]) path

/-- `copy(elements:count:path:)`; the block is not optional in Swift. -/
def copyElements (elements : Option (List Janet)) (path : CopyPath) : Result (List JanetValue × CopyPath) :=
  match elements with
  | none => .traps .null
  | some elements => copyEach copy elements [] path

/-- The loop of `copy(dictionary:capacity:path:)`: a step for every cell, and one to see the end. -/
def copyEntries (kvs : List JanetKV) :
    Nat → Option Nat → List (JanetValue × JanetValue) → CopyPath → Result (List (JanetValue × JanetValue) × CopyPath)
  | 0, _, _, _ => .unfinished
  | _ + 1, none, result, path => .returns (result, path)
  | fuel + 1, some i, result, path =>
    match kvs[i]? with
    | none => .traps .null
    | some entry => do
      let (key, path) ← copy entry.key path
      let (value, path) ← copy entry.value path
      copyEntries kvs fuel (janetDictionaryNext kvs (some i)) (Assoc.put JanetValue.equal result key value) path

/-- `copy(dictionary:capacity:path:)`; the block is not optional in Swift. -/
def copyDictionary (kvs : Option (List JanetKV)) (path : CopyPath) :
    Result (List (JanetValue × JanetValue) × CopyPath) :=
  match kvs with
  | none => .traps .null
  | some kvs => copyEntries copy kvs (kvs.length + 1) (janetDictionaryNext kvs none) [] path

/-- `JanetValue.init(raw:path:)`. -/
def initRaw (heap : Heap) : Nat → Janet → CopyPath → Result (JanetValue × CopyPath)
  | fuel, raw, path =>
    match janetType raw with
    | .nil => .returns (.nil, path)
    | .boolean => .returns (.boolean (janetUnwrapBoolean raw), path)
    | .number => .returns (.number (janetUnwrapNumber raw), path)
    | .string => do .returns (.string (← ofJanetBytes heap (janetUnwrapString raw)), path)
    | .keyword => do .returns (.keyword (← ofJanetBytes heap (janetUnwrapKeyword raw)), path)
    | .symbol => do .returns (.symbol (← ofJanetBytes heap (janetUnwrapSymbol raw)), path)
    | .tuple =>
      match janetUnwrapTuple raw with
      | none => .traps .null
      | some tuple =>
        match fuel with
        | 0 => .unfinished
        | fuel + 1 => do
          let path ← path.enter none
          let (elements, path) ← copyElements (initRaw heap fuel) (some (heap.tuples.get tuple).data) path
          .returns (.tuple elements, path.leave none)
    | .array =>
      match janetUnwrapArray raw with
      | none => .traps .null
      | some pointer =>
        match fuel with
        | 0 => .unfinished
        | fuel + 1 => do
          let path ← path.enter (some (.array pointer))
          let (elements, path) ← copyElements (initRaw heap fuel) (heap.arrays.get pointer).data path
          .returns (.array elements, path.leave (some (.array pointer)))
    | .struct =>
      match janetUnwrapStruct raw with
      | none => .traps .null
      | some st =>
        match fuel with
        | 0 => .unfinished
        | fuel + 1 => do
          let path ← path.enter none
          let (entries, path) ← copyDictionary (initRaw heap fuel) (some (heap.structs.get st).data) path
          .returns (.struct entries, path.leave none)
    | .table =>
      match janetUnwrapTable raw with
      | none => .traps .null
      | some pointer =>
        match fuel with
        | 0 => .unfinished
        | fuel + 1 => do
          let path ← path.enter (some (.table pointer))
          let (entries, path) ← copyDictionary (initRaw heap fuel) (heap.tables.get pointer).data path
          .returns (.table entries, path.leave (some (.table pointer)))
    | other => .returns (.unsupported (janetTypeNames other), path)

/-- `JanetValue.init(raw:)`, with fuel for `n` containers active at once. -/
def initRawWith (heap : Heap) (n : Nat) (raw : Janet) : Result JanetValue := do
  let (value, _) ← initRaw heap n raw .empty
  .returns value

/-- `JanetValue.init(raw:)`. -/
def copyOut (heap : Heap) (raw : Janet) : Result JanetValue := initRawWith heap (maxValueNestingDepth + 1) raw

end Copy

end SwiftJanet
