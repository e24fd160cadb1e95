import SwiftJanet.Copy.Loss
import SwiftJanet.Copy.Rejection
import SwiftJanet.Lib.Trace

/-!
# The path and the chain of calls

`traceRaw` is `JanetValue.init(raw:path:)` with a trace: every call of `init(raw:path:)`, `copy(elements:)` and
`copy(dictionary:)` records the containers being copied around it (`Call.chain`, handed down from caller to callee) and
the path it was given, and every return records the path it left. Without the trace it is `initRaw` (`traceRaw_erases`).

A path represents a chain of containers when it counts them and holds the arrays and tables among them.
`copyPath_follows_calls`: from a path that represents a chain, every call is made on a path that represents the chain
of that call, and every call that returns leaves the path it was given.
-/

namespace SwiftJanet

open Lib Lib.Tracing

/-! ## Calls -/

/-- The functions that hand the path on, with what they copy. -/
inductive Callee where
  | initRaw (raw : Janet)
  | copyElements (elements : Option (List Janet))
  | copyDictionary (kvs : Option (List JanetKV))

/-- A call, with the containers being copied around it, the innermost first. -/
structure Call where
  callee : Callee
  chain : List Container

/-- Copying with a trace. -/
abbrev Copying := Tracing Call CopyPath JanetError Trap

section Trace

variable [CanonicalForm] (copy : Janet → CopyPath → Copying (JanetValue × CopyPath)) (chain : List Container)

/-- `copyEach`, with the trace. -/
def traceEach : List Janet → List JanetValue → CopyPath → Copying (List JanetValue × CopyPath)
  | [], result, path => pure (result, path)
  | element :: elements, result, path => do
    let (value, path) ← copy element path
    traceEach elements (result ++ [value]) path

/-- `copyElements`, with the trace. -/
def traceElements (elements : Option (List Janet)) (path : CopyPath) : Copying (List JanetValue × CopyPath) :=
  traced ⟨.copyElements elements, chain⟩ path <|
    match elements with
    | none => Lib.Computation.lift (.traps .null)
    | some elements => traceEach copy elements [] path

/-- `copyEntries`, with the trace. -/
def traceEntries (kvs : List JanetKV) :
    Nat → Option Nat → List (JanetValue × JanetValue) → CopyPath → Copying (List (JanetValue × JanetValue) × CopyPath)
  | 0, _, _, _ => Lib.Computation.lift .unfinished
  | _ + 1, none, result, path => pure (result, path)
  | fuel + 1, some i, result, path =>
    match kvs[i]? with
    | none => Lib.Computation.lift (.traps .null)
    | some entry => do
      let (key, path) ← copy entry.key path
      let (value, path) ← copy entry.value path
      traceEntries kvs fuel (janetDictionaryNext kvs (some i)) (Assoc.put JanetValue.equal result key value) path

/-- `copyDictionary`, with the trace. -/
def traceDictionary (kvs : Option (List JanetKV)) (path : CopyPath) :
    Copying (List (JanetValue × JanetValue) × CopyPath) :=
  traced ⟨.copyDictionary kvs, chain⟩ path <|
    match kvs with
    | none => Lib.Computation.lift (.traps .null)
    | some kvs => traceEntries copy kvs (kvs.length + 1) (janetDictionaryNext kvs none) [] path

/-- `initRaw`, with the trace: a branch that enters a container hands it on in front of the chain. -/
def traceRaw (heap : Heap) : Nat → List Container → Janet → CopyPath → Copying (JanetValue × CopyPath)
  | fuel, chain, raw, path => traced ⟨.initRaw raw, chain⟩ path <|
    match janetType raw with
    | .nil => pure (.nil, path)
    | .boolean => pure (.boolean (janetUnwrapBoolean raw), path)
    | .number => pure (.number (janetUnwrapNumber raw), path)
    | .string => do pure (.string (← Lib.Computation.lift (ofJanetBytes heap (janetUnwrapString raw))), path)
    | .keyword => do pure (.keyword (← Lib.Computation.lift (ofJanetBytes heap (janetUnwrapKeyword raw))), path)
    | .symbol => do pure (.symbol (← Lib.Computation.lift (ofJanetBytes heap (janetUnwrapSymbol raw))), path)
    | .tuple =>
      match janetUnwrapTuple raw with
      | none => Lib.Computation.lift (.traps .null)
      | some tuple =>
        match fuel with
        | 0 => Lib.Computation.lift .unfinished
        | fuel + 1 => do
          let path ← Lib.Computation.lift (path.enter none)
          let (elements, path) ← traceElements (traceRaw heap fuel (.tuple tuple :: chain)) (.tuple tuple :: chain)
            (some (heap.tuples.get tuple).data) path
          pure (.tuple elements, path.leave none)
    | .array =>
      match janetUnwrapArray raw with
      | none => Lib.Computation.lift (.traps .null)
      | some pointer =>
        match fuel with
        | 0 => Lib.Computation.lift .unfinished
        | fuel + 1 => do
          let path ← Lib.Computation.lift (path.enter (some (.array pointer)))
          let (elements, path) ← traceElements (traceRaw heap fuel (.array pointer :: chain)) (.array pointer :: chain)
            (heap.arrays.get pointer).data path
          pure (.array elements, path.leave (some (.array pointer)))
    | .struct =>
      match janetUnwrapStruct raw with
      | none => Lib.Computation.lift (.traps .null)
      | some st =>
        match fuel with
        | 0 => Lib.Computation.lift .unfinished
        | fuel + 1 => do
          let path ← Lib.Computation.lift (path.enter none)
          let (entries, path) ← traceDictionary (traceRaw heap fuel (.struct st :: chain)) (.struct st :: chain)
            (some (heap.structs.get st).data) path
          pure (.struct entries, path.leave none)
    | .table =>
      match janetUnwrapTable raw with
      | none => Lib.Computation.lift (.traps .null)
      | some pointer =>
        match fuel with
        | 0 => Lib.Computation.lift .unfinished
        | fuel + 1 => do
          let path ← Lib.Computation.lift (path.enter (some (.table pointer)))
          let (entries, path) ← traceDictionary (traceRaw heap fuel (.table pointer :: chain)) (.table pointer :: chain)
            (heap.tables.get pointer).data path
          pure (.table entries, path.leave (some (.table pointer)))
    | other => pure (.unsupported (janetTypeNames other), path)

end Trace

/-! ## Paths and chains -/

/-- The path counts the containers of the chain, of which it can hold 256, and holds the arrays and tables among them,
each of which is there once. -/
structure CopyPath.Represents (path : CopyPath) (chain : List Container) : Prop where
  depth : path.depth = chain.length
  marked : ∀ a, a ∈ path.marked ↔ ∃ c ∈ chain, c.address = some a
  within : chain.length ≤ maxValueNestingDepth
  once : (chain.filterMap Container.address).Nodup

/-- Calls are made on the path that represents their chain, and give it back. -/
def FollowsCalls : Event Call CopyPath → Prop
  | .called call path => path.Represents call.chain
  | .returned call before after => before.Represents call.chain ∧ after = before

section Chains

variable {path inside : CopyPath} {chain : List Container} {c : Container}

/-- What is entered is put in front of the chain, and leaving it undoes entering it. -/
theorem CopyPath.Represents.enter (h : path.Represents chain) (henter : path.enter c.address = .returns inside) :
    inside.Represents (c :: chain) ∧ inside.leave c.address = path := by
  rw [enter_eq] at henter
  obtain ⟨hdepth, hfresh, rfl⟩ := enter_eq_returns.mp henter
  refine ⟨⟨?_, fun a => ?_, ?_, ?_⟩, ?_⟩
  · simp [h.depth]
  · simp [mem_push, h.marked a]
  · have := h.depth
    simp only [List.length_cons]
    exact Nat.succ_le_of_lt (this ▸ hdepth)
  · cases ha : c.address with
    | none =>
      rw [List.filterMap_cons_none ha]
      exact h.once
    | some a =>
      rw [List.filterMap_cons_some ha, List.nodup_cons]
      refine ⟨fun hmem => hfresh a ha ?_, h.once⟩
      exact (h.marked a).mpr (List.mem_filterMap.mp hmem)
  · rw [leave_eq]
    exact leave_push hfresh

/-! ## Every call follows the chain -/

section Follows

variable [CanonicalForm] {heap : Heap} {copy : Janet → CopyPath → Copying (JanetValue × CopyPath)}

omit [CanonicalForm] in
/-- A call of one of the functions. -/
theorem follows_call {α : Type} {callee : Callee} {body : Copying (α × CopyPath)} (h : path.Represents chain)
    (hbody : body.Tells FollowsCalls path) : Tells FollowsCalls path (traced ⟨callee, chain⟩ path body) := by
  apply Tells.traced
  · exact h
  · exact ⟨h, rfl⟩
  · exact hbody

omit [CanonicalForm] in
theorem follows_each (hcopy : ∀ raw, Tells FollowsCalls path (copy raw path)) :
    ∀ (elements : List Janet) (result : List JanetValue), Tells FollowsCalls path (traceEach copy elements result path)
  | [], result => Ensures.pure rfl
  | element :: elements, result => by
    refine Ensures.bind (hcopy element) ?_
    rintro ⟨value, path'⟩ hpath
    obtain rfl : path = path' := hpath.symm
    exact follows_each hcopy elements _

omit [CanonicalForm] in
theorem follows_elements (h : path.Represents chain) (hcopy : ∀ raw, Tells FollowsCalls path (copy raw path))
    (elements : Option (List Janet)) : Tells FollowsCalls path (traceElements copy chain elements path) := by
  apply follows_call h
  cases elements with
  | none => exact Ensures.lift (by simp)
  | some elements => exact follows_each hcopy elements []

theorem follows_entries (hcopy : ∀ raw, Tells FollowsCalls path (copy raw path)) (kvs : List JanetKV) :
    ∀ (fuel : Nat) (i : Option Nat) (result : List (JanetValue × JanetValue)),
      Tells FollowsCalls path (traceEntries copy kvs fuel i result path)
  | 0, _, _ => Ensures.lift (by simp)
  | _ + 1, none, _ => Ensures.pure rfl
  | fuel + 1, some i, result => by
    rw [traceEntries]
    cases kvs[i]? with
    | none => exact Ensures.lift (by simp)
    | some entry =>
      refine Ensures.bind (hcopy entry.key) ?_
      rintro ⟨key, path₁⟩ hpath
      obtain rfl : path = path₁ := hpath.symm
      refine Ensures.bind (hcopy entry.value) ?_
      rintro ⟨value, path₂⟩ hpath
      obtain rfl : path = path₂ := hpath.symm
      exact follows_entries hcopy kvs fuel _ _

theorem follows_dictionary (h : path.Represents chain) (hcopy : ∀ raw, Tells FollowsCalls path (copy raw path))
    (kvs : Option (List JanetKV)) : Tells FollowsCalls path (traceDictionary copy chain kvs path) := by
  apply follows_call h
  cases kvs with
  | none => exact Ensures.lift (by simp)
  | some kvs => exact follows_entries hcopy kvs _ _ _

omit [CanonicalForm] in
/-- A branch that enters a container, copies what is in it, and leaves it. -/
theorem follows_container {α : Type} (c : Container) {body : CopyPath → Copying (α × CopyPath)} (build : α → JanetValue)
    (h : path.Represents chain)
    (hbody : ∀ inside, CopyPath.Represents inside (c :: chain) → Tells FollowsCalls inside (body inside)) :
    Tells FollowsCalls path (do
      let path ← (Lib.Computation.lift (path.enter c.address) : Copying CopyPath)
      let (children, path) ← body path
      pure (build children, path.leave c.address)) := by
  have henter : ∀ inside, path.enter c.address = .returns inside →
      inside.Represents (c :: chain) ∧ inside.leave c.address = path := fun _ => h.enter
  refine Ensures.bind (Ensures.lift henter) ?_
  rintro inside ⟨hinside, hleave⟩
  refine Ensures.bind (hbody inside hinside) ?_
  rintro ⟨children, path'⟩ hpath
  obtain rfl : inside = path' := hpath.symm
  exact Ensures.pure hleave

/-- From a path that represents the chain, the trace of a copy follows the calls. -/
theorem follows_raw (heap : Heap) : ∀ (fuel : Nat) {chain : List Container} {path : CopyPath} (raw : Janet),
    path.Represents chain → Tells FollowsCalls path (traceRaw heap fuel chain raw path)
  | fuel, chain, path, raw, h => by
    have hbytes : ∀ (p : Option Nat) (build : Text → JanetValue), Tells FollowsCalls path (do
        pure (build (← Lib.Computation.lift (ofJanetBytes heap p)), path) : Copying (JanetValue × CopyPath)) :=
      fun p build => Ensures.bind (Ensures.lift fun _ _ => trivial) fun _ _ => Ensures.pure rfl
    rw [traceRaw]
    apply follows_call h
    cases janetType raw with
    | string => exact hbytes _ .string
    | keyword => exact hbytes _ .keyword
    | symbol => exact hbytes _ .symbol
    | tuple =>
      dsimp only
      cases janetUnwrapTuple raw with
      | none => exact Ensures.lift (by simp)
      | some tuple =>
        cases fuel with
        | zero => exact Ensures.lift (by simp)
        | succ fuel =>
          exact follows_container (.tuple tuple) .tuple h fun inside hinside =>
            follows_elements hinside (fun raw => follows_raw heap fuel raw hinside) _
    | array =>
      dsimp only
      cases janetUnwrapArray raw with
      | none => exact Ensures.lift (by simp)
      | some pointer =>
        cases fuel with
        | zero => exact Ensures.lift (by simp)
        | succ fuel =>
          exact follows_container (.array pointer) .array h fun inside hinside =>
            follows_elements hinside (fun raw => follows_raw heap fuel raw hinside) _
    | struct =>
      dsimp only
      cases janetUnwrapStruct raw with
      | none => exact Ensures.lift (by simp)
      | some st =>
        cases fuel with
        | zero => exact Ensures.lift (by simp)
        | succ fuel =>
          exact follows_container (.struct st) .struct h fun inside hinside =>
            follows_dictionary hinside (fun raw => follows_raw heap fuel raw hinside) _
    | table =>
      dsimp only
      cases janetUnwrapTable raw with
      | none => exact Ensures.lift (by simp)
      | some pointer =>
        cases fuel with
        | zero => exact Ensures.lift (by simp)
        | succ fuel =>
          exact follows_container (.table pointer) .table h fun inside hinside =>
            follows_dictionary hinside (fun raw => follows_raw heap fuel raw hinside) _
    | _ => exact Ensures.pure rfl

end Follows

end Chains

/-! ## Without the trace -/

section Erasure

variable [CanonicalForm] {copy : Janet → CopyPath → Copying (JanetValue × CopyPath)}
  {plain : Janet → CopyPath → Result (JanetValue × CopyPath)} {chain : List Container}

omit [CanonicalForm] in
theorem traceEach_erases (hcopy : ∀ raw path, (copy raw path).Erases (plain raw path)) :
    ∀ (elements : List Janet) (result : List JanetValue) (path : CopyPath),
      (traceEach copy elements result path).Erases (copyEach plain elements result path)
  | [], result, path => Erases.pure _
  | element :: elements, result, path => by
    apply Erases.bind (hcopy element path)
    rintro ⟨value, path'⟩
    exact traceEach_erases hcopy elements _ path'

omit [CanonicalForm] in
theorem traceElements_erases (hcopy : ∀ raw path, (copy raw path).Erases (plain raw path))
    (elements : Option (List Janet)) (path : CopyPath) :
    (traceElements copy chain elements path).Erases (copyElements plain elements path) := by
  apply Erases.traced
  cases elements with
  | none => exact Erases.lift _
  | some elements => exact traceEach_erases hcopy elements [] path

theorem traceEntries_erases (hcopy : ∀ raw path, (copy raw path).Erases (plain raw path)) (kvs : List JanetKV) :
    ∀ (fuel : Nat) (i : Option Nat) (result : List (JanetValue × JanetValue)) (path : CopyPath),
      (traceEntries copy kvs fuel i result path).Erases (copyEntries plain kvs fuel i result path)
  | 0, _, _, _ => Erases.lift _
  | _ + 1, none, _, _ => Erases.pure _
  | fuel + 1, some i, result, path => by
    rw [traceEntries, copyEntries]
    cases kvs[i]? with
    | none => exact Erases.lift _
    | some entry =>
      apply Erases.bind (hcopy entry.key path)
      rintro ⟨key, path₁⟩
      apply Erases.bind (hcopy entry.value path₁)
      rintro ⟨value, path₂⟩
      exact traceEntries_erases hcopy kvs fuel _ _ path₂

theorem traceDictionary_erases (hcopy : ∀ raw path, (copy raw path).Erases (plain raw path))
    (kvs : Option (List JanetKV)) (path : CopyPath) :
    (traceDictionary copy chain kvs path).Erases (copyDictionary plain kvs path) := by
  apply Erases.traced
  cases kvs with
  | none => exact Erases.lift _
  | some kvs => exact traceEntries_erases hcopy kvs _ _ _ path

/-- **Without the trace, the traced copy is the copy.** -/
theorem traceRaw_erases (heap : Heap) : ∀ (fuel : Nat) (chain : List Container) (raw : Janet) (path : CopyPath),
    (traceRaw heap fuel chain raw path).Erases (initRaw heap fuel raw path)
  | fuel, chain, raw, path => by
    have hbytes : ∀ (p : Option Nat) (build : Text → JanetValue),
        Erases (do pure (build (← Lib.Computation.lift (ofJanetBytes heap p)), path) : Copying (JanetValue × CopyPath))
          (do .returns (build (← ofJanetBytes heap p), path)) :=
      fun p build => Erases.bind (Erases.lift _) fun _ => Erases.pure _
    rw [traceRaw, initRaw]
    apply Erases.traced
    cases janetType raw with
    | string => exact hbytes _ .string
    | keyword => exact hbytes _ .keyword
    | symbol => exact hbytes _ .symbol
    | tuple =>
      dsimp only
      cases janetUnwrapTuple raw with
      | none => exact Erases.lift _
      | some tuple =>
        cases fuel with
        | zero => exact Erases.lift _
        | succ fuel =>
          apply Erases.bind (Erases.lift _)
          intro inside
          apply Erases.bind (traceElements_erases (traceRaw_erases heap fuel _) _ inside)
          exact fun _ => Erases.pure _
    | array =>
      dsimp only
      cases janetUnwrapArray raw with
      | none => exact Erases.lift _
      | some pointer =>
        cases fuel with
        | zero => exact Erases.lift _
        | succ fuel =>
          apply Erases.bind (Erases.lift _)
          intro inside
          apply Erases.bind (traceElements_erases (traceRaw_erases heap fuel _) _ inside)
          exact fun _ => Erases.pure _
    | struct =>
      dsimp only
      cases janetUnwrapStruct raw with
      | none => exact Erases.lift _
      | some st =>
        cases fuel with
        | zero => exact Erases.lift _
        | succ fuel =>
          apply Erases.bind (Erases.lift _)
          intro inside
          apply Erases.bind (traceDictionary_erases (traceRaw_erases heap fuel _) _ inside)
          exact fun _ => Erases.pure _
    | table =>
      dsimp only
      cases janetUnwrapTable raw with
      | none => exact Erases.lift _
      | some pointer =>
        cases fuel with
        | zero => exact Erases.lift _
        | succ fuel =>
          apply Erases.bind (Erases.lift _)
          intro inside
          apply Erases.bind (traceDictionary_erases (traceRaw_erases heap fuel _) _ inside)
          exact fun _ => Erases.pure _
    | _ => exact Erases.pure _

/-- **The path follows the calls.** From a path that represents a chain of containers, every call in the trace of a copy
is made on a path that represents the chain of that call, and every call that returns leaves the path that it was given.
The trace is one of the copy itself, which needs fuel for the nesting limit and one container more. -/
theorem copyPath_follows_calls (heap : Heap) (fuel : Nat) (raw : Janet) {path : CopyPath}
    (h : path.Represents chain) :
    (∀ e ∈ (traceRaw heap fuel chain raw path []).2, FollowsCalls e) ∧
      (traceRaw heap fuel chain raw path []).1 = initRaw heap fuel raw path ∧
      (∀ value after, initRaw heap fuel raw path = .returns (value, after) → after = path) ∧
      (maxValueNestingDepth < fuel → initRaw heap fuel raw path ≠ .unfinished) := by
  obtain ⟨⟨new, hnew, hfollows⟩, hreturns⟩ := follows_raw heap fuel raw h []
  have herase := traceRaw_erases heap fuel chain raw path []
  refine ⟨?_, herase, fun value after hrun => ?_, fun hfuel hrun => ?_⟩
  · rw [hnew, List.nil_append]
    exact hfollows
  · exact hreturns (value, after) (herase.trans hrun)
  · have hdepth : path.depth ≤ maxValueNestingDepth := by
      rw [h.depth]
      exact h.within
    have hwalk := walk_explains copyRules heap.view fuel raw path (Nat.le_add_right_of_le hfuel) hdepth
    rw [← initRaw_eq_walk, hrun] at hwalk
    exact hwalk

end Erasure

/-- An array that holds the same table twice. -/
def sharedTable : Heap := (oneFunction.allocArray (janetArrayN [janetWrapTable 1, janetWrapTable 1])).1

/-- Below a tuple and another array, all ten calls of copying the array follow the chain, and return. -/
theorem copyPath_follows_calls_sharedTable :
    let trace := @traceRaw ⟨id⟩ sharedTable 257 [.array 7, .tuple 1] (janetWrapArray 1) ⟨2, {.array 7}⟩ []
    trace.2.length = 20 ∧ (∀ e ∈ trace.2, FollowsCalls e) ∧
      trace.1 = @initRaw ⟨id⟩ sharedTable 257 (janetWrapArray 1) ⟨2, {.array 7}⟩ ∧
      trace.1 ≠ .unfinished := by
  have h : CopyPath.Represents ⟨2, {.array 7}⟩ [.array 7, .tuple 1] := by
    refine ⟨rfl, fun a => ?_, by decide, by decide⟩
    simp [Container.address, eq_comm]
  obtain ⟨hfollows, herase, -, hends⟩ := @copyPath_follows_calls ⟨id⟩ _ sharedTable 257 (janetWrapArray 1) _ h
  exact ⟨by decide +kernel, hfollows, herase, fun hrun => hends (by decide) (herase ▸ hrun)⟩

end SwiftJanet
