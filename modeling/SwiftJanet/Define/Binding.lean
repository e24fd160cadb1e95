import SwiftJanet.Copy.Frame
import SwiftJanet.Eval.Dobytes
import SwiftJanet.VM.Compare
import SwiftJanet.VM.Table

/-!
# Bindings

How the VM looks up a name: `janet_table_get` follows prototypes, `janet_table_get_keyword` looks for the bytes of a
keyword, and `janet_resolve_ext` reads the entry of an environment.

- `NameLaws`: what `janet_equals` and `janet_hash` answer about symbols and keywords;
- `Heap.binding`: the entry that a script finds under a name.
-/

namespace SwiftJanet

open Lib Lib.Probing

/-! ## Lookups -/

/-- `JANET_MAX_PROTO_DEPTH`. -/
def janetMaxProtoDepth : Nat := 200

namespace Heap

/-- The loop of `janet_table_get`, through `n` prototypes at most. -/
def janetTableGet (hashing : Hashing) (heap : Heap) (key : Janet) : Nat → Option Nat → Janet
  | 0, _ => janetWrapNil
  | _ + 1, none => janetWrapNil
  | n + 1, some t =>
    let table := heap.tables.get t
    match (janetDictFind hashing table.cells key).bind fun i => table.cells[i]? with
    | none => janetTableGet hashing heap key n table.proto
    | some bucket =>
      if !janetChecktype bucket.key .nil then bucket.value else janetTableGet hashing heap key n table.proto

/-- The test and the hash of `janet_dict_find_keyword`, whose loops are those of `janet_dict_find`. -/
def keywordSearch (heap : Heap) (keyword : List UInt8) : Hashing where
  hash _ := janetStringCalchash keyword
  equals x _ := janetChecktype x .keyword &&
    match janetUnwrapKeyword x with
    | none => false
    | some p => heap.strings.get p == keyword
  compare _ _ := 0

/-- `janet_table_get_keyword`. -/
def janetTableGetKeyword (heap : Heap) (t : Option Nat) (keyword : List UInt8) : Janet :=
  janetTableGet (heap.keywordSearch keyword) heap janetWrapNil janetMaxProtoDepth t

end Heap

/-! ## Entries -/

/-- `JanetBindingType`. -/
inductive JanetBindingType where
  | bindingNone | bindingDef | bindingVar | bindingMacro | bindingDynamicDef | bindingDynamicMacro
deriving DecidableEq, Repr

/-- The deprecation of a binding. -/
inductive JanetBindingDeprecation where
  | none | relaxed | normal | strict
deriving DecidableEq, Repr

/-- `JanetBinding`. -/
structure JanetBinding where
  type : JanetBindingType
  value : Janet
  deprecation : JanetBindingDeprecation
deriving DecidableEq, Repr

/-- `janet_truthy`. -/
def janetTruthy (x : Janet) : Bool := !janetChecktype x .nil && (!janetChecktype x .boolean || janetUnwrapBoolean x)

namespace Heap

/-- What an entry says about its deprecation. -/
def deprecationOf (heap : Heap) (deprecated : Janet) : JanetBindingDeprecation :=
  if janetChecktype deprecated .keyword then
    match janetUnwrapKeyword deprecated with
    | none => .none
    | some depkw =>
      let depkw := Eval.untilNul (heap.strings.get depkw)
      if depkw = Text.utf8 "relaxed".toList then .relaxed
      else if depkw = Text.utf8 "normal".toList then .normal
      else if depkw = Text.utf8 "strict".toList then .strict
      else .none
  else if !janetChecktype deprecated .nil then .normal
  else .none

/-- `janet_binding_from_entry`. -/
def janetBindingFromEntry (heap : Heap) (entry : Janet) : JanetBinding :=
  if !janetChecktype entry .table then ⟨.bindingNone, janetWrapNil, .none⟩
  else
    let entryTable := janetUnwrapTable entry
    let get := fun keyword : String => heap.janetTableGetKeyword entryTable (Text.utf8 keyword.toList)
    let deprecation := heap.deprecationOf (get "deprecated")
    let value := get "value"
    let ref := get "ref"
    let refIsValid := janetChecktype ref .array
    let redef := refIsValid && janetTruthy (get "redef")
    if janetTruthy (get "macro") then
      ⟨if redef then .bindingDynamicMacro else .bindingMacro, if redef then ref else value, deprecation⟩
    else if refIsValid then ⟨if redef then .bindingDynamicDef else .bindingVar, ref, deprecation⟩
    else ⟨.bindingDef, value, deprecation⟩

/-- The entry that a script finds under the name: its symbol is interned, and then looked up. -/
def binding (hashing : Heap → Hashing) (heap : Heap) (env : Nat) (name : List UInt8) : Janet :=
  let (heap, sym) := heap.janetSymbol name
  heap.janetTableGet (hashing heap) (janetWrapSymbol sym) janetMaxProtoDepth (some env)

/-- `janet_resolve_ext` on the symbol of the name. -/
def janetResolveExt (hashing : Heap → Hashing) (heap : Heap) (env : Nat) (name : List UInt8) : JanetBinding :=
  (heap.janetSymbol name).1.janetBindingFromEntry (heap.binding hashing env name)

end Heap

/-! ## Laws of names -/

/-- Symbols and keywords are equal when they are one object, and are hashed by their bytes. -/
structure NameLaws (hashing : Heap → Hashing) : Prop where
  symbol_equals : ∀ heap x p, (hashing heap).equals x (janetWrapSymbol p) =
    (janetType x == .symbol && janetUnwrapPointer x == pointer p)
  keyword_equals : ∀ heap x p, (hashing heap).equals x (janetWrapKeyword p) =
    (janetType x == .keyword && janetUnwrapPointer x == pointer p)
  symbol_hash : ∀ heap p, (hashing heap).hash (janetWrapSymbol p) = janetStringCalchash (heap.strings.get p)
  keyword_hash : ∀ heap p, (hashing heap).hash (janetWrapKeyword p) = janetStringCalchash (heap.strings.get p)

section Lookups

variable {hashing hashing' : Hashing} {cells : List JanetKV} {heap heap' : Heap} {key key' : Janet} {n p q t : Nat}
  {name : List UInt8}

/-- A search looks at the hash of its key and at how the live keys compare. -/
theorem janetDictFind_congr (hhash : hashing'.hash key' = hashing.hash key)
    (hequals : ∀ kv ∈ live cells, hashing'.equals kv.key key' = hashing.equals kv.key key) :
    janetDictFind hashing' cells key' = janetDictFind hashing cells key := by
  have hloop : ∀ (is : List Nat) (first : Option Nat),
      dictFindLoop hashing' cells key' is first = dictFindLoop hashing cells key is first := by
    intro is
    induction is with
    | nil => exact fun _ => rfl
    | cons i is ih =>
      intro first
      rw [dictFindLoop, dictFindLoop]
      cases hi : cells[i]? with
      | none => rfl
      | some kv =>
        simp only
        by_cases hlive : kv.isLive = true
        · have hmem : kv ∈ live cells := List.mem_filter.mpr ⟨List.mem_of_getElem? hi, hlive⟩
          rw [hequals kv hmem, ih]
          simp only [ih]
        · simp only [ih]
          have hdead : janetChecktype kv.key .nil = true := by simpa [JanetKV.isLive] using hlive
          simp only [hdead, if_true]
  rw [janetDictFind, janetDictFind, hhash, hloop]

theorem lookupCells_congr (hhash : hashing'.hash key' = hashing.hash key)
    (hequals : ∀ kv ∈ live cells, hashing'.equals kv.key key' = hashing.equals kv.key key) :
    lookupCells hashing' cells key' = lookupCells hashing cells key := by
  rw [lookupCells_eq, lookupCells_eq, janetDictFind_congr hhash hequals]

/-- Getting a value is a lookup in one table after the other. -/
theorem janetTableGet_succ : heap.janetTableGet hashing key (n + 1) (some t) =
    (lookupCells hashing (heap.tables.get t).cells key).getD
      (heap.janetTableGet hashing key n (heap.tables.get t).proto) := by
  rw [Heap.janetTableGet, lookupCells_eq]
  cases (janetDictFind hashing (heap.tables.get t).cells key).bind fun i => (heap.tables.get t).cells[i]? with
  | none => rfl
  | some kv =>
    rw [Option.bind_some]
    cases hlive : kv.isLive with
    | true => simp only [show (!janetChecktype kv.key .nil) = true from hlive, if_true, Option.getD_some]
    | false =>
      simp only [show (!janetChecktype kv.key .nil) = false from hlive, Bool.false_eq_true, if_false, Option.getD_none]

/-- A name that is interned already is found, in an unchanged heap. -/
theorem janetSymbol_of_mem (hi : heap.Interned) (hp : p ∈ heap.symcache) :
    heap.janetSymbol (heap.strings.get p) = (heap, p) := by
  unfold Heap.janetSymbol
  cases hfind : heap.symcache.find? fun q => heap.strings.get q == heap.strings.get p with
  | none =>
    have := List.find?_eq_none.mp hfind p hp
    simp at this
  | some q =>
    have hq : q ∈ heap.symcache := List.mem_of_find?_eq_some hfind
    have hbytes : (heap.strings.get q == heap.strings.get p) = true :=
      List.find?_some (p := fun q => heap.strings.get q == heap.strings.get p) hfind
    rw [hi.unique hq hp (eq_of_beq hbytes)]

end Lookups

end SwiftJanet
