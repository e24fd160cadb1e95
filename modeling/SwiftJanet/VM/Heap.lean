import Mathlib.Algebra.Ring.Int.Defs
import Mathlib.Algebra.Ring.Nat
import Mathlib.Data.List.Pairwise
import SwiftJanet.Lib.Store
import SwiftJanet.VM.Janet

/-!
# The VM's heap

Every kind of object has its own addresses. A block of cells is a list, and a `NULL` block is `none`; the hashes that
tuples and structs cache are left out.

- `JanetArray`, `JanetTable`, `JanetStruct`, `JanetTuple`: the containers, with what their fields promise each other;
- `janetDictionaryNext` steps from one live cell of a dictionary to the next (`live`, `nextFrom_eq_some`,
  `nextFrom_eq_none`);
- `Heap`: all objects, and the cache that interns symbols and keywords.
-/

namespace SwiftJanet

open Lib

/-! ## Containers -/

/-- A cell of a dictionary. -/
structure JanetKV where
  key : Janet
  value : Janet
deriving DecidableEq, Repr

/-- A tuple: its elements, and the flag of tuples written in brackets. -/
structure JanetTuple where
  data : List Janet
  bracketed : Bool

/-- An array: `data` holds the `count` elements, and is `none` while no block is allocated. -/
structure JanetArray where
  count : Nat
  capacity : Int
  data : Option (List Janet)
  count_eq : count = (data.getD []).length
  capacity_of_null : data = none → capacity ≤ 0

/-- A struct: `length` entries in a fixed block of cells. -/
structure JanetStruct where
  length : Nat
  data : List JanetKV
  proto : Option Nat

/-- A table: a block of `capacity` cells, of which `count` hold an entry and `deleted` held one. -/
structure JanetTable where
  count : Int
  capacity : Nat
  deleted : Int
  data : Option (List JanetKV)
  proto : Option Nat
  capacity_eq : capacity = (data.getD []).length

/-- A table without a block has no cell. -/
theorem JanetTable.capacity_none : 0 = ((none : Option (List JanetKV)).getD []).length := rfl

/-- The elements of an array, none without a block. -/
def JanetArray.elements (a : JanetArray) : List Janet := a.data.getD []

/-- The cells of a table, none without a block. -/
def JanetTable.cells (t : JanetTable) : List JanetKV := t.data.getD []

/-! ## Stepping through a dictionary -/

/-- The key of the cell is not nil. -/
def JanetKV.isLive (kv : JanetKV) : Bool := !janetChecktype kv.key .nil

/-- The cells that hold an entry. -/
def live (kvs : List JanetKV) : List JanetKV := kvs.filter JanetKV.isLive

/-- The loop of `janet_dictionary_next`, over the cells left from index `i`. -/
def nextFrom : List JanetKV → Nat → Option Nat
  | [], _ => none
  | kv :: kvs, i => if !janetChecktype kv.key .nil then some i else nextFrom kvs (i + 1)

/-- `janet_dictionary_next`: the index of the first live cell, or of the first one after cell `kv`. -/
def janetDictionaryNext (kvs : List JanetKV) (kv : Option Nat) : Option Nat :=
  let start := match kv with | none => 0 | some i => i + 1
  nextFrom (kvs.drop start) start

theorem live_append {left right : List JanetKV} : live (left ++ right) = live left ++ live right :=
  List.filter_append ..

/-- The loop stops at the first live cell. -/
theorem nextFrom_eq_some : ∀ {kvs : List JanetKV} {i j : Nat}, nextFrom kvs i = some j →
    ∃ left kv right, kvs = left ++ kv :: right ∧ j = i + left.length ∧ kv.isLive = true ∧ live left = []
  | [], _, _, h => by cases h
  | kv :: kvs, i, j, h => by
    rw [nextFrom] at h
    split at h
    · next hkv =>
      obtain rfl := Option.some.inj h
      exact ⟨[], kv, kvs, rfl, rfl, hkv, rfl⟩
    · next hkv =>
      obtain ⟨left, kv', right, rfl, hj, hlive, hleft⟩ := nextFrom_eq_some h
      refine ⟨kv :: left, kv', right, rfl, by simp; omega, hlive, ?_⟩
      have : kv.isLive = false := by simpa [JanetKV.isLive] using hkv
      simpa [live, this] using hleft

/-- The loop runs out when no cell is live. -/
theorem nextFrom_eq_none : ∀ {kvs : List JanetKV} {i : Nat}, nextFrom kvs i = none → live kvs = []
  | [], _, _ => rfl
  | kv :: kvs, i, h => by
    rw [nextFrom] at h
    split at h
    · cases h
    · next hkv =>
      have hdead : kv.isLive = false := by simpa [JanetKV.isLive] using hkv
      simpa [live, hdead] using nextFrom_eq_none h

/-! ## Heaps -/

/-- The objects of a VM. Strings, symbols and keywords share their addresses; `symcache` holds the interned ones.
`equalAbstract` says which abstract objects their types compare as equal. -/
structure Heap where
  strings : Store (List UInt8)
  symcache : List Nat
  tuples : Store JanetTuple
  arrays : Store JanetArray
  structs : Store JanetStruct
  tables : Store JanetTable
  equalAbstract : Nat → Nat → Bool
  interned : ∀ p ∈ symcache, 0 < p ∧ p < strings.next

/-- No two interned strings have the same bytes. -/
def Heap.Interned (heap : Heap) : Prop :=
  heap.symcache.Pairwise fun p q => heap.strings.get p ≠ heap.strings.get q

/-- Interned strings with the same bytes are one object. -/
theorem Heap.Interned.unique {heap : Heap} {p q : Nat} (hi : heap.Interned) (hp : p ∈ heap.symcache)
    (hq : q ∈ heap.symcache) (h : heap.strings.get p = heap.strings.get q) : p = q := by
  have : Std.Symm fun p q => heap.strings.get p ≠ heap.strings.get q := ⟨fun _ _ h => h.symm⟩
  exact Decidable.byContradiction fun hne => List.Pairwise.forall hi hp hq hne h

end SwiftJanet
