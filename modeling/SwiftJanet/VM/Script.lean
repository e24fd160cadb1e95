import SwiftJanet.VM.Array
import SwiftJanet.VM.Dictionary

/-!
# Heaps that scripts make

`Operation` lists the ways the VM makes and changes strings, tuples, arrays, structs and tables; everything else in
the VM goes through them. `Reachable`: the heaps they lead to, whatever values they are given from the heap itself.

`reachable_sound`: in a reachable heap every container holds valid values only (`Heap.Valid`), and every table has a
block.
-/

namespace SwiftJanet

open Lib

/-! ## Making objects -/

namespace Heap

/-- The heap without objects. -/
def empty : Heap where
  strings := .empty []
  symcache := []
  tuples := .empty ⟨[], false⟩
  arrays := .empty (janetArrayImpl 0)
  structs := .empty ⟨0, [], none⟩
  tables := .empty (janetTableInitImpl 0)
  equalAbstract := fun _ _ => false
  interned := by simp

/-- `janet_string`. -/
def janetString (heap : Heap) (bytes : List UInt8) : Heap × Nat :=
  ({ heap with
      strings := heap.strings.alloc bytes
      interned := fun p hp => ⟨(heap.interned p hp).1, Nat.lt_succ_of_lt (heap.interned p hp).2⟩ },
    heap.strings.next)

/-- `janet_symbol`: equal bytes are interned once. -/
def janetSymbol (heap : Heap) (bytes : List UInt8) : Heap × Nat :=
  match heap.symcache.find? fun p => heap.strings.get p == bytes with
  | some p => (heap, p)
  | none =>
    ({ heap with
        strings := heap.strings.alloc bytes
        symcache := heap.strings.next :: heap.symcache
        interned := fun p hp => by
          rcases List.mem_cons.mp hp with rfl | hp
          · exact ⟨heap.strings.pos, Nat.lt_succ_self _⟩
          · exact ⟨(heap.interned p hp).1, Nat.lt_succ_of_lt (heap.interned p hp).2⟩ },
      heap.strings.next)

/-- A new tuple object. -/
def allocTuple (heap : Heap) (t : JanetTuple) : Heap × Nat :=
  ({ heap with tuples := heap.tuples.alloc t }, heap.tuples.next)

/-- A new array object. -/
def allocArray (heap : Heap) (a : JanetArray) : Heap × Nat :=
  ({ heap with arrays := heap.arrays.alloc a }, heap.arrays.next)

/-- A new struct object. -/
def allocStruct (heap : Heap) (s : JanetStruct) : Heap × Nat :=
  ({ heap with structs := heap.structs.alloc s }, heap.structs.next)

/-- A new table object. -/
def allocTable (heap : Heap) (t : JanetTable) : Heap × Nat :=
  ({ heap with tables := heap.tables.alloc t }, heap.tables.next)

end Heap

/-! ## Operations -/

/-- A change of one array. -/
inductive ArrayChange where
  | ensure (capacity growth : Int)
  | setcount (count : Int)
  | push (x : Janet)
  | pushAll (xs : List Janet)
  | pop
  | fill (x : Janet)
  | insert (at' : Nat) (xs : List Janet)
  | remove (at' n : Nat)
  | trim
  | clear
  | put (index : Nat) (x : Janet)

namespace ArrayChange

/-- The values the change is given. -/
def args : ArrayChange → List Janet
  | push x | fill x | put _ x => [x]
  | pushAll xs | insert _ xs => xs
  | _ => []

def run (a : JanetArray) : ArrayChange → Option JanetArray
  | ensure capacity growth => janetArrayEnsure a capacity growth
  | setcount count => janetArraySetcount a count
  | push x => janetArrayPush a x
  | pushAll xs => cfunArrayPush a xs
  | pop => janetArrayPop a
  | fill x => cfunArrayFill a x
  | insert at' xs => cfunArrayInsert a at' xs
  | remove at' n => cfunArrayRemove a at' n
  | trim => some (cfunArrayTrim a)
  | clear => cfunArrayClear a
  | put index x => janetPutArray a index x

end ArrayChange

/-- What the VM does to its heap. -/
inductive Operation where
  | string (bytes : List UInt8)
  | symbol (bytes : List UInt8)
  | tuple (elements : List Janet) (bracketed : Bool)
  | arrayNew (capacity : Int)
  | arrayN (elements : List Janet)
  | arrayNewFilled (count : Nat) (x : Janet)
  | arraySlice (items : List Janet) (start stop : Nat)
  | array (p : Nat) (change : ArrayChange)
  | struct (count : Nat) (kvs : List JanetKV) (proto : Option Nat)
  | tableNew (capacity : Nat)
  | tableClone (p : Nat)
  | tablePut (p : Nat) (key value : Janet)
  | tableRemove (p : Nat) (key : Janet)
  | tableClear (p : Nat)
  | tableSetproto (p : Nat) (proto : Option Nat)

/-- The values an operation is given. -/
def Operation.args : Operation → List Janet
  | tuple xs _ | arrayN xs | arraySlice xs _ _ => xs
  | arrayNewFilled _ x => [x]
  | array _ change => change.args
  | struct _ kvs _ => kvs.flatMap fun kv => [kv.key, kv.value]
  | tablePut _ k v => [k, v]
  | tableRemove _ k => [k]
  | _ => []

namespace Heap

/-- One operation; `none` when the VM panics or the process ends. -/
def step (hashing : Hashing) (heap : Heap) : Operation → Option Heap
  | .string bytes => some (heap.janetString bytes).1
  | .symbol bytes => some (heap.janetSymbol bytes).1
  | .tuple elements bracketed => some (heap.allocTuple ⟨elements, bracketed⟩).1
  | .arrayNew capacity => some (heap.allocArray (janetArray capacity)).1
  | .arrayN elements => some (heap.allocArray (janetArrayN elements)).1
  | .arrayNewFilled count x => do some (heap.allocArray (← cfunArrayNewFilled count x)).1
  | .arraySlice items start stop => do some (heap.allocArray (← cfunArraySlice items start stop)).1
  | .array p change => do
    some { heap with arrays := heap.arrays.set p (← change.run (heap.arrays.get p)) }
  | .struct count kvs proto => do
    let st ← structPutAll hashing (janetStructBegin (BitVec.ofNat 32 count)) kvs
    some (heap.allocStruct (← janetStructEnd hashing st proto)).1
  | .tableNew capacity =>
    if capacity < 2 ^ 31 then some (heap.allocTable (janetTable (BitVec.ofNat 32 capacity))).1 else none
  | .tableClone p => some (heap.allocTable (janetTableClone (heap.tables.get p))).1
  | .tablePut p key value => do
    some { heap with tables := heap.tables.set p (← janetTablePut hashing (heap.tables.get p) key value) }
  | .tableRemove p key =>
    some { heap with tables := heap.tables.set p (janetTableRemove hashing (heap.tables.get p) key) }
  | .tableClear p => some { heap with tables := heap.tables.set p (janetTableClear (heap.tables.get p)) }
  | .tableSetproto p proto =>
    let t := heap.tables.get p
    some { heap with tables := heap.tables.set p ⟨t.count, t.capacity, t.deleted, t.data, proto, t.capacity_eq⟩ }

/-- A value the VM can have: a number that reads as one, nil, a boolean, or a pointer to an object. -/
def Valid (heap : Heap) : Janet → Prop
  | .number d => janetType (.number d) = .number
  | .box .number _ => False
  | .box .nil p => p = 1
  | .box .boolean p => p = 0 ∨ p = 1
  | .box .string p | .box .symbol p | .box .keyword p => 0 < p ∧ p < heap.strings.next
  | .box .tuple p => 0 < p ∧ p < heap.tuples.next
  | .box .array p => 0 < p ∧ p < heap.arrays.next
  | .box .struct p => 0 < p ∧ p < heap.structs.next
  | .box .table p => 0 < p ∧ p < heap.tables.next
  | .box _ p => 0 < p

/-- The objects an operation works on exist. -/
def Exists (heap : Heap) : Operation → Prop
  | .array p _ => 0 < p ∧ p < heap.arrays.next
  | .tableClone p | .tablePut p _ _ | .tableRemove p _ | .tableClear p | .tableSetproto p _ =>
    0 < p ∧ p < heap.tables.next
  | _ => True

end Heap

/-- The heaps that operations on values of the heap lead to. -/
inductive Reachable (hashing : Heap → Hashing) : Heap → Prop
  | start : Reachable hashing .empty
  | step {heap heap' : Heap} {op : Operation} (h : Reachable hashing heap) (hargs : ∀ x ∈ op.args, heap.Valid x)
      (hop : heap.Exists op) (hstep : heap.step (hashing heap) op = some heap') : Reachable hashing heap'

/-! ## The invariant -/

/-- Containers hold valid values, and every table has a block. -/
structure Heap.Sound (heap : Heap) : Prop where
  tuples : heap.tuples.All fun t => ∀ x ∈ t.data, heap.Valid x
  arrays : heap.arrays.All (JanetArray.All heap.Valid)
  structs : heap.structs.All fun s => CellsAll heap.Valid s.data
  tables : heap.tables.All fun t => t.Has heap.Valid

section Sound

variable {heap heap' : Heap} {x : Janet}

theorem valid_nil : heap.Valid janetWrapNil := rfl

theorem valid_false : heap.Valid janetWrapFalse := Or.inl rfl

/-- The second heap has at least the addresses of the first. -/
structure Heap.Grows (heap heap' : Heap) : Prop where
  strings : heap.strings.next ≤ heap'.strings.next
  tuples : heap.tuples.next ≤ heap'.tuples.next
  arrays : heap.arrays.next ≤ heap'.arrays.next
  structs : heap.structs.next ≤ heap'.structs.next
  tables : heap.tables.next ≤ heap'.tables.next

theorem Heap.Valid.grow (h : heap.Valid x) (hg : heap.Grows heap') : heap'.Valid x := by
  obtain ⟨h1, h2, h3, h4, h5⟩ := hg
  cases x with
  | number d => exact h
  | box t p =>
    cases t with
    | string => exact ⟨h.1, Nat.lt_of_lt_of_le h.2 h1⟩
    | symbol => exact ⟨h.1, Nat.lt_of_lt_of_le h.2 h1⟩
    | keyword => exact ⟨h.1, Nat.lt_of_lt_of_le h.2 h1⟩
    | tuple => exact ⟨h.1, Nat.lt_of_lt_of_le h.2 h2⟩
    | array => exact ⟨h.1, Nat.lt_of_lt_of_le h.2 h3⟩
    | struct => exact ⟨h.1, Nat.lt_of_lt_of_le h.2 h4⟩
    | table => exact ⟨h.1, Nat.lt_of_lt_of_le h.2 h5⟩
    | _ => exact h

/-- A heap whose containers hold values valid before is sound after. -/
theorem Heap.Sound.intro (hg : heap.Grows heap') (htuples : heap'.tuples.All fun t => ∀ x ∈ t.data, heap.Valid x)
    (harrays : heap'.arrays.All (JanetArray.All heap.Valid))
    (hstructs : heap'.structs.All fun s => CellsAll heap.Valid s.data)
    (htables : heap'.tables.All fun t => t.Has heap.Valid) : heap'.Sound where
  tuples := htuples.imp fun _ h x hx => (h x hx).grow hg
  arrays := harrays.imp fun _ h x hx => Heap.Valid.grow (h x hx) hg
  structs := hstructs.imp fun _ h kv hkv => ⟨(h kv hkv).1.grow hg, (h kv hkv).2.grow hg⟩
  tables := htables.imp fun _ h => h.imp fun _ hx => hx.grow hg

namespace Heap

theorem Grows.refl : heap.Grows heap := ⟨Nat.le_refl _, Nat.le_refl _, Nat.le_refl _, Nat.le_refl _, Nat.le_refl _⟩

theorem grows_string (bytes : List UInt8) : heap.Grows (heap.janetString bytes).1 :=
  ⟨Nat.le_succ _, Nat.le_refl _, Nat.le_refl _, Nat.le_refl _, Nat.le_refl _⟩

theorem grows_symbol (bytes : List UInt8) : heap.Grows (heap.janetSymbol bytes).1 := by
  unfold janetSymbol
  split
  · exact .refl
  · exact ⟨Nat.le_succ _, Nat.le_refl _, Nat.le_refl _, Nat.le_refl _, Nat.le_refl _⟩

theorem grows_allocTuple (t : JanetTuple) : heap.Grows (heap.allocTuple t).1 :=
  ⟨Nat.le_refl _, Nat.le_succ _, Nat.le_refl _, Nat.le_refl _, Nat.le_refl _⟩

theorem grows_allocArray (a : JanetArray) : heap.Grows (heap.allocArray a).1 :=
  ⟨Nat.le_refl _, Nat.le_refl _, Nat.le_succ _, Nat.le_refl _, Nat.le_refl _⟩

theorem grows_allocStruct (s : JanetStruct) : heap.Grows (heap.allocStruct s).1 :=
  ⟨Nat.le_refl _, Nat.le_refl _, Nat.le_refl _, Nat.le_succ _, Nat.le_refl _⟩

theorem grows_allocTable (t : JanetTable) : heap.Grows (heap.allocTable t).1 :=
  ⟨Nat.le_refl _, Nat.le_refl _, Nat.le_refl _, Nat.le_refl _, Nat.le_succ _⟩

theorem Sound.string (h : heap.Sound) (bytes : List UInt8) : (heap.janetString bytes).1.Sound :=
  .intro (grows_string bytes) h.tuples h.arrays h.structs h.tables

theorem Sound.symbol (h : heap.Sound) (bytes : List UInt8) : (heap.janetSymbol bytes).1.Sound := by
  have hg : heap.Grows (heap.janetSymbol bytes).1 := grows_symbol bytes
  unfold janetSymbol at hg ⊢
  split
  · exact h
  · next hnone =>
    rw [hnone] at hg
    exact .intro hg h.tuples h.arrays h.structs h.tables

theorem Sound.allocTuple (h : heap.Sound) {t : JanetTuple} (ht : ∀ x ∈ t.data, heap.Valid x) :
    (heap.allocTuple t).1.Sound :=
  .intro (grows_allocTuple t) (h.tuples.alloc ht) h.arrays h.structs h.tables

theorem Sound.allocArray (h : heap.Sound) {a : JanetArray} (ha : a.All heap.Valid) : (heap.allocArray a).1.Sound :=
  .intro (grows_allocArray a) h.tuples (h.arrays.alloc ha) h.structs h.tables

theorem Sound.setArray (h : heap.Sound) {p : Nat} {a : JanetArray} (ha : a.All heap.Valid) :
    Sound { heap with arrays := heap.arrays.set p a } :=
  .intro .refl h.tuples (h.arrays.set ha) h.structs h.tables

theorem Sound.allocStruct (h : heap.Sound) {s : JanetStruct} (hs : CellsAll heap.Valid s.data) :
    (heap.allocStruct s).1.Sound :=
  .intro (grows_allocStruct s) h.tuples h.arrays (h.structs.alloc hs) h.tables

theorem Sound.allocTable (h : heap.Sound) {t : JanetTable} (ht : t.Has heap.Valid) : (heap.allocTable t).1.Sound :=
  .intro (grows_allocTable t) h.tuples h.arrays h.structs (h.tables.alloc ht)

theorem Sound.setTable (h : heap.Sound) {p : Nat} {t : JanetTable} (ht : t.Has heap.Valid) :
    Sound { heap with tables := heap.tables.set p t } :=
  .intro .refl h.tuples h.arrays h.structs (h.tables.set ht)

end Heap

/-- A change of an array keeps its values valid. -/
theorem all_change {change : ArrayChange} {a b : JanetArray} (h : change.run a = some b) (ha : a.All heap.Valid)
    (hargs : ∀ x ∈ change.args, heap.Valid x) : b.All heap.Valid := by
  cases change with
  | ensure capacity growth => exact all_ensure h ha
  | setcount count => exact all_setcount h ha valid_nil
  | push x => exact all_push h ha (hargs x (by simp [ArrayChange.args]))
  | pushAll xs => exact all_cfunPush h ha hargs
  | pop => exact all_pop h ha
  | fill x => exact all_fill h (hargs x (by simp [ArrayChange.args]))
  | insert i xs => exact all_insert h ha hargs
  | remove i n => exact all_remove h ha
  | trim => rw [← Option.some.inj h]; exact all_trim ha
  | clear => exact all_clear h
  | put i x => exact all_put h ha (hargs x (by simp [ArrayChange.args])) valid_nil

theorem empty_sound : Heap.empty.Sound where
  tuples := Store.all_empty
  arrays := Store.all_empty
  structs := Store.all_empty
  tables := Store.all_empty

/-- One operation keeps the heap sound. -/
theorem step_sound {hashing : Hashing} {op : Operation} (h : heap.Sound) (hargs : ∀ x ∈ op.args, heap.Valid x)
    (hop : heap.Exists op) (hstep : heap.step hashing op = some heap') : heap'.Sound := by
  cases op with
  | string bytes => rw [← Option.some.inj hstep]; exact h.string bytes
  | symbol bytes => rw [← Option.some.inj hstep]; exact h.symbol bytes
  | tuple elements bracketed => rw [← Option.some.inj hstep]; exact h.allocTuple hargs
  | arrayNew capacity =>
    rw [← Option.some.inj hstep]
    refine h.allocArray fun x hx => ?_
    unfold JanetArray.elements janetArray janetArrayImpl at hx
    split at hx <;> cases hx
  | arrayN elements => rw [← Option.some.inj hstep]; exact h.allocArray hargs
  | arrayNewFilled count x =>
    obtain ⟨a, ha, hstep⟩ := Option.bind_eq_some_iff.mp hstep
    rw [← Option.some.inj hstep]
    exact h.allocArray (all_newFilled ha (hargs x (by simp [Operation.args])))
  | arraySlice items start stop =>
    obtain ⟨a, ha, hstep⟩ := Option.bind_eq_some_iff.mp hstep
    rw [← Option.some.inj hstep]
    exact h.allocArray (all_slice ha hargs)
  | array p change =>
    obtain ⟨a, ha, hstep⟩ := Option.bind_eq_some_iff.mp hstep
    rw [← Option.some.inj hstep]
    exact h.setArray (all_change ha (h.arrays p hop.1 hop.2) hargs)
  | struct count kvs proto =>
    obtain ⟨st, hst, hstep⟩ := Option.bind_eq_some_iff.mp hstep
    obtain ⟨s, hs, hstep⟩ := Option.bind_eq_some_iff.mp hstep
    rw [← Option.some.inj hstep]
    have hkvs : CellsAll heap.Valid kvs := fun kv hkv =>
      ⟨hargs _ (List.mem_flatMap.mpr ⟨kv, hkv, by simp⟩), hargs _ (List.mem_flatMap.mpr ⟨kv, hkv, by simp⟩)⟩
    exact h.allocStruct (all_structEnd hs (all_structPutAll kvs hst (all_structBegin valid_nil) hkvs) valid_nil)
  | tableNew capacity =>
    rw [Heap.step] at hstep
    split at hstep
    · next hc =>
      rw [← Option.some.inj hstep]
      refine h.allocTable (has_init ?_ valid_nil)
      rw [BitVec.slt_zero_eq_msb, BitVec.msb_eq_false_iff_two_mul_lt, BitVec.toNat_ofNat, Nat.mod_eq_of_lt] <;> omega
    · cases hstep
  | tableClone p => rw [← Option.some.inj hstep]; exact h.allocTable (has_clone (h.tables p hop.1 hop.2))
  | tablePut p key value =>
    obtain ⟨t, ht, hstep⟩ := Option.bind_eq_some_iff.mp hstep
    rw [← Option.some.inj hstep]
    exact h.setTable (has_put ht (h.tables p hop.1 hop.2) (hargs key (by simp [Operation.args]))
      (hargs value (by simp [Operation.args])) valid_nil valid_false)
  | tableRemove p key =>
    rw [← Option.some.inj hstep]
    exact h.setTable (has_remove (h.tables p hop.1 hop.2) valid_nil valid_false)
  | tableClear p =>
    rw [← Option.some.inj hstep]
    exact h.setTable (has_clear (h.tables p hop.1 hop.2) valid_nil)
  | tableSetproto p proto =>
    rw [← Option.some.inj hstep]
    exact h.setTable ⟨(h.tables p hop.1 hop.2).block, (h.tables p hop.1 hop.2).cells⟩

/-- **Every reachable heap is sound.** -/
theorem reachable_sound {hashing : Heap → Hashing} (h : Reachable hashing heap) : heap.Sound := by
  induction h with
  | start => exact empty_sound
  | step _ hargs hop hstep ih => exact step_sound ih hargs hop hstep

end Sound

end SwiftJanet
