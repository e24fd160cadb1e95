import Mathlib.Data.List.Basic
import SwiftJanet.VM.Heap

/-!
# Tables and structs

The operations of the VM on the cells of one dictionary, over the VM's hash, equality and order of values (`Hashing`).
An operation that reads past a block or through `NULL` gives `none`.

- tables: open addressing with tombstones (`janetDictFind`, `janetTablePut`, `janetTableRemove`, …);
- structs: cells sorted by the length of their probe and by hash (`janetStructPutExt`, `janetStructEnd`).

`CellsAll p`: every key and value has the property `p`, which the operations keep (`all_structPut`, …). `JanetTable.Has p`:
the table has a block as well. The block is `NULL` only when the table was made for a negative capacity (`has_init`), and
the operations keep it (`has_put`, …).
-/

namespace SwiftJanet

/-- What the VM knows of values besides their representation: `janet_hash`, `janet_equals`, `janet_compare`. -/
structure Hashing where
  hash : Janet → BitVec 32
  equals : Janet → Janet → Bool
  compare : Janet → Janet → Int

/-! ## Cells -/

/-- `janet_tablen`: the least power of two above `n`, `0` for a negative `n`. -/
def janetTablen (n : BitVec 32) : BitVec 32 :=
  if n.slt 0#32 then 0#32
  else
    let n := n ||| n.sshiftRight 1
    let n := n ||| n.sshiftRight 2
    let n := n ||| n.sshiftRight 4
    let n := n ||| n.sshiftRight 8
    let n := n ||| n.sshiftRight 16
    if n = 0x7FFFFFFF#32 then 0x7FFFFFFF#32 else n + 1#32

/-- `janet_memempty`. -/
def janetMemempty (count : Nat) : List JanetKV := List.replicate count ⟨janetWrapNil, janetWrapNil⟩

/-- `janet_maphash`. -/
def janetMaphash (cap : Nat) (hash : BitVec 32) : Nat := (hash &&& (BitVec.ofNat 32 cap - 1#32)).toNat

/-- The cells in the order of a probe: from `index` to the end, and then from the front. -/
def probe (cap index : Nat) : List Nat := List.range' index (cap - index) ++ List.range index

/-- The loops of `janet_dict_find` over the cells `is`; `first` is the first tombstone seen. -/
def dictFindLoop (hashing : Hashing) (buckets : List JanetKV) (key : Janet) : List Nat → Option Nat → Option Nat
  | [], first => first
  | i :: is, first =>
    match buckets[i]? with
    | none => first
    | some kv =>
      if janetChecktype kv.key .nil then
        if janetChecktype kv.value .nil then some i
        else dictFindLoop hashing buckets key is (first.or (some i))
      else if hashing.equals kv.key key then some i
      else dictFindLoop hashing buckets key is first

/-- `janet_dict_find`: the cell of the key, or the one where it should go. -/
def janetDictFind (hashing : Hashing) (buckets : List JanetKV) (key : Janet) : Option Nat :=
  dictFindLoop hashing buckets key (probe buckets.length (janetMaphash buckets.length (hashing.hash key))) none

/-- The cell at an index has a key. -/
def occupied (cells : List JanetKV) (i : Nat) : Bool :=
  match cells[i]? with
  | none => false
  | some kv => !janetChecktype kv.key .nil

/-! ## Tables -/

/-- `janet_table_init_impl`. -/
def janetTableInitImpl (capacity : BitVec 32) : JanetTable :=
  let capacity := (janetTablen capacity).toNat
  if capacity ≠ 0 then ⟨0, capacity, 0, some (janetMemempty capacity), none, by simp [janetMemempty]⟩
  else ⟨0, 0, 0, none, none, JanetTable.capacity_none⟩

/-- `janet_table`, behind `table/new` and the weak tables. -/
def janetTable (capacity : BitVec 32) : JanetTable := janetTableInitImpl capacity

/-- Copy the live cells of `old` into `new`. -/
def rehashInto (hashing : Hashing) : List JanetKV → List JanetKV → Option (List JanetKV)
  | [], new => some new
  | kv :: old, new =>
    if janetChecktype kv.key .nil then rehashInto hashing old new
    else do
      let i ← janetDictFind hashing new kv.key
      rehashInto hashing old (new.set i kv)

/-- `janet_table_rehash`. -/
def janetTableRehash (hashing : Hashing) (t : JanetTable) (size : Nat) : Option JanetTable := do
  let data ← rehashInto hashing t.cells (janetMemempty size)
  some ⟨t.count, data.length, 0, some data, t.proto, rfl⟩

/-- Overwrite one cell. -/
def JanetTable.setCell (t : JanetTable) (i : Nat) (kv : JanetKV) (count deleted : Int) : JanetTable :=
  ⟨count, t.capacity, deleted, t.data.map (·.set i kv), t.proto, by
    have := t.capacity_eq; cases h : t.data <;> simpa [h] using this⟩

/-- `janet_table_remove`: the cell becomes a tombstone. -/
def janetTableRemove (hashing : Hashing) (t : JanetTable) (key : Janet) : JanetTable :=
  match janetDictFind hashing t.cells key with
  | none => t
  | some i =>
    if occupied t.cells i then t.setCell i ⟨janetWrapNil, janetWrapFalse⟩ (t.count - 1) (t.deleted + 1)
    else t

/-- Fill the cell where a new key goes. -/
def putFresh (hashing : Hashing) (t : JanetTable) (key value : Janet) : Option JanetTable := do
  let i ← janetDictFind hashing t.cells key
  let kv ← t.cells[i]?
  some (t.setCell i ⟨key, value⟩ (t.count + 1) (if janetChecktype kv.value .boolean then t.deleted - 1 else t.deleted))

/-- `janet_table_put`: a nil or NaN key is ignored, and a nil value removes the key. -/
def janetTablePut (hashing : Hashing) (t : JanetTable) (key value : Janet) : Option JanetTable :=
  if janetChecktype key .nil then some t
  else if janetChecktype key .number && (janetUnwrapNumber key).isNaN then some t
  else if janetChecktype value .nil then some (janetTableRemove hashing t key)
  else
    let grow := do
      let t ← janetTableRehash hashing t (janetTablen (BitVec.ofInt 32 (2 * t.count + 2))).toNat
      putFresh hashing t key value
    match janetDictFind hashing t.cells key with
    | none => grow
    | some i =>
      match t.cells[i]? with
      | none => none
      | some kv =>
        if !janetChecktype kv.key .nil then some (t.setCell i ⟨kv.key, value⟩ t.count t.deleted)
        else if (BitVec.ofInt 32 (2 * (t.count + t.deleted + 1))).toInt > t.capacity then grow
        else putFresh hashing t key value

/-- `janet_table_clear`. -/
def janetTableClear (t : JanetTable) : JanetTable :=
  ⟨0, t.capacity, 0, t.data.map fun cells => janetMemempty cells.length, t.proto, by
    have := t.capacity_eq; cases h : t.data <;> simpa [h, janetMemempty] using this⟩

/-- `janet_table_clone`: `malloc` gives a block, or the process ends. -/
def janetTableClone (t : JanetTable) : JanetTable :=
  ⟨t.count, t.capacity, t.deleted, some t.cells, t.proto, t.capacity_eq⟩

/-! ## Structs -/

/-- A struct being built: `janet_struct_hash` counts the entries put so far. -/
structure StructBuilder where
  length : Int
  count : Int
  cells : List JanetKV

/-- `janet_struct_begin`. -/
def janetStructBegin (count : BitVec 32) : StructBuilder :=
  let capacity := janetTablen (2#32 * count)
  let capacity := if capacity.slt 0#32 then janetTablen (count + 1#32) else capacity
  ⟨count.toInt, 0, janetMemempty capacity.toNat⟩

/-- Which of two pairs has the better claim to a cell: the one further from where it should be, then the one with the
smaller hash, then the smaller key. `1` says that the pair in the cell gives way. -/
def structStatus (hashing : Hashing) (key otherkey : Janet) (hash otherhash : BitVec 32) (dist otherdist : Nat) : Int :=
  if dist < otherdist then -1
  else if otherdist < dist then 1
  else if hash.slt otherhash then -1
  else if otherhash.slt hash then 1
  else hashing.compare key otherkey

/-- The loops of `janet_struct_put_ext` over the cells `is`: the pair in hand is swapped with a pair that is closer to
where it should be. -/
def structPutLoop (hashing : Hashing) (replace : Bool) :
    List Nat → StructBuilder → Janet → Janet → BitVec 32 → Nat → StructBuilder
  | [], st, _, _, _, _ => st
  | i :: is, st, key, value, hash, dist =>
    match st.cells[i]? with
    | none => st
    | some kv =>
      if janetChecktype kv.key .nil then { st with cells := st.cells.set i ⟨key, value⟩, count := st.count + 1 }
      else
        let cap := st.cells.length
        let otherhash := hashing.hash kv.key
        let otherdist := janetMaphash cap (BitVec.ofNat 32 (i + cap - janetMaphash cap otherhash))
        let status := structStatus hashing key kv.key hash otherhash dist otherdist
        if status = 1 then
          structPutLoop hashing replace is { st with cells := st.cells.set i ⟨key, value⟩ } kv.key kv.value otherhash
            (otherdist + 1)
        else if status = 0 then
          if replace then { st with cells := st.cells.set i ⟨kv.key, value⟩ } else st
        else structPutLoop hashing replace is st key value hash (dist + 1)

/-- `janet_struct_put_ext` in a block of cells: nil keys and values, NaN keys and entries too many are ignored. -/
def structPutCells (hashing : Hashing) (st : StructBuilder) (key value : Janet) (replace : Bool) : StructBuilder :=
  if janetChecktype key .nil || janetChecktype value .nil then st
  else if janetChecktype key .number && (janetUnwrapNumber key).isNaN then st
  else if st.count = st.length then st
  else
    let hash := hashing.hash key
    structPutLoop hashing replace (probe st.cells.length (janetMaphash st.cells.length hash)) st key value hash 0

/-- The loops of `janet_struct_put_ext` leave the block: it has no cells, and the index into it is the hash. -/
def leavesBlock (hashing : Hashing) (st : StructBuilder) (key value : Janet) : Bool :=
  st.cells.isEmpty && !(janetChecktype key .nil || janetChecktype value .nil) &&
    !(janetChecktype key .number && (janetUnwrapNumber key).isNaN) && st.count ≠ st.length && hashing.hash key ≠ 0#32

/-- `janet_struct_put_ext`; there is no result when it leaves the memory of the struct. -/
def janetStructPutExt (hashing : Hashing) (st : StructBuilder) (key value : Janet) (replace : Bool) :
    Option StructBuilder :=
  if leavesBlock hashing st key value then none else some (structPutCells hashing st key value replace)

/-- `janet_struct_put`. -/
def janetStructPut (hashing : Hashing) (st : StructBuilder) (key value : Janet) : Option StructBuilder :=
  janetStructPutExt hashing st key value true

/-- Put the entries one after the other. -/
def structPutAll (hashing : Hashing) (st : StructBuilder) (kvs : List JanetKV) : Option StructBuilder :=
  kvs.foldlM (fun st kv => janetStructPut hashing st kv.key kv.value) st

/-- `janet_struct_end`: fewer entries than announced are put into a smaller struct. -/
def janetStructEnd (hashing : Hashing) (st : StructBuilder) (proto : Option Nat) : Option JanetStruct :=
  (if st.count ≠ st.length then structPutAll hashing (janetStructBegin (BitVec.ofInt 32 st.count)) (live st.cells)
    else some st).map fun st => ⟨st.length.toNat, st.cells, proto⟩

/-! ## What the operations keep -/

section All

variable {p : Janet → Prop} {hashing : Hashing} {cells : List JanetKV} {t u : JanetTable} {key value : Janet}

/-- Every key and value has the property `p`. -/
def CellsAll (p : Janet → Prop) (cells : List JanetKV) : Prop := ∀ kv ∈ cells, p kv.key ∧ p kv.value

theorem CellsAll.set (h : CellsAll p cells) {i : Nat} {kv : JanetKV} (hkv : p kv.key ∧ p kv.value) :
    CellsAll p (cells.set i kv) := fun x hx => by
  rcases List.mem_or_eq_of_mem_set hx with hx | rfl
  · exact h x hx
  · exact hkv

theorem CellsAll.getElem? (h : CellsAll p cells) {i : Nat} {kv : JanetKV} (hkv : cells[i]? = some kv) :
    p kv.key ∧ p kv.value := h kv (List.mem_of_getElem? hkv)

theorem CellsAll.live (h : CellsAll p cells) : CellsAll p (live cells) := fun kv hkv => h kv (List.mem_filter.mp hkv).1

theorem all_memempty {n : Nat} (hnil : p janetWrapNil) : CellsAll p (janetMemempty n) := fun kv hkv => by
  rw [List.eq_of_mem_replicate hkv]; exact ⟨hnil, hnil⟩

theorem all_rehashInto : ∀ {old new cells : List JanetKV}, rehashInto hashing old new = some cells →
    CellsAll p old → CellsAll p new → CellsAll p cells
  | [], new, cells, h, _, hnew => by rw [← Option.some.inj h]; exact hnew
  | kv :: old, new, cells, h, hold, hnew => by
    have hrest : CellsAll p old := fun x hx => hold x (List.mem_cons_of_mem kv hx)
    rw [rehashInto] at h
    split at h
    · exact all_rehashInto h hrest hnew
    · obtain ⟨i, _, h⟩ := Option.bind_eq_some_iff.mp h
      exact all_rehashInto h hrest (hnew.set (hold kv (by simp)))

/-- The table has a block, in which every key and value has the property `p`. -/
structure JanetTable.Has (t : JanetTable) (p : Janet → Prop) : Prop where
  block : t.data.isSome
  cells : CellsAll p t.cells

theorem JanetTable.Has.imp {q : Janet → Prop} (h : t.Has p) (hpq : ∀ x, p x → q x) : t.Has q :=
  ⟨h.block, fun kv hkv => ⟨hpq _ (h.cells kv hkv).1, hpq _ (h.cells kv hkv).2⟩⟩

/-- For a capacity that is not negative the length is not `0`. -/
theorem janetTablen_ne_zero {n : BitVec 32} (h : n.slt 0#32 = false) : janetTablen n ≠ 0#32 := by
  have hmsb : n.msb = false := by simpa [BitVec.slt_zero_eq_msb] using h
  have keep : ∀ (m : BitVec 32) (k : Nat), m.msb = false → (m ||| m.sshiftRight k).msb = false := fun m k hm => by
    simp [BitVec.msb_or, BitVec.msb_sshiftRight, hm]
  have last : ∀ m : BitVec 32, m.msb = false → (if m = 0x7FFFFFFF#32 then 0x7FFFFFFF#32 else m + 1#32) ≠ 0#32 := by
    intro m hm
    split
    · decide
    · intro h0
      have hall : m = 0xFFFFFFFF#32 := by
        calc m = m + 1#32 - 1#32 := (BitVec.add_sub_cancel m 1#32).symm
          _ = 0xFFFFFFFF#32 := by rw [h0]; rfl
      rw [hall] at hm
      exact absurd hm (by decide)
  rw [janetTablen, if_neg (by rw [h]; exact Bool.false_ne_true)]
  exact last _ (keep _ 16 (keep _ 8 (keep _ 4 (keep _ 2 (keep _ 1 hmsb)))))

/-- A new table has a block unless its capacity is negative. -/
theorem has_init {capacity : BitVec 32} (h : capacity.slt 0#32 = false) (hnil : p janetWrapNil) :
    (janetTableInitImpl capacity).Has p := by
  have hne : (janetTablen capacity).toNat ≠ 0 := fun h0 =>
    janetTablen_ne_zero h (BitVec.eq_of_toNat_eq (by simpa using h0))
  unfold janetTableInitImpl
  simp only [ne_eq, hne, not_false_eq_true, if_true]
  exact ⟨rfl, all_memempty hnil⟩

theorem has_rehash {n : Nat} (h : janetTableRehash hashing t n = some u) (ht : t.Has p) (hnil : p janetWrapNil) :
    u.Has p := by
  obtain ⟨data, hd, h⟩ := Option.bind_eq_some_iff.mp h
  rw [← Option.some.inj h]
  exact ⟨rfl, all_rehashInto hd ht.cells (all_memempty hnil)⟩

theorem has_setCell (ht : t.Has p) {i : Nat} {kv : JanetKV} {c d : Int} (hkv : p kv.key ∧ p kv.value) :
    (t.setCell i kv c d).Has p := by
  have hcells : (t.setCell i kv c d).cells = t.cells.set i kv := by
    show (t.data.map (·.set i kv)).getD [] = (t.data.getD []).set i kv
    cases t.data <;> rfl
  refine ⟨by simpa [JanetTable.setCell] using ht.block, ?_⟩
  rw [hcells]
  exact ht.cells.set hkv

theorem has_remove (ht : t.Has p) (hnil : p janetWrapNil) (hfalse : p janetWrapFalse) :
    (janetTableRemove hashing t key).Has p := by
  unfold janetTableRemove
  split
  · exact ht
  · split
    · exact has_setCell ht ⟨hnil, hfalse⟩
    · exact ht

theorem has_putFresh (h : putFresh hashing t key value = some u) (ht : t.Has p) (hk : p key) (hv : p value) :
    u.Has p := by
  obtain ⟨i, _, h⟩ := Option.bind_eq_some_iff.mp h
  obtain ⟨kv, _, h⟩ := Option.bind_eq_some_iff.mp h
  rw [← Option.some.inj h]
  exact has_setCell ht ⟨hk, hv⟩

theorem has_put (h : janetTablePut hashing t key value = some u) (ht : t.Has p) (hk : p key) (hv : p value)
    (hnil : p janetWrapNil) (hfalse : p janetWrapFalse) : u.Has p := by
  have grow : ∀ {n : Nat}, (do let t ← janetTableRehash hashing t n; putFresh hashing t key value) = some u →
      u.Has p := by
    intro n h
    obtain ⟨t', ht', h⟩ := Option.bind_eq_some_iff.mp h
    exact has_putFresh h (has_rehash ht' ht hnil) hk hv
  unfold janetTablePut at h
  split at h
  · rw [← Option.some.inj h]; exact ht
  · split at h
    · rw [← Option.some.inj h]; exact ht
    · split at h
      · rw [← Option.some.inj h]; exact has_remove ht hnil hfalse
      · simp only at h
        split at h
        · exact grow h
        · next i hi =>
          split at h
          · cases h
          · next kv hkv =>
            split at h
            · rw [← Option.some.inj h]
              exact has_setCell ht ⟨(ht.cells.getElem? hkv).1, hv⟩
            · split at h
              · exact grow h
              · exact has_putFresh h ht hk hv

theorem has_clear (ht : t.Has p) (hnil : p janetWrapNil) : (janetTableClear t).Has p := by
  refine ⟨by simpa [janetTableClear] using ht.block, ?_⟩
  show CellsAll p ((t.data.map fun cells => janetMemempty cells.length).getD [])
  cases t.data with
  | none => exact fun kv hkv => by cases hkv
  | some cells => exact all_memempty hnil

theorem has_clone (ht : t.Has p) : (janetTableClone t).Has p := ⟨rfl, ht.cells⟩

theorem all_structPutLoop {replace : Bool} : ∀ (is : List Nat) {st : StructBuilder} {key value : Janet}
    {hash : BitVec 32} {dist : Nat}, CellsAll p st.cells → p key → p value →
      CellsAll p (structPutLoop hashing replace is st key value hash dist).cells
  | [], st, _, _, _, _, hst, _, _ => hst
  | i :: is, st, key, value, hash, dist, hst, hk, hv => by
    rw [structPutLoop]
    split
    · exact hst
    · next kv hkv =>
      split
      · exact hst.set ⟨hk, hv⟩
      · simp only
        split
        · exact all_structPutLoop is (hst.set ⟨hk, hv⟩) (hst.getElem? hkv).1 (hst.getElem? hkv).2
        · split
          · split
            · exact hst.set ⟨(hst.getElem? hkv).1, hv⟩
            · exact hst
          · exact all_structPutLoop is hst hk hv

theorem all_putCells {st : StructBuilder} {replace : Bool} (hst : CellsAll p st.cells) (hk : p key) (hv : p value) :
    CellsAll p (structPutCells hashing st key value replace).cells := by
  unfold structPutCells
  split
  · exact hst
  · split
    · exact hst
    · split
      · exact hst
      · exact all_structPutLoop _ hst hk hv

/-- A put that stays in the block. -/
theorem structPut_returns {st st' : StructBuilder} (h : janetStructPut hashing st key value = some st') :
    st' = structPutCells hashing st key value true := by
  rw [janetStructPut, janetStructPutExt] at h
  split at h
  · cases h
  · exact (Option.some.inj h).symm

theorem all_structPut {st st' : StructBuilder} (h : janetStructPut hashing st key value = some st')
    (hst : CellsAll p st.cells) (hk : p key) (hv : p value) : CellsAll p st'.cells :=
  structPut_returns h ▸ all_putCells hst hk hv

theorem all_structPutAll : ∀ (kvs : List JanetKV) {st st' : StructBuilder}, structPutAll hashing st kvs = some st' →
    CellsAll p st.cells → CellsAll p kvs → CellsAll p st'.cells
  | [], _, _, h, hst, _ => Option.some.inj h ▸ hst
  | kv :: kvs, st, st', h, hst, hkvs => by
    have hkv := hkvs kv (by simp)
    obtain ⟨st₁, hput, hrest⟩ := Option.bind_eq_some_iff.mp h
    exact all_structPutAll kvs hrest (all_structPut hput hst hkv.1 hkv.2) fun x hx => hkvs x (List.mem_cons_of_mem kv hx)

theorem all_structBegin {count : BitVec 32} (hnil : p janetWrapNil) : CellsAll p (janetStructBegin count).cells :=
  all_memempty hnil

theorem all_structEnd {st : StructBuilder} {proto : Option Nat} {s : JanetStruct}
    (h : janetStructEnd hashing st proto = some s) (hst : CellsAll p st.cells) (hnil : p janetWrapNil) :
    CellsAll p s.data := by
  obtain ⟨st', hst', rfl⟩ := Option.map_eq_some_iff.mp h
  split at hst'
  · exact all_structPutAll _ hst' (all_structBegin hnil) hst.live
  · exact Option.some.inj hst' ▸ hst

end All

end SwiftJanet
