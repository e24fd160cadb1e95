import SwiftJanet.Copy.Rejection
import SwiftJanet.Copy.Verdict

/-!
# What making makes

The containers below a raw value that `makeRaw` returns were all made by that call, and nest no deeper than the value
(`makeRaw_region`), provided that no number in it is flat out a pointer: the bits of a NaN can be those of a container,
which `makeRaw` passes on (`Flat`).
-/

namespace SwiftJanet

open Lib JanetValue

/-! ## Regions -/

/-- The container was made after `heap`, and is there in `heap'`. -/
def Heap.Since (heap heap' : Heap) : Container → Prop
  | .tuple p => heap.tuples.next ≤ p ∧ p < heap'.tuples.next
  | .array p => heap.arrays.next ≤ p ∧ p < heap'.arrays.next
  | .struct p => heap.structs.next ≤ p ∧ p < heap'.structs.next
  | .table p => heap.tables.next ≤ p ∧ p < heap'.tables.next

/-- All containers below the raw value were made after `heap`, have their blocks, and nest at most `n` deep. -/
inductive Heap.Region (heap heap' : Heap) : Nat → Janet → Prop
  | flat {n : Nat} {raw : Janet} (h : Container.pointedAt raw = none) : Region heap heap' n raw
  | node {n : Nat} {raw : Janet} {c : Container} (hc : c.IsAt raw) (hs : heap.Since heap' c)
      (hb : heap'.hasBlock c = true) (hk : ∀ w ∈ heap'.children c, Region heap heap' n w) :
      Region heap heap' (n + 1) raw

section Region

variable {heap heap' heap'' : Heap} {raw : Janet} {c : Container} {n m p : Nat}

theorem Heap.Since.frame (h : heap.Since heap' c) (hx : heap'.Extends p heap'') : heap.Since heap'' c := by
  cases c with
  | tuple q => exact ⟨h.1, Nat.lt_of_lt_of_le h.2 hx.tuples.next_le⟩
  | array q => exact ⟨h.1, Nat.lt_of_lt_of_le h.2 hx.arrays.next_le⟩
  | struct q => exact ⟨h.1, Nat.lt_of_lt_of_le h.2 hx.structs.next_le⟩
  | table q => exact ⟨h.1, Nat.lt_of_lt_of_le h.2 hx.tables.next_le⟩

theorem Heap.Since.mono (h : heap.Since heap' c) (hx : heap''.Extends p heap) : heap''.Since heap' c := by
  cases c with
  | tuple q => exact ⟨Nat.le_trans hx.tuples.next_le h.1, h.2⟩
  | array q => exact ⟨Nat.le_trans hx.arrays.next_le h.1, h.2⟩
  | struct q => exact ⟨Nat.le_trans hx.structs.next_le h.1, h.2⟩
  | table q => exact ⟨Nat.le_trans hx.tables.next_le h.1, h.2⟩

/-- A container keeps its children while the heap only changes a table from before. -/
theorem Heap.Since.children_eq (h : heap.Since heap' c) (hx : heap'.Extends p heap'') (hp : p < heap.tables.next) :
    heap''.children c = heap'.children c ∧ heap''.hasBlock c = heap'.hasBlock c := by
  cases c with
  | tuple q =>
    have hpos : 0 < q := Nat.lt_of_lt_of_le heap.tuples.pos h.1
    exact ⟨congrArg JanetTuple.data (hx.tuples.get_eq q hpos h.2 (Nat.ne_of_gt hpos)), rfl⟩
  | array q =>
    have hpos : 0 < q := Nat.lt_of_lt_of_le heap.arrays.pos h.1
    have hget := hx.arrays.get_eq q hpos h.2 (Nat.ne_of_gt hpos)
    exact ⟨congrArg JanetArray.elements hget, congrArg (fun a : JanetArray => a.data.isSome) hget⟩
  | struct q =>
    have hpos : 0 < q := Nat.lt_of_lt_of_le heap.structs.pos h.1
    have hget := hx.structs.get_eq q hpos h.2 (Nat.ne_of_gt hpos)
    exact ⟨congrArg (fun s : JanetStruct => alternate (live s.data)) hget, rfl⟩
  | table q =>
    have hlo : heap.tables.next ≤ q := h.1
    have hget := hx.tables.get_eq q (Nat.lt_of_lt_of_le heap.tables.pos h.1) h.2 (by omega)
    exact ⟨congrArg (fun t : JanetTable => alternate (live t.cells)) hget,
      congrArg (fun t : JanetTable => t.data.isSome) hget⟩

/-- **A region stays as it is** while the heap only changes a table from before. -/
theorem Heap.Region.frame (h : heap.Region heap' n raw) (hx : heap'.Extends p heap'') (hp : p < heap.tables.next) :
    heap.Region heap'' n raw := by
  induction h with
  | flat h => exact .flat h
  | node hc hs hb _ ih =>
    obtain ⟨hkids, hblock⟩ := hs.children_eq hx hp
    exact .node hc (hs.frame hx) (hblock.trans hb) (by rw [hkids]; exact ih)

theorem Heap.Region.mono (h : heap.Region heap' n raw) (hx : heap''.Extends p heap) : heap''.Region heap' n raw := by
  induction h with
  | flat h => exact .flat h
  | node hc hs hb _ ih => exact .node hc (hs.mono hx) hb ih

theorem Heap.Region.le (h : heap.Region heap' n raw) (hnm : n ≤ m) : heap.Region heap' m raw := by
  induction h generalizing m with
  | flat h => exact .flat h
  | @node n raw c hc hs hb _ ih =>
    obtain ⟨k, rfl⟩ : ∃ k, m = k + 1 := ⟨m - 1, by omega⟩
    exact .node hc hs hb fun w hw => ih w hw (by omega)

theorem mem_alternate {kvs : List JanetKV} {w : Janet} (h : w ∈ alternate kvs) :
    ∃ kv ∈ kvs, w = kv.key ∨ w = kv.value := by
  obtain ⟨kv, hkv, hw⟩ := List.mem_flatMap.mp h
  exact ⟨kv, hkv, by simpa using hw⟩

/-- The live entries of cells in a region. -/
theorem alternate_region {cells : List JanetKV} (h : CellsAll (heap.Region heap' n) cells) :
    ∀ w ∈ alternate (live cells), heap.Region heap' n w := by
  intro w hw
  obtain ⟨kv, hkv, rfl | rfl⟩ := mem_alternate hw
  · exact (h.live kv hkv).1
  · exact (h.live kv hkv).2

theorem cells_frame {cells : List JanetKV} (h : CellsAll (heap.Region heap' n) cells) (hx : heap'.Extends p heap'')
    (hp : p < heap.tables.next) : CellsAll (heap.Region heap'' n) cells := fun kv hkv =>
  ⟨(h kv hkv).1.frame hx hp, (h kv hkv).2.frame hx hp⟩

end Region

/-! ## Making -/

section Make

variable {hashing : Heap → Hashing} {base heap heap' : Heap} {raw : Janet} {v : JanetValue} {d inner n p : Nat}

/-- The bits of the number are not those of a pointer to a container. -/
def Flat : JanetValue → Prop
  | .number d => Container.pointedAt (janetWrapNumber d) = none
  | _ => True

/-- What making the value returns is made by the call, and nests at most `n` deep. -/
def Regional (hashing : Heap → Hashing) (n : Nat) (v : JanetValue) : Prop :=
  ∀ {depth heap raw heap'}, makeRaw (vmDictionaries hashing) v depth heap = (.returns raw, heap') →
    heap.Region heap' n raw

theorem extends_of_makeRaw {o : Result Janet} (h : makeRaw (vmDictionaries hashing) v d heap = (o, heap')) :
    heap.Extends 0 heap' := by
  have := (makeRaw_keeps (vmDictionaries hashing) v d heap).toExtends
  rwa [h] at this

theorem extends_of_makeRaws {vs : List JanetValue} {o : Result (List Janet)}
    (h : makeRaws (vmDictionaries hashing) vs d heap = (o, heap')) : heap.Extends 0 heap' := by
  have := (makeRaws_keeps (vmDictionaries hashing) vs d heap).toExtends
  rwa [h] at this

theorem extends_of_putStruct {es : List (JanetValue × JanetValue)} {st : StructBuilder} {o : Result StructBuilder}
    (h : putStruct (vmDictionaries hashing) es d st heap = (o, heap')) : heap.Extends 0 heap' := by
  have := (putStruct_keeps (vmDictionaries hashing) es d st heap).toExtends
  rwa [h] at this

theorem extends_of_putTable {es : List (JanetValue × JanetValue)} {o : Result Unit}
    (h : putTable (vmDictionaries hashing) es d p heap = (o, heap')) : heap.Extends p heap' := by
  have := (putTable_keeps (vmDictionaries hashing) es d p heap).toExtends
  rwa [h] at this

theorem makeRaws_region : ∀ {vs : List JanetValue} {heap heap' : Heap} {raws : List Janet},
    (∀ v ∈ vs, Regional hashing n v) → makeRaws (vmDictionaries hashing) vs inner heap = (.returns raws, heap') →
      ∀ w ∈ raws, heap.Region heap' n w
  | [], _, _, _, _, h => by
    cases h
    simp
  | v :: vs, heap, heap', raws, hr, h => by
    obtain ⟨raw, heap₁, raws₁, hraw, hraws, rfl⟩ := makeRaws_returns h
    intro w hw
    rcases List.mem_cons.mp hw with rfl | hw
    · exact (hr v List.mem_cons_self hraw).frame (extends_of_makeRaws hraws) heap.tables.pos
    · exact (makeRaws_region (fun v hv => hr v (List.mem_cons_of_mem _ hv)) hraws w hw).mono (extends_of_makeRaw hraw)

/-- Key and value of one entry, one after the other. -/
theorem entry_region {key value : JanetValue} {rawKey rawValue : Janet} {heap₁ heap₂ : Heap}
    (hkey : makeRaw (vmDictionaries hashing) key inner heap = (.returns rawKey, heap₁))
    (hvalue : makeRaw (vmDictionaries hashing) value inner heap₁ = (.returns rawValue, heap₂))
    (hr : Regional hashing n key ∧ Regional hashing n value) (hx : base.Extends p heap) :
    heap.Extends 0 heap₂ ∧ base.Region heap₂ n rawKey ∧ base.Region heap₂ n rawValue := by
  have hx₁ := extends_of_makeRaw hkey
  have hx₂ := extends_of_makeRaw hvalue
  refine ⟨hx₁.trans hx₂, ?_, ?_⟩
  · exact ((hr.1 hkey).frame hx₂ heap.tables.pos).mono hx
  · exact ((hr.2 hvalue).mono hx₁).mono hx

theorem putStruct_region : ∀ {es : List (JanetValue × JanetValue)} {st st' : StructBuilder} {heap heap' : Heap},
    (∀ e ∈ es, Regional hashing n e.1 ∧ Regional hashing n e.2) → base.Extends 0 heap →
      CellsAll (base.Region heap n) st.cells →
        putStruct (vmDictionaries hashing) es inner st heap = (.returns st', heap') →
          CellsAll (base.Region heap' n) st'.cells
  | [], _, _, _, _, _, _, hst, h => by
    cases h
    exact hst
  | (key, value) :: es, st, st', heap, heap', hr, hx, hst, h => by
    obtain ⟨rawKey, heap₁, rawValue, heap₂, st₁, hkey, hvalue, hput, h⟩ := putStruct_returns h
    obtain ⟨hx', hk, hv⟩ := entry_region hkey hvalue (hr (key, value) List.mem_cons_self) hx
    refine putStruct_region (fun e he => hr e (List.mem_cons_of_mem _ he)) (hx.trans hx') ?_ h
    exact all_structPut hput (cells_frame hst hx' base.tables.pos) hk hv

/-- The table at `p` has its block, with entries in the region. -/
def TableIn (base : Heap) (n p : Nat) (heap : Heap) : Prop := (heap.tables.get p).Has (base.Region heap n)

theorem putTable_region (hpos : 0 < p) (hp : p < base.tables.next) : ∀ {es : List (JanetValue × JanetValue)}
    {heap heap' : Heap}, (∀ e ∈ es, Regional hashing n e.1 ∧ Regional hashing n e.2) → base.Extends p heap →
      TableIn base n p heap → putTable (vmDictionaries hashing) es inner p heap = (.returns (), heap') →
        TableIn base n p heap'
  | [], _, _, _, _, ht, h => by
    cases h
    exact ht
  | (key, value) :: es, heap, heap', hr, hx, ht, h => by
    obtain ⟨rawKey, heap₁, rawValue, heap₂, heap₃, hkey, hvalue, hput, h⟩ := putTable_returns h
    obtain ⟨hx', hk, hv⟩ := entry_region hkey hvalue (hr (key, value) List.mem_cons_self) hx
    have ht₂ : TableIn base n p heap₂ := by
      have hget := hx'.tables.get_eq p hpos (Nat.lt_of_lt_of_le hp hx.tables.next_le) (Nat.ne_of_gt hpos)
      rw [TableIn, hget]
      exact ht.imp fun w hw => hw.frame hx' base.tables.pos
    obtain ⟨t, hcode, rfl⟩ := tablePut_returns hput
    have hset : heap₂.Extends p { heap₂ with tables := heap₂.tables.set p t } :=
      ⟨⟨.refl, .refl, .refl⟩, .refl, Store.extends_set⟩
    refine putTable_region hpos hp (fun e he => hr e (List.mem_cons_of_mem _ he))
      ((hx.trans hx'.weaken).trans hset) ?_ h
    show ((heap₂.tables.set p t).get p).Has _
    rw [Store.get_set]
    have hhas : t.Has (base.Region heap₂ n) := has_put hcode ht₂ hk hv (.flat rfl) (.flat rfl)
    exact hhas.imp fun w hw => hw.frame hset hp

/-- **What making returns was made by the call**, and nests no deeper than the value. -/
theorem makeRaw_region (v : JanetValue) : All Flat v → Regional hashing v.depth v := by
  induction v using partsInduction with
  | h v ih =>
    intro hflat depth heap raw heap' h
    have hparts : ∀ {m : Nat}, v.depth ≤ m + 1 → ∀ w ∈ v.parts, Regional hashing m w := fun hm w hw _ _ _ _ h =>
      (ih w hw (hflat.part hw) h).le (depth_parts hm w hw)
    cases v with
    | nil => cases h; exact .flat rfl
    | boolean b => cases h; exact .flat rfl
    | number d => cases h; exact .flat hflat.here
    | string t | keyword t | symbol t =>
      rw [makeRaw] at h
      obtain ⟨p, _, _, h⟩ := Computation.returns_of_bind (withJanetBytes_returns h)
      cases h
      exact .flat rfl
    | tuple xs =>
      obtain ⟨inner, raws, heap₁, hraws, rfl, rfl⟩ := makeRaw_tuple_returns h
      have hx := extends_of_makeRaws hraws
      refine @Heap.Region.node heap _ _ _ (.tuple heap₁.tuples.next)
        ⟨rfl, pointer_pos heap₁.tuples.pos⟩ ?_ rfl fun w hw => ?_
      · exact ⟨hx.tuples.next_le, Nat.lt_succ_self _⟩
      · rw [show (heap₁.allocTuple ⟨raws, false⟩).1.children (.tuple heap₁.tuples.next) = raws from
          congrArg JanetTuple.data Store.get_alloc] at hw
        exact (makeRaws_region (hparts (Nat.le_refl _)) hraws w hw).frame (extends_allocTuple _) heap.tables.pos
    | array xs =>
      obtain ⟨inner, raws, heap₁, hraws, rfl, rfl⟩ := makeRaw_array_returns h
      have hx := extends_of_makeRaws hraws
      refine @Heap.Region.node heap _ _ _ (.array heap₁.arrays.next)
        ⟨rfl, pointer_pos heap₁.arrays.pos⟩ ?_ ?_ fun w hw => ?_
      · exact ⟨hx.arrays.next_le, Nat.lt_succ_self _⟩
      · exact congrArg (fun a : JanetArray => a.data.isSome) Store.get_alloc
      · rw [show (heap₁.allocArray (janetArrayN raws)).1.children (.array heap₁.arrays.next) = raws from
          congrArg JanetArray.elements Store.get_alloc] at hw
        exact (makeRaws_region (hparts (Nat.le_refl _)) hraws w hw).frame (extends_allocArray _) heap.tables.pos
    | struct es =>
      obtain ⟨_, inner, st, heap₁, s, hst, hs, rfl, rfl⟩ := makeRaw_struct_returns h
      have hx := extends_of_putStruct hst
      have hcells := putStruct_region (fun e he => ⟨hparts (Nat.le_refl _) _ (mem_keys he),
        hparts (Nat.le_refl _) _ (mem_values he)⟩) (@Heap.Extends.refl heap 0) (all_structBegin (.flat rfl)) hst
      have hend : CellsAll _ s.data := all_structEnd hs hcells (.flat rfl)
      refine @Heap.Region.node heap _ _ _ (.struct heap₁.structs.next)
        ⟨rfl, pointer_pos heap₁.structs.pos⟩ ?_ rfl fun w hw => ?_
      · exact ⟨hx.structs.next_le, Nat.lt_succ_self _⟩
      · rw [show (heap₁.allocStruct _).1.children (.struct heap₁.structs.next) = _ from
          congrArg (fun s : JanetStruct => alternate (live s.data)) Store.get_alloc] at hw
        exact (alternate_region hend w hw).frame (extends_allocStruct _) heap.tables.pos
    | table es =>
      obtain ⟨hlt, rfl, inner, ht⟩ := makeRaw_table_returns h
      -- the table that is being filled counts as one from before the entries
      have hx₁ : heap.Extends 0 (heap.allocTable (janetTable (BitVec.ofNat 32 es.length))).1 :=
        extends_of_newTable .refl
      have hx₂ := extends_of_putTable ht
      have hslt : (BitVec.ofNat 32 es.length).slt 0#32 = false :=
        slt_of_toNat_lt (by rw [BitVec.toNat_ofNat]; omega)
      have hstart : ∀ n, TableIn (heap.allocTable (janetTable (BitVec.ofNat 32 es.length))).1 n heap.tables.next
          (heap.allocTable (janetTable (BitVec.ofNat 32 es.length))).1 := fun n => by
        rw [TableIn, show (heap.allocTable _).1.tables.get heap.tables.next = _ from Store.get_alloc]
        exact has_init hslt (.flat rfl)
      have hin := putTable_region heap.tables.pos (Nat.lt_succ_self _)
        (fun e he => ⟨hparts (Nat.le_refl _) _ (mem_keys he), hparts (Nat.le_refl _) _ (mem_values he)⟩) .refl
        (hstart _) ht
      refine @Heap.Region.node heap _ _ _ (.table heap.tables.next)
        ⟨rfl, pointer_pos heap.tables.pos⟩ ?_ hin.block fun w hw => ?_
      · exact ⟨Nat.le_refl _, Nat.lt_of_lt_of_le (Nat.lt_succ_self _) hx₂.tables.next_le⟩
      · exact (alternate_region hin.cells w hw).mono hx₁
    | unsupported name => cases h

end Make

end SwiftJanet
