import SwiftJanet.VM.Table

/-!
# Building structs

`janet_struct_put_ext` moves pairs to later cells of a probe until one finds a free cell. Whatever the hash, an entry
whose key is told apart from all others by `janet_compare` is added (`putCells_separate`), as long as a cell is free;
no put adds more than one entry (`steps_structPut`).

- `begin_capacity`: a struct of fewer than `2 ^ 30` entries has a cell more than entries. From there on `2 * count`
  overflows, and there are no cells (`begin_overflow`);
- `structPut_eq`: with cells no put leaves the block.
-/

namespace SwiftJanet

open Lib Lib.Probing

variable {hashing : Hashing} {cells : List JanetKV} {st : StructBuilder} {key value : Janet} {kv : JanetKV} {i n : Nat}

/-! ## Capacity -/

theorem begin_cells (count : BitVec 32) (h : (janetTablen (2#32 * count)).slt 0#32 = false) :
    janetStructBegin count = ⟨count.toInt, 0, janetMemempty (janetTablen (2#32 * count)).toNat⟩ := by
  rw [janetStructBegin]
  simp only [h, Bool.false_eq_true, if_false]

theorem slt_of_toNat_lt {n : BitVec 32} (h : n.toNat < 2 ^ 31) : n.slt 0#32 = false := by
  rw [BitVec.slt_zero_eq_msb, BitVec.msb_eq_false_iff_two_mul_lt]
  omega

theorem toNat_double (hn : n < 2 ^ 31) : (2#32 * BitVec.ofNat 32 n).toNat = 2 * n := by
  rw [BitVec.toNat_mul, BitVec.toNat_ofNat, BitVec.toNat_ofNat]
  omega

theorem begin_capacity (hn : n < 2 ^ 30) :
    (janetStructBegin (BitVec.ofNat 32 n)).length = n ∧ (janetStructBegin (BitVec.ofNat 32 n)).count = 0 ∧
      n < (janetStructBegin (BitVec.ofNat 32 n)).cells.length ∧
      ∃ m, (janetStructBegin (BitVec.ofNat 32 n)).cells = janetMemempty m := by
  have hnat := @toNat_double n (by omega)
  have hcases := @janetTablen_cases (2#32 * BitVec.ofNat 32 n) (by omega)
  rw [begin_cells _ (slt_of_toNat_lt (by omega))]
  refine ⟨?_, rfl, ?_, _, rfl⟩
  · show (BitVec.ofNat 32 n).toInt = n
    have hn' := @toNat_count n (by omega)
    rw [BitVec.toInt_eq_toNat_of_lt (by omega), hn']
  · show n < (janetMemempty _).length
    rw [janetMemempty, List.length_replicate]
    omega

/-- The slip: a negative `2 * count` makes the capacity `0`, which is not below `0`. -/
theorem begin_overflow (hlo : 2 ^ 30 ≤ n) (hhi : n < 2 ^ 31) : (janetStructBegin (BitVec.ofNat 32 n)).cells = [] := by
  have hneg : (2#32 * BitVec.ofNat 32 n).slt 0#32 = true := by
    rw [BitVec.slt_zero_eq_msb, BitVec.msb_eq_true_iff_two_mul_ge, toNat_double hhi]
    omega
  have hzero : janetTablen (2#32 * BitVec.ofNat 32 n) = 0#32 := by rw [janetTablen, if_pos hneg]
  rw [begin_cells _ (by rw [hzero]; rfl), hzero]
  rfl

/-! ## Putting -/

/-- What a put keeps: the announced length, the cells, and the free ones among them; and it adds one entry at most. -/
structure StructBuilder.Steps (st st' : StructBuilder) : Prop where
  length : st'.length = st.length
  count : st'.count = st.count ∨ st'.count = st.count + 1
  cells : st'.cells.length = st.cells.length
  free : ∀ kv ∈ st'.cells, kv.isLive = false → kv ∈ st.cells
  live_le : (live st'.cells).length ≤ (live st.cells).length + 1

theorem StructBuilder.Steps.refl : st.Steps st := ⟨rfl, Or.inl rfl, rfl, fun _ h _ => h, Nat.le_succ _⟩

/-- Overwriting a cell by an entry. -/
theorem steps_set (hi : st.cells[i]? = some kv) {kv' : JanetKV} (hlive : kv'.isLive = true) {count : Int}
    (hcount : count = st.count ∨ count = st.count + 1) :
    st.Steps { st with cells := st.cells.set i kv', count := count } := by
  refine ⟨rfl, hcount, List.length_set, fun x hx hdead => ?_, ?_⟩
  · rcases List.mem_or_eq_of_mem_set hx with hx | rfl
    · exact hx
    · rw [hlive] at hdead
      cases hdead
  · have := @length_live_set _ _ _ hi kv'
    rw [hlive, if_pos rfl] at this
    show (live (st.cells.set i kv')).length ≤ _
    omega

/-- A pair that takes the cell of another one leaves the number of entries as it is. -/
theorem live_swap (hi : cells[i]? = some kv) (hlive : kv.isLive = true) {kv' : JanetKV} (hlive' : kv'.isLive = true) :
    (kv :: live (cells.set i kv')).Perm (kv' :: live cells) := by
  obtain ⟨hlt, rfl⟩ := List.getElem?_eq_some_iff.mp hi
  have hold : live cells = live (cells.take i) ++ cells[i] :: live (cells.drop (i + 1)) := by
    have hsplit : live cells = live (cells.take i ++ cells[i] :: cells.drop (i + 1)) := by simp
    rw [hsplit, live_append]
    simp only [live, List.filter_cons, hlive, if_true]
  rw [List.set_eq_take_append_cons_drop, if_pos hlt, live_append, hold]
  have hnew : live (kv' :: cells.drop (i + 1)) = kv' :: live (cells.drop (i + 1)) := by
    simp only [live, List.filter_cons, hlive', if_true]
  rw [hnew]
  exact ((List.perm_middle.cons _).trans (List.Perm.swap ..)).trans (List.perm_middle.symm.cons _)

theorem steps_putLoop {replace : Bool} : ∀ (is : List Nat) {st : StructBuilder} {key value : Janet} {hash : BitVec 32}
    {dist : Nat}, janetChecktype key .nil = false →
      st.Steps (structPutLoop hashing replace is st key value hash dist)
  | [], _, _, _, _, _, _ => .refl
  | i :: is, st, key, value, hash, dist, hkey => by
    have hnew : ∀ v, (⟨key, v⟩ : JanetKV).isLive = true := fun v => isLive_of_key hkey
    rw [structPutLoop]
    cases hi : st.cells[i]? with
    | none => exact .refl
    | some kv =>
      simp only
      by_cases hdead : janetChecktype kv.key .nil = true
      · rw [if_pos hdead]
        exact steps_set hi (hnew value) (Or.inr rfl)
      · have hkv : janetChecktype kv.key .nil = false := by simpa using hdead
        have hlive : kv.isLive = true := isLive_of_key hkv
        rw [if_neg hdead]
        split
        · -- the pair in the cell goes on instead
          have hswap := (live_swap hi hlive (hnew value)).length_eq
          have hset := steps_set hi (hnew value) (Or.inl rfl : st.count = st.count ∨ _)
          have hrest := @steps_putLoop replace is { st with cells := st.cells.set i ⟨key, value⟩ } kv.key kv.value
            (hashing.hash kv.key) (janetMaphash st.cells.length (BitVec.ofNat 32 (i + st.cells.length -
              janetMaphash st.cells.length (hashing.hash kv.key))) + 1) hkv
          refine ⟨hrest.length, hrest.count, hrest.cells.trans List.length_set, fun x hx hx' => hset.free x (hrest.free x hx hx') hx', ?_⟩
          have hle := hrest.live_le
          simp only [List.length_cons] at hswap
          exact Nat.le_trans hle (by show (live (st.cells.set i ⟨key, value⟩)).length + 1 ≤ _; omega)
        · split
          · split
            · exact @steps_set _ _ _ hi ⟨kv.key, value⟩ hlive _ (Or.inl rfl)
            · exact .refl
          · exact steps_putLoop is hkey

/-- `janet_compare` tells the keys of two entries apart. -/
def Separate (hashing : Hashing) (kv kv' : JanetKV) : Prop :=
  hashing.compare kv.key kv'.key ≠ 0 ∧ hashing.compare kv'.key kv.key ≠ 0

theorem Separate.symm {kv' : JanetKV} (h : Separate hashing kv kv') : Separate hashing kv' kv := ⟨h.2, h.1⟩

/-- A pair counts as the same only if its key compares as equal. -/
theorem compare_of_status {otherkey : Janet} {hash otherhash : BitVec 32} {dist otherdist : Nat}
    (h : structStatus hashing key otherkey hash otherhash dist otherdist = 0) : hashing.compare key otherkey = 0 := by
  unfold structStatus at h
  split at h
  · cases h
  · split at h
    · cases h
    · split at h
      · cases h
      · split at h
        · cases h
        · exact h

/-- A pair that is told apart from all entries finds a free cell. -/
theorem putLoop_separate {replace : Bool} : ∀ {is : List Nat} {st : StructBuilder} {key value : Janet} {hash : BitVec 32}
    {dist : Nat}, janetChecktype key .nil = false → (∃ i ∈ is, ∃ kv, st.cells[i]? = some kv ∧ kv.isLive = false) →
      (⟨key, value⟩ :: live st.cells).Pairwise (Separate hashing) → (∀ i ∈ is, i < st.cells.length) →
        (structPutLoop hashing replace is st key value hash dist).count = st.count + 1 ∧
          (live (structPutLoop hashing replace is st key value hash dist).cells).Perm (⟨key, value⟩ :: live st.cells)
  | [], _, _, _, _, _, _, hfree, _, _ => by
    obtain ⟨i, hi, _⟩ := hfree
    cases hi
  | i :: is, st, key, value, hash, dist, hkey, hfree, hsep, hin => by
    obtain ⟨kv, hi⟩ : ∃ kv, st.cells[i]? = some kv := ⟨_, List.getElem?_eq_getElem (hin i List.mem_cons_self)⟩
    rw [structPutLoop, hi]
    simp only
    by_cases hdead : janetChecktype kv.key .nil = true
    · rw [if_pos hdead]
      refine ⟨rfl, live_fill hi ?_ (isLive_of_key hkey)⟩
      simp [JanetKV.isLive, hdead]
    · have hkv : janetChecktype kv.key .nil = false := by simpa using hdead
      have hlive : kv.isLive = true := isLive_of_key hkv
      -- the free cell lies further on
      obtain ⟨j, hj, x, hx, hxdead⟩ := hfree
      have hj' : j ∈ is := by
        rcases List.mem_cons.mp hj with rfl | hj
        · obtain rfl := Option.some.inj (hi.symm.trans hx)
          rw [hlive] at hxdead
          cases hxdead
        · exact hj
      have hij : i ≠ j := by
        rintro rfl
        obtain rfl := Option.some.inj (hi.symm.trans hx)
        rw [hlive] at hxdead
        cases hxdead
      have hmem : kv ∈ live st.cells := List.mem_filter.mpr ⟨List.mem_of_getElem? hi, hlive⟩
      have hne : hashing.compare key kv.key ≠ 0 := ((List.pairwise_cons.mp hsep).1 kv hmem).1
      rw [if_neg hdead]
      split
      · have hswap := @live_swap _ _ _ hi hlive ⟨key, value⟩ (isLive_of_key hkey)
        have hrest := @putLoop_separate replace is { st with cells := st.cells.set i ⟨key, value⟩ } kv.key kv.value
          (hashing.hash kv.key) (janetMaphash st.cells.length (BitVec.ofNat 32 (i + st.cells.length -
            janetMaphash st.cells.length (hashing.hash kv.key))) + 1) hkv
          ⟨j, hj', x, (List.getElem?_set_ne hij).trans hx, hxdead⟩
          (hsep.perm hswap.symm fun h => h.symm)
          (fun j hj => by rw [List.length_set]; exact hin j (List.mem_cons_of_mem _ hj))
        exact ⟨hrest.1, hrest.2.trans hswap⟩
      · split
        · next hstatus => exact absurd (compare_of_status hstatus) hne
        · exact putLoop_separate hkey ⟨j, hj', x, hx, hxdead⟩ hsep fun j hj => hin j (List.mem_cons_of_mem _ hj)

/-- Whatever is put, a put is a step. -/
theorem steps_putCells {replace : Bool} : st.Steps (structPutCells hashing st key value replace) := by
  unfold structPutCells
  split
  · exact .refl
  · next hnil =>
    split
    · exact .refl
    · split
      · exact .refl
      · refine steps_putLoop _ ?_
        simp only [Bool.or_eq_true, not_or, Bool.not_eq_true] at hnil
        exact hnil.1

/-- A put keeps the number of entries within the announced length. -/
theorem count_putCells_le {replace : Bool} (h : st.count ≤ st.length) :
    (structPutCells hashing st key value replace).count ≤ st.length := by
  unfold structPutCells
  split
  · exact h
  · next hnil =>
    split
    · exact h
    · split
      · exact h
      · next hne =>
        simp only [Bool.or_eq_true, not_or, Bool.not_eq_true] at hnil
        have hcount := (@steps_putLoop hashing replace (probe st.cells.length (janetMaphash st.cells.length
          (hashing.hash key))) st key value (hashing.hash key) 0 hnil.1).count
        show (structPutLoop ..).count ≤ _
        omega

theorem steps_structPut {st' : StructBuilder} (h : janetStructPut hashing st key value = some st') : st.Steps st' :=
  structPut_returns h ▸ steps_putCells

/-- With cells no put leaves the block. -/
theorem structPut_eq (h : 0 < st.cells.length) :
    janetStructPut hashing st key value = some (structPutCells hashing st key value true) := by
  have hempty : st.cells.isEmpty = false := by
    rw [List.isEmpty_eq_false_iff]
    exact List.ne_nil_of_length_pos h
  rw [janetStructPut, janetStructPutExt, leavesBlock, hempty]
  rfl

/-- A put that leaves the block was into none, and of what can be stored. -/
theorem of_structPut_none (h : janetStructPut hashing st key value = none) : st.cells = [] ∧ Storable key value := by
  rw [janetStructPut, janetStructPutExt] at h
  split at h
  · next hleaves =>
    simp only [leavesBlock, Bool.and_eq_true, Bool.not_eq_true', Bool.or_eq_false_iff, List.isEmpty_iff] at hleaves
    obtain ⟨⟨⟨⟨hcells, hkey, hvalue⟩, hnan⟩, _⟩, _⟩ := hleaves
    exact ⟨hcells, hkey, fun hnumber => by simpa [hnumber] using hnan, hvalue⟩
  · cases h

/-- What cannot be stored is not put. -/
theorem putCells_of_not_storable {replace : Bool} (h : ¬Storable key value) :
    structPutCells hashing st key value replace = st := by
  unfold structPutCells
  split
  · rfl
  · next hnil =>
    simp only [Bool.or_eq_true, not_or, Bool.not_eq_true] at hnil
    rw [if_pos]
    by_contra hnan
    refine h ⟨hnil.1, fun hnum => ?_, hnil.2⟩
    simpa [hnum] using hnan

/-- **An entry that is told apart from all others is added**, if the struct still lacks one and has a free cell. -/
theorem putCells_separate {replace : Bool} (hs : Storable key value) (hcount : st.count ≠ st.length)
    (hroom : (live st.cells).length < st.cells.length)
    (hsep : (⟨key, value⟩ :: live st.cells).Pairwise (Separate hashing)) :
    (structPutCells hashing st key value replace).count = st.count + 1 ∧
      (live (structPutCells hashing st key value replace).cells).Perm (⟨key, value⟩ :: live st.cells) := by
  have hnan : (janetChecktype key .number && (janetUnwrapNumber key).isNaN) = false := by
    cases h : janetChecktype key .number with
    | false => rfl
    | true => exact hs.key_not_nan h
  obtain ⟨kv, hmem, hdead⟩ := List.length_filter_lt_length_iff_exists.mp hroom
  obtain ⟨i, hi⟩ := List.mem_iff_getElem?.mp hmem
  have hlt : i < st.cells.length := (List.getElem?_eq_some_iff.mp hi).1
  have hpos : 0 < st.cells.length := by omega
  rw [structPutCells, hs.key_not_nil, hs.value_not_nil, hnan, if_neg (by decide), if_neg (by decide), if_neg hcount]
  refine putLoop_separate hs.key_not_nil ⟨i, ?_, kv, hi, by simpa using hdead⟩ hsep fun j hj => ?_
  · exact (@mem_probeOrder hashing _ _ key hpos).mpr hlt
  · exact (@mem_probeOrder hashing _ _ key hpos).mp hj

/-- A put without cells puts nothing. -/
theorem putCells_nil {replace : Bool} (h : st.cells = []) : structPutCells hashing st key value replace = st := by
  have hloop : ∀ (is : List Nat) (hash : BitVec 32) (dist : Nat),
      structPutLoop hashing replace is st key value hash dist = st := by
    intro is hash dist
    cases is with
    | nil => rfl
    | cons i is => simp only [structPutLoop, h, List.getElem?_nil]
  unfold structPutCells
  split
  · rfl
  · split
    · rfl
    · split
      · rfl
      · exact hloop _ _ _

/-- The puts one after the other, in a block of cells. -/
def putAllCells (hashing : Hashing) (st : StructBuilder) (kvs : List JanetKV) : StructBuilder :=
  kvs.foldl (fun st kv => structPutCells hashing st kv.key kv.value true) st

/-- With cells all puts stay in the block. -/
theorem structPutAll_eq : ∀ {kvs : List JanetKV} {st : StructBuilder}, 0 < st.cells.length →
    structPutAll hashing st kvs = some (putAllCells hashing st kvs)
  | [], _, _ => rfl
  | kv :: kvs, st, h => by
    have hcells := (@steps_putCells hashing st kv.key kv.value true).cells
    have hrest := @structPutAll_eq kvs (structPutCells hashing st kv.key kv.value true) (by omega)
    rw [structPutAll, List.foldlM_cons, structPut_eq h]
    exact hrest

/-- Ending a struct of fewer than `2 ^ 30` entries stays in the block. -/
theorem structEnd_isSome {proto : Option Nat} (hlo : 0 ≤ st.count) (hhi : st.count < 2 ^ 30) :
    ∃ s, janetStructEnd hashing st proto = some s := by
  rw [janetStructEnd]
  split
  · have hcount : BitVec.ofInt 32 st.count = BitVec.ofNat 32 st.count.toNat := by
      rw [← BitVec.ofInt_natCast, Int.toNat_of_nonneg hlo]
    have hroom := (@begin_capacity st.count.toNat (by omega)).2.2.1
    rw [hcount, structPutAll_eq (by omega)]
    exact ⟨_, rfl⟩
  · exact ⟨_, rfl⟩

/-- The puts that stayed in the block. -/
theorem structPutAll_returns : ∀ {kvs : List JanetKV} {st st' : StructBuilder},
    structPutAll hashing st kvs = some st' → st' = putAllCells hashing st kvs
  | [], _, _, h => (Option.some.inj h).symm
  | kv :: kvs, st, st', h => by
    obtain ⟨st₁, hput, hrest⟩ := Option.bind_eq_some_iff.mp h
    obtain rfl := structPut_returns hput
    exact @structPutAll_returns kvs (structPutCells hashing st kv.key kv.value true) st' hrest

end SwiftJanet
