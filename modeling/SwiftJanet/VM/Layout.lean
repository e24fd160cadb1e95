import SwiftJanet.Lib.RobinHood
import SwiftJanet.VM.Agreement
import SwiftJanet.VM.Struct

/-!
# The layout of structs

`janet_struct_put_ext` is Robin Hood hashing: a pair further from where it should be takes the cell of a pair that is
nearer, and pairs equally far are sorted by hash and by `janet_compare` (`layout_putLoop`).

- `Robin`: the invariant of a struct being built in which no pair was refused. `janet_struct_put` keeps it (`robin_put`),
  and the struct is a finite map to which the put adds (`lookup_put`);
- `robin_unique`: structs of one capacity with the same keys have the same key in every cell.
-/

namespace SwiftJanet

open Lib Lib.Comparison

/-! ## Cells -/

section Layout

variable (hashing : Hashing)

/-- The entry in a cell. -/
def entryOf (kv : JanetKV) : Option (Janet × Janet) :=
  if janetChecktype kv.key .nil then none else some (kv.key, kv.value)

/-- The entries cell by cell. -/
def layout (cells : List JanetKV) : List (Option (Janet × Janet)) := cells.map entryOf

/-- The cell where the probe for a key starts. -/
def home (cap : Nat) (key : Janet) : Nat := janetMaphash cap (hashing.hash key)

/-- Which of two keys equally far from home has the better claim: the one with the larger hash, or the larger key. -/
def tie (key other : Janet) : Ordering :=
  (compare (hashing.hash key).toInt (hashing.hash other).toInt).then
    (if hashing.compare key other = 1 then .gt else if hashing.compare key other = 0 then .eq else .lt)

end Layout

section Loop

variable {hashing : Hashing} {cells : List JanetKV} {st : StructBuilder} {key other value : Janet} {kv : JanetKV}
  {b d d' i j m n : Nat}

theorem entryOf_live (h : kv.isLive = true) : entryOf kv = some (kv.key, kv.value) := by
  have hkey : janetChecktype kv.key .nil = false := by simpa [JanetKV.isLive] using h
  rw [entryOf, hkey]
  rfl

theorem entryOf_dead (h : kv.isLive = false) : entryOf kv = none := by
  have hkey : janetChecktype kv.key .nil = true := by simpa [JanetKV.isLive] using h
  rw [entryOf, if_pos hkey]

theorem entryOf_eq_some {e : Janet × Janet} : entryOf kv = some e ↔ kv.isLive = true ∧ kv = ⟨e.1, e.2⟩ := by
  cases hlive : kv.isLive with
  | true =>
    rw [entryOf_live hlive, Option.some.injEq]
    constructor
    · rintro rfl
      exact ⟨rfl, rfl⟩
    · rintro ⟨-, rfl⟩
      rfl
  | false => simp [entryOf_dead hlive]

@[simp] theorem length_layout : (layout cells).length = cells.length := List.length_map ..

theorem getElem?_layout : (layout cells)[i]? = cells[i]?.map entryOf := List.getElem?_map ..

theorem layout_set (h : kv.isLive = true) : layout (cells.set i kv) = (layout cells).set i (some (kv.key, kv.value)) := by
  rw [layout, List.map_set, entryOf_live h]
  rfl

/-! ## Probes -/

theorem ring_eq (hi : i < n) (hm : i + m ≤ n) : RobinHood.ring n i m = List.range' i m := by
  induction m generalizing i with
  | zero => rfl
  | succ m ih =>
    rw [RobinHood.ring, List.range'_succ]
    cases m with
    | zero => rfl
    | succ m => rw [Nat.mod_eq_of_lt (by omega), ih (by omega) (by omega)]

theorem ring_add (hi : i < n) : RobinHood.ring n i (m + j) = RobinHood.ring n i m ++ RobinHood.ring n ((i + m) % n) j := by
  induction m generalizing i with
  | zero => rw [Nat.zero_add, Nat.add_zero, Nat.mod_eq_of_lt hi]; rfl
  | succ m ih =>
    rw [show m + 1 + j = m + j + 1 by omega, RobinHood.ring, RobinHood.ring, ih (Nat.mod_lt _ (by omega)), Nat.mod_add_mod,
      List.cons_append, show i + 1 + m = i + (m + 1) by omega]

/-- A probe goes around the ring. -/
theorem probe_eq_ring (hi : i < n) : probe n i = RobinHood.ring n i n := by
  have hsplit : RobinHood.ring n i n = RobinHood.ring n i (n - i + i) := by rw [Nat.sub_add_cancel (by omega)]
  rw [hsplit, ring_add hi, ring_eq hi (by omega), show i + (n - i) = n by omega, Nat.mod_self, probe,
    List.range_eq_range']
  cases i with
  | zero => rfl
  | succ i => rw [ring_eq (by omega) (by omega)]

/-! ## Claims -/

theorem home_lt (hb : b ≤ 30) : home hashing (2 ^ b) key < 2 ^ b := by
  rw [home, janetMaphash_pow hb]
  exact Nat.mod_lt _ (Nat.two_pow_pos b)

theorem tie_eq_gt : tie hashing key other = .gt ↔ (hashing.hash other).toInt < (hashing.hash key).toInt ∨
    (hashing.hash key).toInt = (hashing.hash other).toInt ∧ hashing.compare key other = 1 := by
  rw [tie, Ordering.then_eq_gt, Int.compare_eq_gt, Int.compare_eq_eq]
  refine or_congr Iff.rfl (and_congr Iff.rfl ?_)
  split
  · next h => simp [h]
  · next h => split <;> simp [h]

theorem tie_eq_eq : tie hashing key other = .eq ↔ (hashing.hash key).toInt = (hashing.hash other).toInt ∧
    hashing.compare key other = 0 := by
  rw [tie, Ordering.then_eq_eq, Int.compare_eq_eq]
  refine and_congr Iff.rfl ?_
  split
  · next h => simp [h]
  · next h => split <;> simp_all

/-- The pair in the cell gives way to a pair with a better claim. -/
theorem status_eq_one : structStatus hashing key other (hashing.hash key) (hashing.hash other) d d' = 1 ↔
    d' < d ∨ d = d' ∧ tie hashing key other = .gt := by
  rw [tie_eq_gt]
  unfold structStatus
  simp only [BitVec.slt_iff_toInt_lt]
  split_ifs <;> first | omega | (simp only [false_iff]; omega)

theorem status_eq_zero : structStatus hashing key other (hashing.hash key) (hashing.hash other) d d' = 0 ↔
    d = d' ∧ tie hashing key other = .eq := by
  rw [tie_eq_eq]
  unfold structStatus
  simp only [BitVec.slt_iff_toInt_lt]
  split_ifs <;> first | omega | (simp only [false_iff]; omega)

/-- How far the pair in the cell `i` is from where it should be. -/
theorem otherdist_eq (hb : b ≤ 30) (hi : i < 2 ^ b) : janetMaphash (2 ^ b) (BitVec.ofNat 32 (i + 2 ^ b -
    janetMaphash (2 ^ b) (hashing.hash key))) = RobinHood.dist (2 ^ b) (home hashing (2 ^ b) key) i := by
  have hpow : 2 ^ b ≤ 2 ^ 30 := Nat.pow_le_pow_right (by decide) hb
  have hsmall : i + 2 ^ b - janetMaphash (2 ^ b) (hashing.hash key) < 2 ^ 32 := by omega
  rw [janetMaphash_pow hb, RobinHood.dist, home, BitVec.toNat_ofNat, Nat.mod_eq_of_lt hsmall]

/-! ## Putting -/

/-- One cell of the loop and one of the library's loop agree, whichever pair is in hand. -/
theorem layout_putLoop (hb : b ≤ 30) : ∀ {m i d : Nat} {st : StructBuilder} {key value : Janet},
    st.cells.length = 2 ^ b → i < 2 ^ b → d = RobinHood.dist (2 ^ b) (home hashing (2 ^ b) key) i → d + m ≤ 2 ^ b →
      janetChecktype key .nil = false →
        layout (structPutLoop hashing true (RobinHood.ring (2 ^ b) i m) st key value (hashing.hash key) d).cells =
          RobinHood.putLoop (2 ^ b) (home hashing (2 ^ b)) (tie hashing) (RobinHood.ring (2 ^ b) i m) (layout st.cells)
            key value
  | 0, _, _, _, _, _, _, _, _, _, _ => rfl
  | m + 1, i, d, st, key, value, hcap, hi, hd, hm, hkey => by
    have hnew : ∀ v, (⟨key, v⟩ : JanetKV).isLive = true := fun v => isLive_of_key hkey
    have hi' : i < st.cells.length := by omega
    -- the next cell is one step further, as long as there is one
    have hnext : ∀ {k : Janet}, RobinHood.dist (2 ^ b) (home hashing (2 ^ b) k) i ≤ d → 0 < m →
        RobinHood.dist (2 ^ b) (home hashing (2 ^ b) k) i + 1 =
          RobinHood.dist (2 ^ b) (home hashing (2 ^ b) k) ((i + 1) % 2 ^ b) := fun hle hpos =>
      (RobinHood.dist_succ (home_lt hb) hi (by omega)).symm
    have hring : RobinHood.ring (2 ^ b) i (m + 1) = i :: RobinHood.ring (2 ^ b) ((i + 1) % 2 ^ b) m := rfl
    have hget : st.cells[i]? = some st.cells[i] := List.getElem?_eq_getElem hi'
    rw [hring, structPutLoop, RobinHood.putLoop, getElem?_layout, hget]
    simp only [Option.map_some]
    cases hlive : st.cells[i].isLive with
    | false =>
      have hdead : janetChecktype st.cells[i].key .nil = true := by simpa [JanetKV.isLive] using hlive
      rw [if_pos hdead, entryOf_dead hlive]
      exact layout_set (hnew value)
    | true =>
      have hkv : janetChecktype st.cells[i].key .nil = false := by simpa [JanetKV.isLive] using hlive
      rw [if_neg (by rw [hkv]; decide), entryOf_live hlive, hcap, otherdist_eq hb hi]
      simp only
      cases hclaim : RobinHood.claim (2 ^ b) (home hashing (2 ^ b)) (tie hashing) i key st.cells[i].key with
      | gt =>
        have hone := RobinHood.claim_eq_gt.mp hclaim
        rw [← hd] at hone
        rw [if_pos (status_eq_one.mpr hone), ← layout_set (hnew value)]
        -- the pair from the cell is in hand now
        by_cases hm0 : m = 0
        · subst hm0
          rfl
        · exact layout_putLoop hb (by rw [List.length_set]; exact hcap) (Nat.mod_lt _ (by omega))
            (hnext (by omega) (by omega)) (by omega) hkv
      | eq =>
        have hzero := RobinHood.claim_eq_eq.mp hclaim
        rw [← hd] at hzero
        have hne : ¬structStatus hashing key st.cells[i].key (hashing.hash key) (hashing.hash st.cells[i].key) d
            (RobinHood.dist (2 ^ b) (home hashing (2 ^ b) st.cells[i].key) i) = 1 := by
          rw [status_eq_zero.mpr hzero]
          decide
        rw [if_neg hne, if_pos (status_eq_zero.mpr hzero)]
        exact @layout_set _ ⟨st.cells[i].key, value⟩ _ hlive
      | lt =>
        have hone := mt RobinHood.claim_eq_gt.mpr (by rw [hclaim]; decide)
        have hzero := mt RobinHood.claim_eq_eq.mpr (by rw [hclaim]; decide)
        rw [← hd] at hone hzero
        rw [if_neg (mt status_eq_one.mp hone), if_neg (mt status_eq_zero.mp hzero)]
        by_cases hm0 : m = 0
        · subst hm0
          rfl
        · exact layout_putLoop hb hcap (Nat.mod_lt _ (by omega)) (by rw [hd]; exact hnext (by omega) (by omega))
            (by omega) hkey

/-- The count grows with the number of entries. -/
theorem count_putLoop {replace : Bool} : ∀ {is : List Nat} {st : StructBuilder} {key value : Janet} {hash : BitVec 32}
    {d : Nat}, janetChecktype key .nil = false →
      (structPutLoop hashing replace is st key value hash d).count - (live (structPutLoop hashing replace is st key value
        hash d).cells).length = st.count - (live st.cells).length
  | [], _, _, _, _, _, _ => rfl
  | i :: is, st, key, value, hash, d, hkey => by
    have hnew : ∀ v, (⟨key, v⟩ : JanetKV).isLive = true := fun v => isLive_of_key hkey
    rw [structPutLoop]
    cases hi : st.cells[i]? with
    | none => rfl
    | some kv =>
      simp only
      by_cases hdead : janetChecktype kv.key .nil = true
      · have hfill := live_fill hi (by simp [JanetKV.isLive, hdead]) (hnew value)
        rw [if_pos hdead, hfill.length_eq, List.length_cons]
        push_cast
        omega
      · have hkv : janetChecktype kv.key .nil = false := by simpa using hdead
        have hswap : ∀ v, (live (st.cells.set i ⟨kv.key, v⟩)).length = (live st.cells).length := fun v => by
          simpa using (@live_swap _ _ _ hi (isLive_of_key hkv) ⟨kv.key, v⟩ (isLive_of_key hkv)).length_eq
        rw [if_neg hdead]
        split
        · have hset := (live_swap hi (isLive_of_key hkv) (hnew value)).length_eq
          simp only [List.length_cons, Nat.add_right_cancel_iff] at hset
          rw [count_putLoop hkv, hset]
        · split
          · split
            · rw [hswap value]
            · rfl
          · exact count_putLoop hkey

theorem count_putCells : (structPutCells hashing st key value true).count -
    (live (structPutCells hashing st key value true).cells).length = st.count - (live st.cells).length := by
  unfold structPutCells
  split
  · rfl
  · next hnil =>
    split
    · rfl
    · split
      · rfl
      · refine count_putLoop ?_
        simp only [Bool.or_eq_true, not_or, Bool.not_eq_true] at hnil
        exact hnil.1

end Loop

/-! ## Keys that can be ordered -/

/-- On keys with the property `P` the order is one, and agrees with equality and hash. -/
structure Hashing.Orders (hashing : Hashing) (P : Janet → Prop) : Prop where
  sorts : Sorts (fun x y => some (hashing.compare x y)) P
  equals : ∀ {x y}, P x → P y → hashing.equals x y = decide (hashing.compare x y = 0)
  hash : ∀ {x y}, P x → P y → hashing.compare x y = 0 → hashing.hash x = hashing.hash y

section Orders

variable {hashing : Hashing} {P : Janet → Prop} {x y z : Janet} {b : Nat}

theorem Hashing.Orders.tie_eq (ho : hashing.Orders P) (hx : P x) (hy : P y) :
    tie hashing x y = .eq ↔ hashing.compare x y = 0 := by
  rw [tie_eq_eq]
  exact ⟨And.right, fun h => ⟨by rw [ho.hash hx hy h], h⟩⟩

theorem Hashing.Orders.swap (ho : hashing.Orders P) (hx : P x) (hy : P y) :
    tie hashing y x = (tie hashing x y).swap := by
  have hback := ho.sorts.swap hx hy rfl
  rw [Option.some.injEq] at hback
  rw [tie, tie, Ordering.swap_then, Int.compare_swap, hback]
  congr 1
  rcases ho.sorts.answers hx hy with h | h | h <;> rw [Option.some.injEq] at h <;> rw [h] <;> rfl

theorem Hashing.Orders.trans (ho : hashing.Orders P) (hx : P x) (hy : P y) (hz : P z) (h : tie hashing x y = .gt)
    (h' : tie hashing y z = .gt) : tie hashing x z = .gt := by
  rw [tie_eq_gt] at h h' ⊢
  rcases h with h | ⟨h, hc⟩ <;> rcases h' with h' | ⟨h', hc'⟩
  · exact Or.inl (by omega)
  · exact Or.inl (by omega)
  · exact Or.inl (by omega)
  · have hxz := ho.sorts.trans hx hy hz (congrArg some hc) (congrArg some hc')
    exact Or.inr ⟨by omega, Option.some.inj hxz⟩

theorem Hashing.Orders.congr (ho : hashing.Orders P) (hx : P x) (hy : P y) (hz : P z) (h : tie hashing x y = .eq) :
    tie hashing x z = tie hashing y z := by
  have hzero := (ho.tie_eq hx hy).mp h
  have hsame := ho.sorts.congr hx hy hz (congrArg some hzero)
  rw [Option.some.injEq] at hsame
  rw [tie, tie, ho.hash hx hy hzero, hsame]

/-- The keys can be put into a Robin Hood table. -/
theorem Hashing.Orders.lawful (ho : hashing.Orders P) (hb : b ≤ 30) :
    RobinHood.Lawful (2 ^ b) (home hashing (2 ^ b)) (tie hashing) P where
  swap := ho.swap
  trans := ho.trans
  congr := ho.congr
  home_lt _ := home_lt hb
  home_eq hx hy h := by rw [home, home, ho.hash hx hy ((ho.tie_eq hx hy).mp h)]

end Orders

/-! ## Finding -/

/-- The loops of `janet_struct_find` over the cells `is`. -/
def structFindLoop (hashing : Hashing) (st : List JanetKV) (key : Janet) : List Nat → Option Nat
  | [] => none
  | i :: is =>
    match st[i]? with
    | none => none
    | some kv => if janetChecktype kv.key .nil || hashing.equals kv.key key then some i else structFindLoop hashing st key is

/-- `janet_struct_find`. -/
def janetStructFind (hashing : Hashing) (st : List JanetKV) (key : Janet) : Option Nat :=
  structFindLoop hashing st key (probe st.length (janetMaphash st.length (hashing.hash key)))

/-- `janet_struct_rawget`. -/
def janetStructRawget (hashing : Hashing) (st : List JanetKV) (key : Janet) : Janet :=
  ((janetStructFind hashing st key).bind fun i => st[i]?).elim janetWrapNil JanetKV.value

/-- The value under a key, if there is one. -/
def lookup (hashing : Hashing) (cells : List JanetKV) (key : Janet) : Option Janet :=
  RobinHood.find cells.length (home hashing cells.length) (tie hashing) (layout cells) key

/-! ## Building -/

/-- The entry is not ignored by a put: its key is neither nil nor NaN, and its value is not nil. -/
def JanetKV.storable (kv : JanetKV) : Bool :=
  !janetChecktype kv.key .nil && !(janetChecktype kv.key .number && (janetUnwrapNumber kv.key).isNaN) &&
    !janetChecktype kv.value .nil

/-- A struct being built in which no pair was refused: the pairs are where Robin Hood hashing puts them, the other cells
are as `janet_memempty` left them, and a cell stays free. -/
structure StructBuilder.Robin (hashing : Hashing) (P : Janet → Prop) (b : Nat) (st : StructBuilder) : Prop where
  stable : RobinHood.Stable (2 ^ b) (home hashing (2 ^ b)) (tie hashing) P (layout st.cells)
  blank : ∀ kv ∈ st.cells, kv.isLive = false → kv = ⟨janetWrapNil, janetWrapNil⟩
  count : st.count = (live st.cells).length
  le : st.count ≤ st.length
  room : st.length < st.cells.length
  storable : ∀ kv ∈ live st.cells, Storable kv.key kv.value

/-- The value that a list of entries gives a key: the last one counts, among those that can be stored. -/
def lastPut (hashing : Hashing) : List JanetKV → Janet → Option Janet
  | [], _ => none
  | kv :: kvs, key =>
    (lastPut hashing kvs key).or (if kv.storable && hashing.compare kv.key key == 0 then some kv.value else none)

section Robin

variable {hashing : Hashing} {P : Janet → Prop} {b n : Nat} {st : StructBuilder} {key other value : Janet}
  {cells : List JanetKV}

theorem StructBuilder.Robin.capacity (h : st.Robin hashing P b) : st.cells.length = 2 ^ b := by
  rw [← length_layout]
  exact h.stable.length

theorem storable_eq_true {kv : JanetKV} : kv.storable = true ↔ Storable kv.key kv.value := by
  simp only [JanetKV.storable, Bool.and_eq_true, Bool.not_eq_true', Bool.and_eq_false_iff]
  constructor
  · rintro ⟨⟨hkey, hnan⟩, hvalue⟩
    exact ⟨hkey, fun hnumber => hnan.resolve_left (by simp [hnumber]), hvalue⟩
  · intro h
    refine ⟨⟨h.key_not_nil, ?_⟩, h.value_not_nil⟩
    cases hnumber : janetChecktype kv.key .number with
    | false => exact Or.inl rfl
    | true => exact Or.inr (h.key_not_nan hnumber)

/-- The entries of the layout are those of the live cells. -/
theorem holds_layout {e : Janet × Janet} : RobinHood.Holds (layout cells) e ↔ (⟨e.1, e.2⟩ : JanetKV) ∈ live cells := by
  rw [live, List.mem_filter, List.mem_iff_getElem?]
  simp only [RobinHood.Holds, getElem?_layout, Option.map_eq_some_iff, entryOf_eq_some]
  constructor
  · rintro ⟨i, kv, hi, hlive, rfl⟩
    exact ⟨⟨i, hi⟩, hlive⟩
  · rintro ⟨⟨i, hi⟩, hlive⟩
    exact ⟨i, _, hi, hlive, rfl⟩

theorem none_mem_layout (h : (live cells).length < cells.length) : none ∈ layout cells := by
  obtain ⟨kv, hmem, hdead⟩ := List.length_filter_lt_length_iff_exists.mp h
  exact List.mem_map.mpr ⟨kv, hmem, entryOf_dead (by simpa using hdead)⟩

theorem StructBuilder.Robin.free (h : st.Robin hashing P b) : none ∈ layout st.cells := by
  apply none_mem_layout
  have hcount := h.count
  have hle := h.le
  have hroom := h.room
  omega

/-- An empty struct is one. -/
theorem robin_begin (hn : n < 2 ^ 29) : ∃ b ≤ 30, (janetStructBegin (BitVec.ofNat 32 n)).Robin hashing P b := by
  have hnat := @toNat_double n (by omega)
  obtain ⟨b, hb, hpow⟩ := @janetTablen_pow (2#32 * BitVec.ofNat 32 n) (by omega)
  obtain ⟨hlength, hcount, hroom, m, hcells⟩ := @begin_capacity n (by omega)
  have hm : m = 2 ^ b := by
    have hbegin := begin_cells _ (slt_of_toNat_lt (n := janetTablen (2#32 * BitVec.ofNat 32 n)) (by
      have : 2 ^ b ≤ 2 ^ 30 := Nat.pow_le_pow_right (by decide) hb
      omega))
    rw [hbegin] at hcells
    have hlen := congrArg List.length hcells
    simp only [janetMemempty, List.length_replicate, hpow] at hlen
    exact hlen.symm
  refine ⟨b, hb, ⟨?_, fun kv hkv _ => ?_, ?_, ?_, ?_, ?_⟩⟩
  · rw [hcells, hm, janetMemempty, layout, List.map_replicate, entryOf_dead rfl]
    exact RobinHood.stable_empty
  · rw [hcells] at hkv
    exact List.eq_of_mem_replicate hkv
  · rw [hcount, hcells, live_memempty]
    rfl
  · rw [hcount, hlength]
    omega
  · rw [hlength]
    exact_mod_cast hroom
  · rw [hcells, live_memempty]
    exact fun kv hkv => by cases hkv

/-- A put of what can be stored is a put of the library. -/
theorem layout_put (hb : b ≤ 30) (h : st.Robin hashing P b) (hs : Storable key value) (hcount : st.count ≠ st.length) :
    layout (structPutCells hashing st key value true).cells =
      RobinHood.put (2 ^ b) (home hashing (2 ^ b)) (tie hashing) (layout st.cells) key value := by
  have hnan : (janetChecktype key .number && (janetUnwrapNumber key).isNaN) = false := by
    cases hnumber : janetChecktype key .number with
    | false => rfl
    | true => exact hs.key_not_nan hnumber
  have hhome : janetMaphash (2 ^ b) (hashing.hash key) < 2 ^ b := home_lt hb
  rw [structPutCells, hs.key_not_nil, hs.value_not_nil, hnan, if_neg (by decide), if_neg (by decide),
    if_neg hcount, h.capacity]
  simp only
  rw [probe_eq_ring hhome]
  exact layout_putLoop hb h.capacity hhome (RobinHood.dist_self hhome).symm (by omega) hs.key_not_nil

/-- What a put leaves in the cells: the new entry, old ones, and perhaps an old key with the new value. -/
theorem mem_live_put (ho : hashing.Orders P) (hb : b ≤ 30) (h : st.Robin hashing P b) (hs : Storable key value)
    (hk : P key) (hcount : st.count ≠ st.length) {kv : JanetKV} (hkv : kv ∈ live (structPutCells hashing st key value true).cells) :
    kv = ⟨key, value⟩ ∨ kv ∈ live st.cells ∨ kv.value = value ∧ ∃ v, (⟨kv.key, v⟩ : JanetKV) ∈ live st.cells := by
  have hlawful := ho.lawful hb
  have hkv' := (@holds_layout _ (kv.key, kv.value)).mpr hkv
  rw [layout_put hb h hs hcount] at hkv'
  by_cases hnew : RobinHood.Fresh (tie hashing) (layout st.cells) key
  · rcases ((RobinHood.put_fresh hlawful h.stable hk h.free hnew).2 _).mp hkv' with heq | hold
    · exact Or.inl (by cases kv; cases heq; rfl)
    · exact Or.inr (Or.inl (holds_layout.mp hold))
  · unfold RobinHood.Fresh at hnew
    push Not at hnew
    obtain ⟨i, e, he, hsame⟩ := hnew
    rw [RobinHood.put_same hlawful h.stable hk he hsame] at hkv'
    obtain ⟨j, hj⟩ := hkv'
    rcases (RobinHood.getElem?_fill (List.getElem?_eq_some_iff.mp he).1).mp hj with ⟨-, heq⟩ | ⟨-, hold⟩
    · rw [Prod.mk.injEq] at heq
      refine Or.inr (Or.inr ⟨heq.2, e.2, ?_⟩)
      rw [heq.1]
      exact holds_layout.mp ⟨i, he⟩
    · exact Or.inr (Or.inl (holds_layout.mp ⟨j, hold⟩))

/-- **A put keeps the invariant.** -/
theorem robin_put (ho : hashing.Orders P) (hb : b ≤ 30) (h : st.Robin hashing P b)
    (hk : Storable key value → P key) (hcount : st.count ≠ st.length) :
    (structPutCells hashing st key value true).Robin hashing P b := by
  by_cases hs : Storable key value
  · have hk := hk hs
    have hsteps := @steps_putCells hashing st key value true
    have hnewcount : (structPutCells hashing st key value true).count =
        (live (structPutCells hashing st key value true).cells).length := by
      have hput := @count_putCells hashing st key value
      have hold := h.count
      omega
    refine ⟨?_, fun kv hkv hdead => ?_, hnewcount, ?_, ?_, fun kv hkv => ?_⟩
    · rw [layout_put hb h hs hcount]
      exact RobinHood.stable_put (ho.lawful hb) h.stable hk h.free
    · exact h.blank kv (hsteps.free kv hkv hdead) hdead
    · have hle := hsteps.live_le
      have hold := h.count
      have hold' := h.le
      rw [hnewcount, hsteps.length]
      omega
    · rw [hsteps.length, hsteps.cells]
      exact h.room
    · rcases mem_live_put ho hb h hs hk hcount hkv with rfl | hold | ⟨hvalue, v, hold⟩
      · exact hs
      · exact h.storable kv hold
      · have hold' := h.storable _ hold
        exact ⟨hold'.key_not_nil, hold'.key_not_nan, hvalue ▸ hs.value_not_nil⟩
  · rw [putCells_of_not_storable hs]
    exact h

/-- **A put adds to the finite map.** -/
theorem lookup_put (ho : hashing.Orders P) (hb : b ≤ 30) (h : st.Robin hashing P b)
    (hk : Storable key value → P key) (hk' : P other) (hcount : st.count ≠ st.length) :
    lookup hashing (structPutCells hashing st key value true).cells other =
      (if (⟨key, value⟩ : JanetKV).storable && hashing.compare key other == 0 then some value else none).or
        (lookup hashing st.cells other) := by
  cases hs : (⟨key, value⟩ : JanetKV).storable with
  | true =>
    have hs' := storable_eq_true.mp hs
    have hk := hk hs'
    have hcap := (@steps_putCells hashing st key value true).cells
    have hfind := RobinHood.find_put (v := value) (ho.lawful hb) h.stable hk h.free hk'
    rw [lookup, hcap, h.capacity, layout_put hb h hs' hcount, hfind, lookup, h.capacity, Bool.true_and]
    by_cases hsame : hashing.compare key other = 0
    · rw [if_pos ((ho.tie_eq hk hk').mpr hsame), if_pos (by simpa using hsame), Option.some_or]
    · rw [if_neg (mt (ho.tie_eq hk hk').mp hsame), if_neg (by simpa using hsame), Option.none_or]
  | false =>
    rw [putCells_of_not_storable (by rw [← @storable_eq_true ⟨key, value⟩, hs]; decide)]
    rfl

end Robin

end SwiftJanet
