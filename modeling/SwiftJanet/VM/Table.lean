import SwiftJanet.Lib.Probing
import SwiftJanet.VM.Dictionary

/-!
# Tables as hash tables

The cells of a table are the slots of a hash table with open addressing (`slotOf`), and `janet_dict_find` is its search
(`dictFindLoop_eq`, `janetDictFind_eq`, `rehashInto_eq`).

- `janetTablen` gives a power of two (`janetTablen_pow`) that is large enough (`janetTablen_cases`), or `INT32_MAX`;
- `JanetTable.Ok`: the counters of a table promise enough free cells. Whatever the hash and the equality of keys,
  putting keeps this and finds a cell (`ok_put`), as long as the table is not filled to the limit;
- a key that is told apart from all others gets a cell of its own (`put_apart`).
-/

namespace SwiftJanet

open Lib Lib.Probing

/-! ## Capacities -/

section Tablen

variable {n : BitVec 32} {b j k : Nat}

/-- `janet_tablen` ors the bits of `n` into all lower places. -/
def smear (n : BitVec 32) : BitVec 32 :=
  let n := n ||| n.sshiftRight 1
  let n := n ||| n.sshiftRight 2
  let n := n ||| n.sshiftRight 4
  let n := n ||| n.sshiftRight 8
  n ||| n.sshiftRight 16

theorem smear_step_le (n : BitVec 32) (k : Nat) : n.toNat ≤ (n ||| n.sshiftRight k).toNat := by
  rw [BitVec.toNat_or]
  exact Nat.left_le_or

theorem smear_step_lt {n : BitVec 32} (hb : b ≤ 31) (h : n.toNat < 2 ^ b) (k : Nat) :
    (n ||| n.sshiftRight k).toNat < 2 ^ b := by
  have hmsb : n.msb = false := by
    rw [BitVec.msb_eq_false_iff_two_mul_lt]
    have : 2 ^ b ≤ 2 ^ 31 := Nat.pow_le_pow_right (by decide) hb
    omega
  rw [BitVec.toNat_or, BitVec.sshiftRight_eq_of_msb_false hmsb, BitVec.toNat_ushiftRight]
  refine Nat.or_lt_two_pow h (Nat.lt_of_le_of_lt ?_ h)
  exact Nat.shiftRight_le _ _

theorem le_smear (n : BitVec 32) : n.toNat ≤ (smear n).toNat :=
  Nat.le_trans (smear_step_le n 1) <| Nat.le_trans (smear_step_le _ 2) <| Nat.le_trans (smear_step_le _ 4) <|
    Nat.le_trans (smear_step_le _ 8) (smear_step_le _ 16)

theorem smear_lt (hb : b ≤ 31) (h : n.toNat < 2 ^ b) : (smear n).toNat < 2 ^ b :=
  smear_step_lt hb (smear_step_lt hb (smear_step_lt hb (smear_step_lt hb (smear_step_lt hb h 1) 2) 4) 8) 16

/-- The `j` places from `b` downwards are set. -/
def Smeared (n : BitVec 32) (b j : Nat) : Prop :=
  n.msb = false ∧ ∀ i, b < i + j → i ≤ b → n.getLsbD i = true

theorem Smeared.step (h : Smeared n b j) (hk : k ≤ j) : Smeared (n ||| n.sshiftRight k) b (j + k) := by
  obtain ⟨hmsb, hbits⟩ := h
  constructor
  · simp [BitVec.msb_or, BitVec.msb_sshiftRight, hmsb]
  · intro i hi hib
    rw [BitVec.getLsbD_or, BitVec.sshiftRight_eq_of_msb_false hmsb, BitVec.getLsbD_ushiftRight, Bool.or_eq_true]
    by_cases h : b < i + j
    · exact Or.inl (hbits i h hib)
    · exact Or.inr (hbits (k + i) (by omega) (by omega))

/-- All places of a number up to its highest one are set. -/
theorem smear_eq (hlo : 2 ^ b ≤ n.toNat) (hhi : n.toNat < 2 ^ (b + 1)) (hb : b < 31) : (smear n).toNat = 2 ^ (b + 1) - 1 := by
  have htop : Smeared n b 1 := by
    constructor
    · rw [BitVec.msb_eq_false_iff_two_mul_lt]
      have : 2 ^ (b + 1) ≤ 2 ^ 31 := Nat.pow_le_pow_right (by decide) hb
      omega
    · intro i hi hib
      obtain rfl : i = b := by omega
      rw [BitVec.getLsbD, Nat.testBit_eq_decide_div_mod_eq, decide_eq_true_eq]
      have : n.toNat / 2 ^ i = 1 := Nat.div_eq_of_lt_le (by omega) (by rw [pow_succ] at hhi; omega)
      rw [this]
  have hall : Smeared (smear n) b 32 :=
    (((((htop.step (by decide)).step (by decide)).step (by decide)).step (by decide)).step (by decide))
  have hlt : (smear n).toNat < 2 ^ (b + 1) := smear_lt hb hhi
  apply Nat.eq_of_testBit_eq
  intro i
  rw [Nat.testBit_two_pow_sub_one]
  by_cases hi : i < b + 1
  · rw [decide_eq_true hi]
    exact hall.2 i (by omega) (by omega)
  · rw [decide_eq_false hi]
    exact Nat.testBit_lt_two_pow (Nat.lt_of_lt_of_le hlt (Nat.pow_le_pow_right (by decide) (by omega)))

/-- A number from `2 ^ 30` on fills all places. -/
theorem smear_large (h : 2 ^ 30 ≤ n.toNat) (hn : n.toNat < 2 ^ 31) : smear n = 0x7FFFFFFF#32 :=
  BitVec.eq_of_toNat_eq (smear_eq h hn (by decide))

theorem janetTablen_eq (hn : n.toNat < 2 ^ 31) :
    janetTablen n = if smear n = 0x7FFFFFFF#32 then 0x7FFFFFFF#32 else smear n + 1#32 := by
  have hslt : n.slt 0#32 = false := by
    rw [BitVec.slt_zero_eq_msb, BitVec.msb_eq_false_iff_two_mul_lt]
    omega
  rw [janetTablen, if_neg (by rw [hslt]; exact Bool.false_ne_true)]
  rfl

/-- The capacity for `n` is above `n`, unless it is `INT32_MAX`. -/
theorem janetTablen_cases (hn : n.toNat < 2 ^ 31) :
    (n.toNat < (janetTablen n).toNat ∧ (janetTablen n).toNat ≤ 2 ^ 30 ∧ n.toNat < 2 ^ 30) ∨
      ((janetTablen n).toNat = 2 ^ 31 - 1 ∧ 2 ^ 30 ≤ n.toNat) := by
  rw [janetTablen_eq hn]
  by_cases hlarge : 2 ^ 30 ≤ n.toNat
  · right
    rw [if_pos (smear_large hlarge hn)]
    exact ⟨rfl, hlarge⟩
  · left
    have hle := le_smear n
    have hlt : (smear n).toNat < 2 ^ 30 := smear_lt (by decide) (by omega)
    have hne : smear n ≠ 0x7FFFFFFF#32 := by
      intro h
      rw [h] at hlt
      exact absurd hlt (by decide)
    rw [if_neg hne, BitVec.toNat_add]
    simp only [BitVec.toNat_ofNat]
    omega

/-- The capacity for fewer than `2 ^ 30` entries is a power of two. -/
theorem janetTablen_pow (hn : n.toNat < 2 ^ 30) : ∃ b ≤ 30, (janetTablen n).toNat = 2 ^ b := by
  rcases Nat.eq_zero_or_pos n.toNat with h0 | hpos
  · obtain rfl : n = 0#32 := BitVec.eq_of_toNat_eq h0
    exact ⟨0, by decide, by decide⟩
  · obtain ⟨b, hlo, hhi⟩ : ∃ b, 2 ^ b ≤ n.toNat ∧ n.toNat < 2 ^ (b + 1) :=
      ⟨n.toNat.log2, Nat.log2_self_le (by omega), Nat.lt_log2_self⟩
    have hb : b < 30 := (Nat.pow_lt_pow_iff_right (by decide)).mp (Nat.lt_of_le_of_lt hlo hn)
    have hsmear := smear_eq hlo hhi (by omega)
    have hpow : 2 ^ (b + 1) ≤ 2 ^ 30 := Nat.pow_le_pow_right (by decide) hb
    have hne : smear n ≠ 0x7FFFFFFF#32 := by
      intro h
      rw [h] at hsmear
      simp only [BitVec.toNat_ofNat] at hsmear
      omega
    refine ⟨b + 1, hb, ?_⟩
    rw [janetTablen_eq (by omega), if_neg hne, BitVec.toNat_add, hsmear]
    simp only [BitVec.toNat_ofNat]
    have := Nat.two_pow_pos (b + 1)
    omega

theorem janetMaphash_pow (hb : b ≤ 30) (h : BitVec 32) : janetMaphash (2 ^ b) h = h.toNat % 2 ^ b := by
  have hpow : 2 ^ b ≤ 2 ^ 30 := Nat.pow_le_pow_right (by decide) hb
  have hpos := Nat.two_pow_pos b
  have hmask : (BitVec.ofNat 32 (2 ^ b) - 1#32).toNat = 2 ^ b - 1 := by
    rw [BitVec.toNat_sub, BitVec.toNat_ofNat]
    simp only [BitVec.toNat_ofNat]
    omega
  rw [janetMaphash, BitVec.toNat_and, hmask, Nat.and_two_pow_sub_one_eq_mod]

/-- A length below `2 ^ 31` is counted as it is. -/
theorem toNat_count {k : Nat} (hk : k < 2 ^ 31) : (BitVec.ofNat 32 k).toNat = k := by
  rw [BitVec.toNat_ofNat]
  omega

end Tablen

/-! ## Cells as slots -/

section Slots

variable {hashing : Hashing} {cells new : List JanetKV} {key : Janet} {kv : JanetKV}

/-- A cell as a slot. -/
def slotOf (kv : JanetKV) : Slot Janet Janet :=
  if janetChecktype kv.key .nil then if janetChecktype kv.value .nil then .free else .gone
  else .full kv.key kv.value

/-- The slots of a block of cells. -/
def slots (cells : List JanetKV) : List (Slot Janet Janet) := cells.map slotOf

/-- The cells in the order in which a key is looked for. -/
def probeOrder (hashing : Hashing) (cap : Nat) (key : Janet) : List Nat :=
  probe cap (janetMaphash cap (hashing.hash key))

theorem slotOf_live (h : kv.isLive = true) : slotOf kv = .full kv.key kv.value := by
  have hkey : janetChecktype kv.key .nil = false := by simpa [JanetKV.isLive] using h
  rw [slotOf, hkey]
  rfl

theorem isFull_slotOf : (slotOf kv).isFull = kv.isLive := by
  unfold slotOf JanetKV.isLive
  split
  · next h => split <;> simp [h, Slot.isFull]
  · next h => simp [h, Slot.isFull]

theorem slotOf_eq_full {v : Janet} (h : slotOf kv = .full key v) : kv = ⟨key, v⟩ ∧ kv.isLive = true := by
  have hlive : kv.isLive = true := by rw [← isFull_slotOf, h]; rfl
  rw [slotOf_live hlive] at h
  cases h
  exact ⟨rfl, hlive⟩

@[simp] theorem length_slots : (slots cells).length = cells.length := List.length_map ..

@[simp] theorem getElem?_slots (i : Nat) : (slots cells)[i]? = cells[i]?.map slotOf := List.getElem?_map ..

theorem slots_set (i : Nat) : slots (cells.set i kv) = (slots cells).set i (slotOf kv) := List.map_set ..

theorem fulls_slots : fulls (slots cells) = (live cells).map slotOf := by
  rw [fulls, slots, List.filter_map]
  congr 1
  exact List.filter_congr fun kv _ => isFull_slotOf

theorem full_mem_slots {v : Janet} : Slot.full key v ∈ slots cells ↔ (⟨key, v⟩ : JanetKV) ∈ live cells := by
  rw [slots, List.mem_map, live]
  simp only [List.mem_filter]
  constructor
  · rintro ⟨kv, hmem, h⟩
    obtain ⟨rfl, hlive⟩ := slotOf_eq_full h
    exact ⟨hmem, hlive⟩
  · rintro ⟨hmem, hlive⟩
    exact ⟨_, hmem, slotOf_live hlive⟩

theorem maphash_le {cap : Nat} (hash : BitVec 32) (hcap : 0 < cap) : janetMaphash cap hash < cap := by
  rw [janetMaphash, BitVec.toNat_and]
  refine Nat.lt_of_le_of_lt Nat.and_le_right ?_
  rw [BitVec.toNat_sub, BitVec.toNat_ofNat]
  simp only [BitVec.toNat_ofNat]
  omega

/-- A probe goes through all cells. -/
theorem mem_probeOrder {i n : Nat} {k : Janet} (hn : 0 < n) : i ∈ probeOrder hashing n k ↔ i < n := by
  have := maphash_le (hashing.hash k) hn
  simp only [probeOrder, probe, List.mem_append, List.mem_range'_1, List.mem_range]
  omega

/-- `janet_dict_find` is the search of a hash table. -/
theorem dictFindLoop_eq : ∀ (is : List Nat) (first : Option Nat),
    dictFindLoop hashing cells key is first = find hashing.equals (slots cells) key is first
  | [], _ => rfl
  | i :: is, first => by
    rw [dictFindLoop, find, getElem?_slots]
    cases hi : cells[i]? with
    | none => rfl
    | some kv =>
      simp only [Option.map_some, slotOf]
      by_cases hkey : janetChecktype kv.key .nil = true
      · by_cases hvalue : janetChecktype kv.value .nil = true
        · simp only [hkey, hvalue, if_true]
        · simp only [hkey, hvalue, if_true, Bool.false_eq_true, if_false]
          exact dictFindLoop_eq is _
      · simp only [hkey, Bool.false_eq_true, if_false]
        rw [dictFindLoop_eq is first]

theorem janetDictFind_eq : janetDictFind hashing cells key =
    find hashing.equals (slots cells) key (probeOrder hashing (slots cells).length key) none := by
  rw [janetDictFind, dictFindLoop_eq, length_slots]
  rfl

/-- A rehash puts all keys into a new table. -/
theorem rehashInto_eq : ∀ (old new : List JanetKV), (rehashInto hashing old new).map slots =
    putAll hashing.equals (probeOrder hashing) (slots old) (slots new)
  | [], new => rfl
  | kv :: old, new => by
    rw [rehashInto, slots, List.map_cons]
    by_cases hkey : janetChecktype kv.key .nil = true
    · have hdead : (slotOf kv).isFull = false := by rw [isFull_slotOf, JanetKV.isLive, hkey]; rfl
      rw [if_pos hkey, rehashInto_eq old new, putAll_of_not_full hdead]
      rfl
    · have hlive : kv.isLive = true := by simpa [JanetKV.isLive] using hkey
      rw [if_neg hkey, slotOf_live hlive, putAll, Probing.put, ← janetDictFind_eq]
      cases janetDictFind hashing new kv.key with
      | none => rfl
      | some i =>
        show (rehashInto hashing old (new.set i kv)).map slots = putAll _ _ (slots old) ((slots new).set i _)
        rw [rehashInto_eq old (new.set i kv), slots_set, slotOf_live hlive]

end Slots

/-! ## Counters -/

section Ok

variable {hashing : Hashing} {cells old new : List JanetKV} {t u : JanetTable} {key value : Janet} {kv : JanetKV}
  {i : Nat}

/-- The cell held an entry that was removed. -/
def JanetKV.isTomb (kv : JanetKV) : Bool := janetChecktype kv.key .nil && !janetChecktype kv.value .nil

def tombs (cells : List JanetKV) : List JanetKV := cells.filter JanetKV.isTomb

/-- The counters of a table promise free cells. They may count too much, by a tombstone once a rehash met equal keys. -/
structure JanetTable.Ok (t : JanetTable) : Prop where
  live : ((live t.cells).length : Int) ≤ t.count
  tombs : ((tombs t.cells).length : Int) ≤ t.deleted + 1
  load : (t.capacity : Int) ≤ 2 ^ 30 ∧ 2 * (t.count + t.deleted) ≤ t.capacity ∨ (t.capacity : Int) = 2 ^ 31 - 1

/-- How much of the table is used up. -/
def JanetTable.used (t : JanetTable) : Int := t.count + max t.deleted 0

theorem cells_setCell {c d : Int} : (t.setCell i kv c d).cells = t.cells.set i kv := by
  show (t.data.map (·.set i kv)).getD [] = (t.data.getD []).set i kv
  cases t.data <;> rfl

theorem capacity_cells : t.capacity = t.cells.length := t.capacity_eq

/-- What setting one element does to the number of elements with a property. -/
theorem length_filter_set {p : JanetKV → Bool} (hi : cells[i]? = some kv) {kv' : JanetKV} :
    ((cells.set i kv').filter p).length + (if p kv then 1 else 0) = (cells.filter p).length + if p kv' then 1 else 0 := by
  obtain ⟨hlt, rfl⟩ := List.getElem?_eq_some_iff.mp hi
  have hpos : p cells[i] = true → 0 < cells.countP p := fun h =>
    List.countP_pos_iff.mpr ⟨_, List.getElem_mem hlt, h⟩
  simp only [← List.countP_eq_length_filter, List.countP_set hlt]
  by_cases h : p cells[i] = true
  · have := hpos h
    simp only [h, if_true]
    omega
  · simp only [h, Bool.false_eq_true, if_false]
    omega

theorem length_live_set (hi : cells[i]? = some kv) {kv' : JanetKV} : (live (cells.set i kv')).length +
    (if kv.isLive then 1 else 0) = (live cells).length + if kv'.isLive then 1 else 0 :=
  length_filter_set hi

theorem length_tombs_set (hi : cells[i]? = some kv) {kv' : JanetKV} : (tombs (cells.set i kv')).length +
    (if kv.isTomb then 1 else 0) = (tombs cells).length + if kv'.isTomb then 1 else 0 :=
  length_filter_set hi

theorem isLive_of_key (h : janetChecktype key .nil = false) : (⟨key, value⟩ : JanetKV).isLive = true := by
  simp [JanetKV.isLive, h]

theorem isTomb_of_live (h : kv.isLive = true) : kv.isTomb = false := by
  have : janetChecktype kv.key .nil = false := by simpa [JanetKV.isLive] using h
  simp [JanetKV.isTomb, this]

/-- A boolean is not nil. -/
theorem not_nil_of_boolean {x : Janet} (h : janetChecktype x .boolean = true) : janetChecktype x .nil = false := by
  cases x with
  | box t p =>
    simp only [janetChecktype_box, beq_iff_eq] at h
    subst h
    rfl
  | number d =>
    unfold janetChecktype at h ⊢
    rw [if_neg (by decide), beq_iff_eq] at h
    rw [if_neg (by decide)]
    show (d.bits &&& 0xFFFF800000000000#64 == janetNanboxTag .nil) = false
    rw [h]
    rfl

theorem isTomb_of_boolean (hlive : kv.isLive = false) (h : janetChecktype kv.value .boolean = true) :
    kv.isTomb = true := by
  have hkey : janetChecktype kv.key .nil = true := by simpa [JanetKV.isLive] using hlive
  simp [JanetKV.isTomb, hkey, not_nil_of_boolean h]

/-- What a search gives is the index of a cell. -/
theorem find_cell_of_some (h : janetDictFind hashing cells key = some i) : ∃ kv, cells[i]? = some kv := by
  rw [janetDictFind_eq] at h
  have hlt := find_lt (fun j h => by cases h) h
  rw [length_slots] at hlt
  exact ⟨_, List.getElem?_eq_getElem hlt⟩

/-- A search gives a cell as long as not all of them are live. -/
theorem find_cell (hroom : (live cells).length < cells.length) :
    ∃ i kv, janetDictFind hashing cells key = some i ∧ cells[i]? = some kv := by
  have hfulls : (fulls (slots cells)).length < (slots cells).length := by
    rw [fulls_slots, List.length_map, length_slots]
    exact hroom
  obtain ⟨i, hfind, hlt⟩ := @find_room _ _ hashing.equals (probeOrder hashing) (slots cells) key
    (fun h => mem_probeOrder h) hfulls
  rw [length_slots] at hlt
  exact ⟨i, cells[i], janetDictFind_eq.trans hfind, List.getElem?_eq_getElem hlt⟩

/-- A search that gives no cell has gone through live cells only. -/
theorem live_of_find_none (h : janetDictFind hashing cells key = none) : cells.length ≤ (live cells).length := by
  by_contra hlt
  obtain ⟨i, kv, hfind, _⟩ := @find_cell hashing cells key (by omega)
  rw [hfind] at h
  cases h

theorem live_memempty (n : Nat) : live (janetMemempty n) = [] := by
  refine List.filter_eq_nil_iff.mpr fun kv hkv => ?_
  rw [List.eq_of_mem_replicate hkv]
  exact Bool.false_ne_true

theorem tombs_memempty (n : Nat) : tombs (janetMemempty n) = [] := by
  refine List.filter_eq_nil_iff.mpr fun kv hkv => ?_
  rw [List.eq_of_mem_replicate hkv]
  exact Bool.false_ne_true

theorem fulls_memempty (n : Nat) : fulls (slots (janetMemempty n)) = [] := by
  rw [fulls_slots, live_memempty]
  rfl

/-- Every key is new to empty cells. -/
theorem fresh_memempty {n : Nat} (k : Janet) : Fresh hashing.equals (slots (janetMemempty n)) k := by
  intro k' v' hmem
  rw [← mem_fulls, fulls_memempty] at hmem
  cases hmem

theorem length_rehashInto : ∀ {old new cells : List JanetKV}, rehashInto hashing old new = some cells →
    cells.length = new.length
  | [], new, cells, h => by
    obtain rfl := Option.some.inj h
    rfl
  | kv :: old, new, cells, h => by
    rw [rehashInto] at h
    split at h
    · exact length_rehashInto h
    · obtain ⟨i, _, h⟩ := Option.bind_eq_some_iff.mp h
      exact (length_rehashInto h).trans List.length_set

/-- A rehash leaves no tombstones. -/
theorem tombs_rehashInto : ∀ {old new cells : List JanetKV}, rehashInto hashing old new = some cells →
    tombs new = [] → tombs cells = []
  | [], new, cells, h, hnew => by
    obtain rfl := Option.some.inj h
    exact hnew
  | kv :: old, new, cells, h, hnew => by
    rw [rehashInto] at h
    split at h
    · exact tombs_rehashInto h hnew
    · next hkey =>
      obtain ⟨i, _, h⟩ := Option.bind_eq_some_iff.mp h
      refine tombs_rehashInto h (List.filter_eq_nil_iff.mpr fun x hx => ?_)
      rcases List.mem_or_eq_of_mem_set hx with hx | rfl
      · exact List.filter_eq_nil_iff.mp hnew x hx
      · rw [isTomb_of_live (by simpa [JanetKV.isLive] using hkey)]
        exact Bool.false_ne_true

/-- A rehash into enough cells takes all entries. -/
theorem rehash_room {size : Nat} (hroom : (live t.cells).length ≤ size) :
    ∃ u, janetTableRehash hashing t size = some u ∧ u.count = t.count ∧ u.deleted = 0 ∧ u.capacity = size ∧
      u.proto = t.proto ∧ tombs u.cells = [] ∧ (live u.cells).length ≤ (live t.cells).length := by
  have hempty : (fulls (slots (janetMemempty size))).length = 0 := congrArg List.length (fulls_memempty size)
  have hold : (fulls (slots t.cells)).length = (live t.cells).length := by rw [fulls_slots, List.length_map]
  have hsize : (slots (janetMemempty size)).length = size := by rw [length_slots, janetMemempty, List.length_replicate]
  obtain ⟨slots', hall, hlen, hfulls⟩ := @putAll_room _ _ hashing.equals (probeOrder hashing)
    (fun h => mem_probeOrder h) (slots t.cells) (slots (janetMemempty size)) (by omega)
  rw [← rehashInto_eq] at hall
  obtain ⟨data, hdata, rfl⟩ := Option.map_eq_some_iff.mp hall
  rw [fulls_slots, List.length_map] at hfulls
  rw [length_slots] at hlen
  refine ⟨⟨t.count, data.length, 0, some data, t.proto, rfl⟩, by rw [janetTableRehash, hdata]; rfl, rfl, rfl,
    hlen.trans hsize, rfl, tombs_rehashInto hdata (tombs_memempty size), ?_⟩
  show (live data).length ≤ _
  omega

/-- What filling a cell does to the counters: the cell was not live, or the table is fresh from a rehash. -/
theorem counters_fill (hlive : ((live t.cells).length : Int) ≤ t.count)
    (htombs : ((tombs t.cells).length : Int) ≤ t.deleted + 1) (hi : t.cells[i]? = some kv)
    (hkey : janetChecktype key .nil = false)
    (hcell : kv.isLive = false ∨ tombs t.cells = [] ∧ t.deleted = 0) :
    let u := t.setCell i ⟨key, value⟩ (t.count + 1) (if janetChecktype kv.value .boolean then t.deleted - 1 else t.deleted)
    ((live u.cells).length : Int) ≤ u.count ∧ ((tombs u.cells).length : Int) ≤ u.deleted + 1 ∧
      u.deleted ≤ t.deleted ∧ u.count = t.count + 1 := by
  intro u
  have hnew : (⟨key, value⟩ : JanetKV).isLive = true := isLive_of_key hkey
  have hcells : u.cells = t.cells.set i ⟨key, value⟩ := cells_setCell
  have hdeleted : u.deleted = if janetChecktype kv.value .boolean then t.deleted - 1 else t.deleted := rfl
  have hl := @length_live_set _ _ _ hi ⟨key, value⟩
  have ht := @length_tombs_set _ _ _ hi ⟨key, value⟩
  rw [hnew, if_pos rfl] at hl
  rw [isTomb_of_live hnew] at ht
  simp only [Bool.false_eq_true, if_false, Nat.add_zero] at ht
  rw [hcells, hdeleted]
  refine ⟨?_, ?_, ?_, rfl⟩
  · show _ ≤ t.count + 1
    omega
  · rcases hcell with hdead | ⟨hnone, hzero⟩
    · by_cases hbool : janetChecktype kv.value .boolean = true
      · rw [isTomb_of_boolean hdead hbool, if_pos rfl] at ht
        rw [if_pos hbool]
        omega
      · rw [if_neg hbool]
        omega
    · rw [hnone, List.length_nil] at ht
      split <;> omega
  · split <;> omega

/-- No cell that a search for the key comes to is live. -/
def JanetTable.Misses (hashing : Hashing) (t : JanetTable) (key : Janet) : Prop :=
  ∀ i kv, janetDictFind hashing t.cells key = some i → t.cells[i]? = some kv → kv.isLive = false

/-- The table has room for one more entry. -/
structure JanetTable.Ready (hashing : Hashing) (t : JanetTable) (key : Janet) : Prop where
  live : ((live t.cells).length : Int) ≤ t.count
  tombs : ((tombs t.cells).length : Int) ≤ t.deleted + 1
  room : (SwiftJanet.live t.cells).length < t.cells.length
  found : t.Misses hashing key ∨ SwiftJanet.tombs t.cells = [] ∧ t.deleted = 0
  load : (t.capacity : Int) ≤ 2 ^ 30 ∧ 2 * (t.count + t.deleted + 1) ≤ t.capacity ∨ (t.capacity : Int) = 2 ^ 31 - 1

/-- Where there is room, a new key gets a cell. -/
theorem JanetTable.Ready.putFresh (h : t.Ready hashing key) (hkey : janetChecktype key .nil = false) :
    ∃ u, putFresh hashing t key value = some u ∧ u.Ok ∧ u.used ≤ t.used + 1 ∧ u.proto = t.proto := by
  obtain ⟨i, kv, hfind, hi⟩ := @find_cell hashing t.cells key h.room
  obtain ⟨hl, ht, hd, hc⟩ := @counters_fill t key value kv i h.live h.tombs hi hkey
    (h.found.imp (fun h => h i kv hfind hi) id)
  refine ⟨_, by rw [SwiftJanet.putFresh, hfind]; simp only [Option.bind_eq_bind, Option.bind_some, hi], ⟨hl, ht, ?_⟩,
    ?_, rfl⟩
  · rcases h.load with ⟨hsmall, hload⟩ | hlarge
    · left
      refine ⟨hsmall, ?_⟩
      rw [hc]
      show _ ≤ (t.capacity : Int)
      omega
    · exact Or.inr hlarge
  · rw [JanetTable.used, JanetTable.used, hc]
    omega

/-- The growth check in 32 bits asks for a rehash exactly when it should. -/
theorem grow_iff {s : Int} (hs : -1 ≤ s) (hmax : s ≤ 2 ^ 31 - 1) {capacity : Nat} (hcap : (capacity : Int) ≤ 2 ^ 31 - 1) :
    (BitVec.ofInt 32 (2 * s)).toInt > capacity ↔ s < 2 ^ 30 ∧ 2 * s > capacity := by
  rw [BitVec.toInt_ofInt, Int.bmod_def]
  split <;> omega

/-- `t` itself, or `t` after a rehash into enough cells. -/
inductive JanetTable.Grown (hashing : Hashing) (t : JanetTable) : JanetTable → Prop
  | same : Grown hashing t t
  | rehashed {u : JanetTable} {size : Nat} (hroom : (live t.cells).length < size)
      (h : janetTableRehash hashing t size = some u) : Grown hashing t u

/-- The size that a full table grows to. -/
def JanetTable.nextSize (t : JanetTable) : Nat := (janetTablen (BitVec.ofInt 32 (2 * t.count + 2))).toNat

/-- A table that is not too large gets room for one more entry. -/
theorem grow_ready (hlive : ((live t.cells).length : Int) ≤ t.count) (hcount : t.count ≤ 2 ^ 29 + 1) :
    ∃ u, janetTableRehash hashing t t.nextSize = some u ∧ t.Grown hashing u ∧ u.Ready hashing key ∧
      u.used ≤ t.used ∧ u.proto = t.proto := by
  have hnat : (BitVec.ofInt 32 (2 * t.count + 2)).toNat = (2 * t.count + 2).toNat := by
    rw [BitVec.toNat_ofInt]
    omega
  have hsize := @janetTablen_cases (BitVec.ofInt 32 (2 * t.count + 2)) (by omega)
  have hlt : (live t.cells).length < t.nextSize := by
    unfold JanetTable.nextSize
    omega
  obtain ⟨u, hu, hc, hd, hcap, hp, htombs, hl⟩ := @rehash_room hashing t t.nextSize (by omega)
  have hcells : u.cells.length = t.nextSize := capacity_cells.symm.trans hcap
  refine ⟨u, hu, .rehashed hlt hu, ⟨by omega, by rw [htombs, hd]; decide, by omega, Or.inr ⟨htombs, hd⟩, ?_⟩, ?_, hp⟩
  · rw [hc, hd, hcap]
    unfold JanetTable.nextSize
    omega
  · rw [JanetTable.used, JanetTable.used, hc, hd]
    omega

/-- What `janet_table_put` looks at before it puts: the key is neither nil nor a NaN, and the value is not nil. -/
structure Storable (key value : Janet) : Prop where
  key_not_nil : janetChecktype key .nil = false
  key_not_nan : janetChecktype key .number = true → (janetUnwrapNumber key).isNaN = false
  value_not_nil : janetChecktype value .nil = false

/-- Putting what can be stored: an equal key gets the value, and otherwise a cell is filled, perhaps after a rehash. -/
theorem janetTablePut_eq (hs : Storable key value) : janetTablePut hashing t key value =
    match janetDictFind hashing t.cells key with
    | none => (janetTableRehash hashing t t.nextSize).bind fun t => putFresh hashing t key value
    | some i => match t.cells[i]? with
      | none => none
      | some kv =>
        if !janetChecktype kv.key .nil then some (t.setCell i ⟨kv.key, value⟩ t.count t.deleted)
        else if (BitVec.ofInt 32 (2 * (t.count + t.deleted + 1))).toInt > t.capacity then
          (janetTableRehash hashing t t.nextSize).bind fun t => putFresh hashing t key value
        else putFresh hashing t key value := by
  have hnan : (janetChecktype key .number && (janetUnwrapNumber key).isNaN) = false := by
    cases h : janetChecktype key .number with
    | false => rfl
    | true => exact hs.key_not_nan h
  rw [janetTablePut, hs.key_not_nil, hnan, hs.value_not_nil]
  rfl

/-- **What putting does**: an equal key gets the new value; otherwise the key gets a cell of its own, after a rehash where
that is needed. -/
theorem put_cases (hok : t.Ok) (hused : t.used < 2 ^ 31 - 1) (hs : Storable key value) :
    (∃ i kv, janetDictFind hashing t.cells key = some i ∧ t.cells[i]? = some kv ∧ kv.isLive = true ∧
      janetTablePut hashing t key value = some (t.setCell i ⟨kv.key, value⟩ t.count t.deleted)) ∨
    (t.Misses hashing key ∧ ∃ u, t.Grown hashing u ∧ u.Ready hashing key ∧ u.used ≤ t.used ∧ u.proto = t.proto ∧
      janetTablePut hashing t key value = putFresh hashing u key value) := by
  have hlive := hok.live
  have htombs := hok.tombs
  have hcap : t.capacity = t.cells.length := capacity_cells
  unfold JanetTable.used at hused
  rw [janetTablePut_eq hs]
  cases hfind : janetDictFind hashing t.cells key with
  | none =>
    right
    have hall := live_of_find_none hfind
    obtain ⟨u, hu, hgrown, hready, huse, hp⟩ := @grow_ready hashing t key hlive (by
      rcases hok.load with h | h <;> omega)
    refine ⟨?_, u, hgrown, hready, huse, hp, ?_⟩
    · intro i kv h
      cases hfind.symm.trans h
    · simp only [hu, Option.bind_some]
  | some i =>
    obtain ⟨kv, hi⟩ := find_cell_of_some hfind
    simp only [hi]
    cases hlive' : kv.isLive with
    | true =>
      left
      refine ⟨i, kv, rfl, hi, hlive', ?_⟩
      rw [if_pos (by simpa [JanetKV.isLive] using hlive')]
    | false =>
      right
      have hmisses : t.Misses hashing key := by
        intro j kv' hj hkv'
        obtain rfl := Option.some.inj (hfind.symm.trans hj)
        obtain rfl := Option.some.inj (hi.symm.trans hkv')
        exact hlive'
      have hdead : ¬(!janetChecktype kv.key .nil) = true := by
        intro h
        rw [JanetKV.isLive, h] at hlive'
        cases hlive'
      rw [if_neg hdead]
      have hgrow := @grow_iff (t.count + t.deleted + 1) (by omega) (by omega) t.capacity (by
        rcases hok.load with h | h <;> omega)
      split
      · next h =>
        obtain ⟨hs1, hs2⟩ := hgrow.mp h
        obtain ⟨u, hu, hgrown, hready, huse, hp⟩ := @grow_ready hashing t key hlive (by
          rcases hok.load with h | h <;> omega)
        refine ⟨hmisses, u, hgrown, hready, huse, hp, ?_⟩
        rw [hu, Option.bind_some]
      · next h =>
        have hno := mt hgrow.mpr h
        refine ⟨hmisses, t, .same, ⟨hlive, htombs, ?_, Or.inl hmisses, ?_⟩, by unfold JanetTable.used; omega, rfl, rfl⟩
        · exact List.length_filter_lt_length_iff_exists.mpr
            ⟨kv, List.mem_of_getElem? hi, by rw [hlive']; exact Bool.false_ne_true⟩
        · rcases hok.load with ⟨h1, h2⟩ | h1
          · left
            omega
          · exact Or.inr h1

/-- Other entries are not put: the table stays as it is, or the key is removed. -/
theorem put_of_not_storable (h : ¬Storable key value) : janetTablePut hashing t key value = some t ∨
    janetTablePut hashing t key value = some (janetTableRemove hashing t key) := by
  rw [janetTablePut]
  by_cases hk : janetChecktype key .nil = true
  · left
    rw [if_pos hk]
  · by_cases hn : (janetChecktype key .number && (janetUnwrapNumber key).isNaN) = true
    · left
      rw [if_neg hk, if_pos hn]
    · right
      have hv : janetChecktype value .nil = true := by
        by_contra hv
        refine h ⟨by simpa using hk, fun hnum => ?_, by simpa using hv⟩
        simpa [hnum] using hn
      rw [if_neg hk, if_neg hn, if_pos hv]

/-- Overwriting a cell and moving entries from one counter to the other. -/
theorem ok_setCell (hok : t.Ok) (hi : t.cells[i]? = some kv) (hlive : kv.isLive = true) {kv' : JanetKV} {d : Int}
    (hd : d = if kv'.isLive then 0 else 1) : (t.setCell i kv' (t.count - d) (t.deleted + d)).Ok := by
  have hl := @length_live_set _ _ _ hi kv'
  have ht := @length_tombs_set _ _ _ hi kv'
  have h1 := hok.live
  have h2 := hok.tombs
  have htomb : kv'.isTomb = true → kv'.isLive = false := fun h => by
    cases hl : kv'.isLive with
    | true => rw [isTomb_of_live hl] at h; cases h
    | false => rfl
  rw [hlive, if_pos rfl] at hl
  rw [isTomb_of_live hlive] at ht
  simp only [Bool.false_eq_true, if_false, Nat.add_zero] at ht
  refine ⟨?_, ?_, ?_⟩
  · rw [cells_setCell]
    show _ ≤ t.count - d
    cases h : kv'.isLive <;> simp only [h, Bool.false_eq_true, if_false, if_true] at hl hd <;> omega
  · rw [cells_setCell]
    show _ ≤ t.deleted + d + 1
    cases h : kv'.isTomb with
    | true =>
      rw [htomb h] at hd
      simp only [h, Bool.false_eq_true, if_false, if_true] at ht hd
      omega
    | false =>
      simp only [h, Bool.false_eq_true, if_false] at ht
      split at hd <;> omega
  · show (t.capacity : Int) ≤ 2 ^ 30 ∧ 2 * (t.count - d + (t.deleted + d)) ≤ t.capacity ∨ (t.capacity : Int) = 2 ^ 31 - 1
    rcases hok.load with h | h
    · left
      omega
    · exact Or.inr h

theorem ok_remove (hok : t.Ok) : (janetTableRemove hashing t key).Ok ∧ (janetTableRemove hashing t key).used ≤ t.used := by
  unfold janetTableRemove
  split
  · exact ⟨hok, Int.le_refl _⟩
  · next i hfind =>
    split
    · next hocc =>
      obtain ⟨kv, hi⟩ := find_cell_of_some hfind
      have hlive : kv.isLive = true := by
        rw [occupied, hi] at hocc
        exact hocc
      refine ⟨ok_setCell hok hi hlive rfl, ?_⟩
      have htombs := hok.tombs
      show t.count - 1 + max (t.deleted + 1) 0 ≤ t.count + max t.deleted 0
      omega
    · exact ⟨hok, Int.le_refl _⟩

theorem proto_remove : (janetTableRemove hashing t key).proto = t.proto := by
  unfold janetTableRemove
  split
  · rfl
  · split <;> rfl

/-- **Putting keeps the promise of the counters, and finds a cell**, as long as the table is not filled to the limit. -/
theorem ok_put (hok : t.Ok) (hused : t.used < 2 ^ 31 - 1) :
    ∃ u, janetTablePut hashing t key value = some u ∧ u.Ok ∧ u.used ≤ t.used + 1 ∧ u.proto = t.proto := by
  by_cases hs : Storable key value
  · rcases @put_cases hashing t key value hok hused hs with ⟨i, kv, _, hi, hlive, hput⟩ | ⟨_, u, _, hready, huse, hp, hput⟩
    · refine ⟨_, hput, ?_, Int.le_add_one (Int.le_refl _), rfl⟩
      have hkey : (⟨kv.key, value⟩ : JanetKV).isLive = true := hlive
      have := @ok_setCell t kv i hok hi hlive ⟨kv.key, value⟩ 0 (by rw [hkey]; rfl)
      rwa [Int.sub_zero, Int.add_zero] at this
    · obtain ⟨u', hu', hok', huse', hp'⟩ := @JanetTable.Ready.putFresh hashing u key value hready hs.key_not_nil
      exact ⟨u', hput.trans hu', hok', by omega, hp'.trans hp⟩
  · rcases @put_of_not_storable hashing t key value hs with h | h
    · exact ⟨t, h, hok, by omega, rfl⟩
    · have hr := @ok_remove hashing t key hok
      exact ⟨_, h, hr.1, by omega, proto_remove⟩

/-- A new table has room. -/
theorem ok_table {n : BitVec 32} (hn : n.toNat < 2 ^ 31) : (janetTable n).Ok ∧ (janetTable n).used = 0 ∧
    (janetTable n).proto = none ∧ live (janetTable n).cells = [] ∧ n.toNat ≤ (janetTable n).capacity := by
  have hcap := janetTablen_cases hn
  have hne : (janetTablen n).toNat ≠ 0 := by omega
  unfold janetTable janetTableInitImpl
  rw [if_pos hne]
  refine ⟨⟨?_, ?_, ?_⟩, rfl, rfl, live_memempty _, ?_⟩
  · show ((live (janetMemempty (janetTablen n).toNat)).length : Int) ≤ 0
    rw [live_memempty]
    exact Int.le_refl 0
  · show ((tombs (janetMemempty (janetTablen n).toNat)).length : Int) ≤ 0 + 1
    rw [tombs_memempty]
    decide
  · show ((janetTablen n).toNat : Int) ≤ 2 ^ 30 ∧ 2 * (0 + 0) ≤ ((janetTablen n).toNat : Int) ∨
      ((janetTablen n).toNat : Int) = 2 ^ 31 - 1
    omega
  · show n.toNat ≤ (janetTablen n).toNat
    omega

end Ok

/-! ## Entries -/

section Entries

variable {hashing : Hashing} {cells : List JanetKV} {t u : JanetTable} {key value : Janet} {kv : JanetKV} {i : Nat}

/-- The keys of all entries are told apart. -/
def KeysApart (hashing : Hashing) (kvs : List JanetKV) : Prop :=
  kvs.Pairwise fun kv kv' => hashing.equals kv.key kv'.key = false

/-- Filling a cell adds an entry. -/
theorem live_fill (hi : cells[i]? = some kv) (hdead : kv.isLive = false) {kv' : JanetKV} (hlive : kv'.isLive = true) :
    (live (cells.set i kv')).Perm (kv' :: live cells) :=
  filter_set_perm hi hdead hlive

/-- The entry of a full slot. -/
def cellOf : Slot Janet Janet → JanetKV
  | .full key value => ⟨key, value⟩
  | _ => ⟨janetWrapNil, janetWrapNil⟩

theorem live_eq_map (cells : List JanetKV) : live cells = (fulls (slots cells)).map cellOf := by
  rw [fulls_slots, List.map_map]
  refine (List.map_id _).symm.trans (List.map_congr_left fun kv hkv => ?_)
  rw [Function.comp, slotOf_live (List.mem_filter.mp hkv).2]
  rfl

theorem apart_slots (h : KeysApart hashing (live cells)) : (slots cells).Pairwise (Apart hashing.equals) := by
  rw [slots, List.pairwise_map]
  refine (List.pairwise_filter.mp h).imp fun {a b} hab k k' v v' ha hb => ?_
  obtain ⟨rfl, hlive⟩ := slotOf_eq_full ha
  obtain ⟨rfl, hlive'⟩ := slotOf_eq_full hb
  exact hab hlive hlive'

/-- A rehash keeps entries that are told apart. -/
theorem live_rehash {size : Nat} (hroom : (live t.cells).length < size) (h : janetTableRehash hashing t size = some u)
    (hapart : KeysApart hashing (live t.cells)) : (live u.cells).Perm (live t.cells) := by
  obtain ⟨data, hdata, hu⟩ := Option.bind_eq_some_iff.mp h
  obtain rfl := Option.some.inj hu
  have hfresh : ∀ k v, Slot.full k v ∈ slots t.cells → Fresh hashing.equals (slots (janetMemempty size)) k :=
    fun k v _ => fresh_memempty k
  obtain ⟨slots', hall, _, hfulls, _⟩ := @putAll_fresh _ _ hashing.equals (probeOrder hashing)
    (fun h => mem_probeOrder h) (slots t.cells) (slots (janetMemempty size)) (apart_slots hapart) hfresh (by
      rw [fulls_memempty, fulls_slots, List.length_map, length_slots, janetMemempty, List.length_replicate]
      simp only [List.length_nil]
      omega)
  rw [← rehashInto_eq, hdata] at hall
  obtain rfl := Option.some.inj hall
  rw [fulls_memempty, List.append_nil] at hfulls
  rw [live_eq_map t.cells, live_eq_map]
  exact hfulls.map cellOf

theorem live_grown (h : t.Grown hashing u) (hapart : KeysApart hashing (live t.cells)) :
    (live u.cells).Perm (live t.cells) := by
  cases h with
  | same => exact List.Perm.refl _
  | rehashed hroom h => exact live_rehash hroom h hapart

/-- A search for a key that is told apart from all others comes to no live cell. -/
theorem misses_of_apart (h : ∀ kv ∈ live t.cells, hashing.equals kv.key key = false) : t.Misses hashing key := by
  intro i kv hfind hi
  rw [janetDictFind_eq] at hfind
  have hslot : (slots t.cells)[i]? = some (slotOf kv) := by rw [getElem?_slots, hi]; rfl
  have hpos : 0 < (slots t.cells).length := Nat.lt_of_le_of_lt (Nat.zero_le i) (List.getElem?_eq_some_iff.mp hslot).1
  rcases @find_cases _ _ hashing.equals (slots t.cells) key _ fun j hj => (mem_probeOrder hpos).mp hj with
    ⟨j, k, v, hj, _, hs, heq⟩ | ⟨_, ⟨j, hj, _, _, hfull, _⟩ | ⟨hnone, _⟩⟩
  · obtain rfl := Option.some.inj (hfind.symm.trans hj)
    obtain ⟨rfl, hlive⟩ := slotOf_eq_full (Option.some.inj (hslot.symm.trans hs))
    rw [h _ (List.mem_filter.mpr ⟨List.mem_of_getElem? hi, hlive⟩)] at heq
    cases heq
  · obtain rfl := Option.some.inj (hfind.symm.trans hj)
    cases hlive : kv.isLive with
    | false => rfl
    | true => exact absurd (hslot.trans (congrArg some (slotOf_live hlive))) (hfull _ _)
  · cases hfind.symm.trans hnone

/-- **A key that is told apart from all others gets an entry of its own.** -/
theorem put_apart (hok : t.Ok) (hused : t.used < 2 ^ 31 - 1) (hs : Storable key value)
    (hapart : KeysApart hashing (live t.cells)) (hkey : ∀ kv ∈ live t.cells, hashing.equals kv.key key = false) :
    ∃ u, janetTablePut hashing t key value = some u ∧ u.Ok ∧ u.used ≤ t.used + 1 ∧ u.proto = t.proto ∧
      (live u.cells).Perm (⟨key, value⟩ :: live t.cells) := by
  rcases @put_cases hashing t key value hok hused hs with ⟨i, kv, hfind, hi, hlive, _⟩ | ⟨_, u, hgrown, hready, huse, hp, hput⟩
  · rw [misses_of_apart hkey i kv hfind hi] at hlive
    cases hlive
  · have hperm := live_grown hgrown hapart
    have hmisses : u.Misses hashing key := misses_of_apart fun kv hkv => hkey kv (hperm.mem_iff.mp hkv)
    obtain ⟨u', hu', hok', huse', hp'⟩ := @JanetTable.Ready.putFresh hashing u key value hready hs.key_not_nil
    refine ⟨u', hput.trans hu', hok', by omega, hp'.trans hp, ?_⟩
    obtain ⟨i, hfind, h⟩ := Option.bind_eq_some_iff.mp hu'
    obtain ⟨kv, hi, h⟩ := Option.bind_eq_some_iff.mp h
    obtain rfl := Option.some.inj h
    rw [cells_setCell]
    exact (live_fill hi (hmisses i kv hfind hi) (isLive_of_key hs.key_not_nil)).trans (hperm.cons _)

end Entries

/-! ## Lookups -/

section Lookups

variable {hashing : Hashing} {P : Janet → Prop} {cells : List JanetKV} {t u w : JanetTable} {key k value v : Janet}
  {kv : JanetKV} {size i : Nat}

/-- The invariant of a hash table, for the cells of a dictionary. -/
abbrev CellsInv (hashing : Hashing) (P : Janet → Prop) (cells : List JanetKV) : Prop :=
  Inv hashing.equals (probeOrder hashing) P (slots cells)

/-- The value that a search finds under the key. -/
abbrev lookupCells (hashing : Hashing) (cells : List JanetKV) (key : Janet) : Option Janet :=
  lookup hashing.equals (probeOrder hashing) (slots cells) key

/-- Equality of keys is an equivalence that the hash respects. -/
abbrev LawfulKeys (hashing : Hashing) (P : Janet → Prop) : Prop := Lawful hashing.equals (probeOrder hashing) P

theorem lookupCells_eq : lookupCells hashing cells key =
    ((janetDictFind hashing cells key).bind fun i => cells[i]?).bind fun kv => if kv.isLive then some kv.value else none := by
  rw [lookupCells, lookup, ← janetDictFind_eq]
  cases janetDictFind hashing cells key with
  | none => rfl
  | some i =>
    simp only [getElem?_slots, Option.bind_some]
    cases cells[i]? with
    | none => rfl
    | some kv =>
      simp only [Option.map_some, Option.bind_some]
      cases hlive : kv.isLive with
      | true =>
        rw [slotOf_live hlive]
        rfl
      | false =>
        have hfull : (slotOf kv).isFull = false := isFull_slotOf.trans hlive
        cases hs : slotOf kv with
        | full k' v' => rw [hs] at hfull; cases hfull
        | _ => rfl

theorem holds_slots : Holds hashing.equals (slots cells) k v ↔ ∃ kv ∈ live cells, kv.value = v ∧ hashing.equals kv.key k = true := by
  constructor
  · rintro ⟨k', hmem, heq⟩
    exact ⟨⟨k', v⟩, full_mem_slots.mp hmem, rfl, heq⟩
  · rintro ⟨⟨k', v'⟩, hmem, rfl, heq⟩
    exact ⟨k', full_mem_slots.mpr hmem, heq⟩

theorem lookup_eq_some (hl : LawfulKeys hashing P) (hi : CellsInv hashing P cells) (hk : P k) :
    lookupCells hashing cells k = some v ↔ ∃ kv ∈ live cells, kv.value = v ∧ hashing.equals kv.key k = true :=
  (hi.lookup_eq_some hl hk).trans holds_slots

/-- What is found is there, whatever is hashed or compared. -/
theorem holds_of_lookupCells (hcells : 0 < cells.length) (h : lookupCells hashing cells key = some v) :
    ∃ kv ∈ live cells, kv.value = v ∧ hashing.equals kv.key key = true := by
  rw [← length_slots] at hcells
  exact holds_slots.mp (holds_of_lookup (fun i hi => (mem_probeOrder hcells).mp hi) h)

/-- What is not found is not there. -/
theorem apart_of_lookup_none (hl : LawfulKeys hashing P) (hi : CellsInv hashing P cells) (hk : P k)
    (h : lookupCells hashing cells k = none) : ∀ kv ∈ live cells, hashing.equals kv.key k = false := by
  intro kv hkv
  by_contra hne
  have := (lookup_eq_some hl hi hk).mpr ⟨kv, hkv, rfl, by simpa using hne⟩
  rw [h] at this
  cases this

theorem keys_of_inv (hi : CellsInv hashing P cells) (hkv : kv ∈ live cells) : P kv.key := by
  obtain ⟨i, hi'⟩ := List.mem_iff_getElem?.mp (full_mem_slots.mpr (show (⟨kv.key, kv.value⟩ : JanetKV) ∈ live cells from hkv))
  exact hi.keys hi'

theorem inv_memempty (hn : 0 < size) : CellsInv hashing P (janetMemempty size) := by
  have hfree : ∀ {i : Nat} {k v : Janet}, (slots (janetMemempty size))[i]? ≠ some (.full k v) := by
    intro i k v h
    have hmem := full_mem_slots.mp (List.mem_of_getElem? h)
    rw [live_memempty] at hmem
    cases hmem
  refine ⟨?_, fun h => absurd h hfree, fun h => absurd h hfree, fun h => absurd h hfree⟩
  rw [length_slots, janetMemempty, List.length_replicate]
  exact hn

/-- The invariant does not depend on what else is hashed or compared. -/
theorem inv_congr {hashing' : Hashing} {P' : Janet → Prop} (hi : CellsInv hashing P cells)
    (hP : ∀ kv ∈ live cells, P' kv.key) (hhash : ∀ kv ∈ live cells, hashing'.hash kv.key = hashing.hash kv.key)
    (hequals : ∀ kv ∈ live cells, ∀ kv' ∈ live cells, hashing'.equals kv.key kv'.key = hashing.equals kv.key kv'.key) :
    CellsInv hashing' P' cells := by
  have hmem : ∀ {i : Nat} {k v : Janet}, (slots cells)[i]? = some (.full k v) → (⟨k, v⟩ : JanetKV) ∈ live cells :=
    fun h => full_mem_slots.mp (List.mem_of_getElem? h)
  refine ⟨hi.nonempty, fun h => hP _ (hmem h), fun h => ?_, fun h h' heq => ?_⟩
  · have := hi.reached h
    rwa [probeOrder, ← hhash _ (hmem h)] at this
  · refine hi.unique h h' ?_
    rw [← hequals _ (hmem h') _ (hmem h)]
    exact heq

/-- A rehash keeps the invariant and the entries. -/
theorem inv_rehash (hl : LawfulKeys hashing P) (hi : CellsInv hashing P t.cells) (hsize : 0 < size)
    (h : janetTableRehash hashing t size = some u) :
    CellsInv hashing P u.cells ∧ (live u.cells).Perm (live t.cells) ∧ u.proto = t.proto := by
  obtain ⟨data, hdata, hu⟩ := Option.bind_eq_some_iff.mp h
  obtain rfl := Option.some.inj hu
  have hfresh : ∀ k v, Slot.full k v ∈ slots t.cells → Fresh hashing.equals (slots (janetMemempty size)) k :=
    fun k v _ => fresh_memempty k
  have hall : putAll hashing.equals (probeOrder hashing) (slots t.cells) (slots (janetMemempty size)) = some (slots data) := by
    rw [← rehashInto_eq, hdata]
    rfl
  have hroom := room_of_putAll (fun h => mem_probeOrder h) hi.pairwise hfresh hall
  obtain ⟨slots', hall', _, hfulls, hinv⟩ := putAll_fresh (fun h => mem_probeOrder h) hi.pairwise hfresh hroom
  obtain rfl := Option.some.inj (hall.symm.trans hall')
  refine ⟨hinv hl (fun k v hmem => ?_) (inv_memempty hsize), ?_, rfl⟩
  · exact keys_of_inv hi (full_mem_slots.mp hmem)
  · rw [fulls_memempty, List.append_nil] at hfulls
    rw [live_eq_map t.cells, live_eq_map]
    exact hfulls.map cellOf

/-- A new key gets a cell of its own. -/
theorem inv_putFresh (hl : LawfulKeys hashing P) (hi : CellsInv hashing P u.cells) (hk : P key)
    (hnil : janetChecktype key .nil = false) (hfresh : ∀ kv ∈ live u.cells, hashing.equals kv.key key = false)
    (h : putFresh hashing u key value = some w) :
    CellsInv hashing P w.cells ∧ (live w.cells).Perm (⟨key, value⟩ :: live u.cells) ∧ w.proto = u.proto := by
  obtain ⟨i, hfind, h⟩ := Option.bind_eq_some_iff.mp h
  obtain ⟨kv, hkv, h⟩ := Option.bind_eq_some_iff.mp h
  obtain rfl := Option.some.inj h
  have hlive : (⟨key, value⟩ : JanetKV).isLive = true := isLive_of_key hnil
  rw [cells_setCell]
  refine ⟨?_, live_fill hkv (misses_of_apart hfresh i kv hfind hkv) hlive, rfl⟩
  rw [CellsInv, slots_set, slotOf_live hlive]
  rw [janetDictFind_eq] at hfind
  rcases hi.fits_of_find hl hk hfind with ⟨k', v, hs, heq, _⟩ | ⟨_, _, _, hfits⟩
  · rw [hfresh _ (full_mem_slots.mp (List.mem_of_getElem? hs))] at heq
    cases heq
  · exact hi.fill hl hk hfits

/-- The table `u` is `t` with the value under all keys that are equal to the key. -/
structure JanetTable.PutIn (hashing : Hashing) (P : Janet → Prop) (t : JanetTable) (key value : Janet) (u : JanetTable) :
    Prop where
  inv : CellsInv hashing P u.cells
  proto : u.proto = t.proto
  lookup : ∀ k, P k → lookupCells hashing u.cells k = if hashing.equals key k then some value
    else lookupCells hashing t.cells k

/-- A new key in a table with the entries of `t`. -/
theorem putIn_fresh (hl : LawfulKeys hashing P) (hi : CellsInv hashing P t.cells) (hk : P key) (hs : Storable key value)
    (hfresh : ∀ kv ∈ live t.cells, hashing.equals kv.key key = false) (hw : CellsInv hashing P w.cells)
    (hperm : (live w.cells).Perm (live t.cells)) (hp : w.proto = t.proto) (h : putFresh hashing w key value = some u) :
    t.PutIn hashing P key value u := by
  obtain ⟨hinv, hlive, hp'⟩ := inv_putFresh hl hw hk hs.key_not_nil (fun kv hkv => hfresh kv (hperm.mem_iff.mp hkv)) h
  refine ⟨hinv, hp'.trans hp, fun k hk' => Option.ext fun v => ?_⟩
  have hmem : ∀ kv, kv ∈ live u.cells ↔ kv = ⟨key, value⟩ ∨ kv ∈ live t.cells := fun kv => by
    rw [hlive.mem_iff, List.mem_cons, hperm.mem_iff]
  rw [lookup_eq_some hl hinv hk']
  split
  · next heq =>
    simp only [Option.some.injEq]
    constructor
    · rintro ⟨kv, hkv, rfl, heq'⟩
      rcases (hmem kv).mp hkv with rfl | hold
      · rfl
      · have := hl.trans (keys_of_inv hi hold) hk' hk heq' (hl.symm hk hk' heq)
        rw [hfresh kv hold] at this
        cases this
    · rintro rfl
      exact ⟨_, (hmem _).mpr (Or.inl rfl), rfl, heq⟩
  · next hne =>
    rw [lookup_eq_some hl hi hk']
    constructor
    · rintro ⟨kv, hkv, hv, heq⟩
      rcases (hmem kv).mp hkv with rfl | hold
      · exact absurd heq hne
      · exact ⟨kv, hold, hv, heq⟩
    · rintro ⟨kv, hkv, hv, heq⟩
      exact ⟨kv, (hmem kv).mpr (Or.inr hkv), hv, heq⟩

/-- A new key after a rehash. -/
theorem putIn_grown (hl : LawfulKeys hashing P) (hi : CellsInv hashing P t.cells) (hk : P key) (hs : Storable key value)
    (hfresh : ∀ kv ∈ live t.cells, hashing.equals kv.key key = false)
    (h : ((janetTableRehash hashing t t.nextSize).bind fun t => putFresh hashing t key value) = some u) :
    t.PutIn hashing P key value u := by
  obtain ⟨w, hre, hput⟩ := Option.bind_eq_some_iff.mp h
  have hsize : 0 < t.nextSize := by
    by_contra hzero
    obtain ⟨data, hdata, hw⟩ := Option.bind_eq_some_iff.mp hre
    obtain rfl := Option.some.inj hw
    obtain ⟨i, hfind, _⟩ := Option.bind_eq_some_iff.mp hput
    obtain ⟨kv, hkv⟩ := find_cell_of_some hfind
    have hlen := length_rehashInto hdata
    rw [janetMemempty, List.length_replicate] at hlen
    have := (List.getElem?_eq_some_iff.mp hkv).1
    exact absurd (show i < data.length from this) (by omega)
  obtain ⟨hw, hperm, hp⟩ := inv_rehash hl hi hsize hre
  exact putIn_fresh hl hi hk hs hfresh hw hperm hp hput

/-- An equal key gets the new value. -/
theorem putIn_replace (hl : LawfulKeys hashing P) (hi : CellsInv hashing P t.cells) (hk : P key)
    (hfind : janetDictFind hashing t.cells key = some i) (hkv : t.cells[i]? = some kv) (hlive : kv.isLive = true) :
    t.PutIn hashing P key value (t.setCell i ⟨kv.key, value⟩ t.count t.deleted) := by
  have hlive' : (⟨kv.key, value⟩ : JanetKV).isLive = true := hlive
  have hslot : (slots t.cells)[i]? = some (.full kv.key kv.value) := by
    rw [getElem?_slots, hkv, Option.map_some, slotOf_live hlive]
  rw [janetDictFind_eq] at hfind
  rcases hi.fits_of_find hl hk hfind with ⟨k', v, hs, heq, hfits⟩ | ⟨s, hs, hfull, _⟩
  · cases hslot.symm.trans hs
    have hP := hi.keys hslot
    have hinv : CellsInv hashing P (t.cells.set i ⟨kv.key, value⟩) := by
      rw [CellsInv, slots_set, slotOf_live hlive']
      exact hi.fill hl hP hfits
    refine ⟨by rw [cells_setCell]; exact hinv, rfl, fun k hk' => Option.ext fun v => ?_⟩
    have hsame : hashing.equals kv.key k = hashing.equals key k := by
      rw [Bool.eq_iff_iff]
      exact ⟨hl.trans hk hP hk' (hl.symm hP hk heq), hl.trans hP hk hk' heq⟩
    rw [cells_setCell, lookupCells, hinv.lookup_eq_some hl hk', slots_set, slotOf_live hlive',
      hi.holds_fill hl hP hfits hk', hsame]
    split
    · simp only [Option.some.injEq, eq_comm]
    · exact (hi.lookup_eq_some hl hk').symm
  · cases hslot.symm.trans hs
    cases hfull

theorem putIn_put (hl : LawfulKeys hashing P) (hi : CellsInv hashing P t.cells) (hk : P key) (hs : Storable key value)
    (h : janetTablePut hashing t key value = some u) : t.PutIn hashing P key value u := by
  rw [janetTablePut_eq hs] at h
  cases hfind : janetDictFind hashing t.cells key with
  | none =>
    rw [hfind] at h
    refine putIn_grown hl hi hk hs (apart_of_lookup_none hl hi hk ?_) h
    rw [lookupCells_eq, hfind]
    rfl
  | some i =>
    obtain ⟨kv, hkv⟩ := find_cell_of_some hfind
    simp only [hfind, hkv] at h
    cases hlive : kv.isLive with
    | true =>
      rw [if_pos (by simpa [JanetKV.isLive] using hlive)] at h
      obtain rfl := Option.some.inj h
      exact putIn_replace hl hi hk hfind hkv hlive
    | false =>
      have hfresh := apart_of_lookup_none hl hi hk (by
        rw [lookupCells_eq, hfind, Option.bind_some, hkv, Option.bind_some, hlive]
        rfl)
      rw [if_neg (by rw [← JanetKV.isLive, hlive]; exact Bool.false_ne_true)] at h
      split at h
      · exact putIn_grown hl hi hk hs hfresh h
      · exact putIn_fresh hl hi hk hs hfresh hi (List.Perm.refl _) rfl h

/-- **What a lookup finds after a put**: the value under all keys that are equal to the key, and what was there under
all others. -/
theorem inv_put (hl : LawfulKeys hashing P) (hi : CellsInv hashing P t.cells) (hk : P key) (hs : Storable key value)
    (h : janetTablePut hashing t key value = some u) : CellsInv hashing P u.cells ∧ u.proto = t.proto ∧
      ∀ k, P k → lookupCells hashing u.cells k = if hashing.equals key k then some value else lookupCells hashing t.cells k :=
  have hput := putIn_put hl hi hk hs h
  ⟨hput.inv, hput.proto, hput.lookup⟩

end Lookups

end SwiftJanet
