import Mathlib.Algebra.Order.Group.Int
import Mathlib.Tactic.SplitIfs
import SwiftJanet.VM.Compare
import SwiftJanet.VM.Script

/-!
# `janet_compare` is an order

On values that can be compared `janet_compare` is a total order (`sorts_janetCompare`): values of different types compare
by their types, and for each type there is a comparison that it agrees with: by a key, byte by byte, or node by node
(`compareList`). The proof goes by how deep tuples and structs nest.
-/

namespace SwiftJanet

open Lib.Comparison Heap

/-! ## Lists -/

section Lists

variable {compare : Janet → Janet → Option Int} {xs xs' ys ys' : List Janet}

/-- `janet_string_compare` compares byte by byte. -/
theorem stringCompare_eq : ∀ (l r : List UInt8), some (janetStringCompare l r) = compareList (compareBy UInt8.toNat) l r
  | [], [] => rfl
  | [], _ :: _ => rfl
  | _ :: _, [] => rfl
  | a :: l, b :: r => by
    have ih := stringCompare_eq l r
    have hlt : ∀ {a b : UInt8}, a < b ↔ a.toNat < b.toNat := UInt8.lt_iff_toNat_lt
    unfold janetStringCompare at ih ⊢
    rw [compareList_cons]
    simp only [List.length_cons, Nat.add_min_add_right, memcmp, hlt]
    rcases lt_trichotomy a.toNat b.toNat with h | h | h
    · rw [if_neg (mt compareBy_eq_zero.mp (ne_of_lt h)), compareBy]
      simp [h]
    · rw [if_pos (compareBy_eq_zero.mpr h), ← ih]
      simp [h]
    · rw [if_neg (mt compareBy_eq_zero.mp (ne_of_gt h)), compareBy]
      simp [h, lt_asymm h]

theorem compareEach_cons {x y : Janet} : compareEach compare (x :: xs) (y :: ys) =
    if compare x y = some 0 then compareEach compare xs ys else compare x y := by
  rw [compareEach]
  split
  · next h => rw [if_pos h]
  · next h => rw [if_neg h]

theorem compareEach_eq : ∀ {xs ys : List Janet}, xs.length = ys.length → compareEach compare xs ys = compareList compare xs ys
  | [], [], _ => rfl
  | [], _ :: _, h => by cases h
  | _ :: _, [], h => by cases h
  | x :: xs, y :: ys, h => by
    rw [compareEach_cons, compareList_cons, compareEach_eq (by simpa using h)]

/-- The elements up to the end of the shorter list come first. -/
theorem compareList_of_ne : ∀ {xs ys : List Janet}, compareEach compare xs ys ≠ some 0 →
    compareList compare xs ys = compareEach compare xs ys
  | [], [], h => absurd rfl h
  | [], _ :: _, h => absurd (by simp [compareEach]) h
  | _ :: _, [], h => absurd (by simp [compareEach]) h
  | x :: xs, y :: ys, h => by
    rw [compareEach_cons] at h ⊢
    rw [compareList_cons]
    by_cases hxy : compare x y = some 0
    · rw [if_pos hxy] at h ⊢
      rw [if_pos hxy, compareList_of_ne h]
    · rw [if_neg hxy, if_neg hxy]

/-- When they are alike, the shorter list comes first. -/
theorem compareList_of_zero : ∀ {xs ys : List Janet}, compareEach compare xs ys = some 0 → compareList compare xs ys =
    if xs.length ≠ ys.length then some (if xs.length > ys.length then 1 else -1) else some 0
  | [], [], _ => rfl
  | [], _ :: _, _ => by simp [compareList]
  | _ :: _, [], _ => by simp [compareList]
  | x :: xs, y :: ys, h => by
    rw [compareEach_cons] at h
    by_cases hxy : compare x y = some 0
    · rw [if_pos hxy] at h
      rw [compareList_cons, if_pos hxy, compareList_of_zero h]
      simp only [List.length_cons, ne_eq, Nat.add_right_cancel_iff, gt_iff_lt, Nat.add_lt_add_iff_right]
    · rw [if_neg hxy] at h
      exact absurd h hxy

/-- Lists that are alike, and then what follows them. -/
theorem compareList_append_of_zero (h : List.Forall₂ (fun x y => compare x y = some 0) xs ys) :
    compareList compare (xs ++ xs') (ys ++ ys') = compareList compare xs' ys' := by
  induction h with
  | nil => rfl
  | cons hxy _ ih => rw [List.cons_append, List.cons_append, compareList_cons, if_pos hxy, ih]

/-- Lists of one length that differ, whatever follows them. -/
theorem compareList_append_of_ne : ∀ {xs ys : List Janet}, xs.length = ys.length → compareList compare xs ys ≠ some 0 →
    compareList compare (xs ++ xs') (ys ++ ys') = compareList compare xs ys
  | [], [], _, h => absurd rfl h
  | [], _ :: _, hlen, _ => by cases hlen
  | _ :: _, [], hlen, _ => by cases hlen
  | x :: xs, y :: ys, hlen, h => by
    rw [compareList_cons] at h
    rw [List.cons_append, List.cons_append, compareList_cons, compareList_cons]
    by_cases hxy : compare x y = some 0
    · rw [if_pos hxy] at h
      rw [if_pos hxy, if_pos hxy, compareList_append_of_ne (by simpa using hlen) h]
    · rw [if_neg hxy, if_neg hxy]

end Lists

/-! ## Values of one type -/

/-- The payload of a boxed word. -/
def Janet.payload : Janet → Nat
  | .number _ => 0
  | .box _ p => p

section Kinds

variable {types : AbstractTypes} {heap : Heap} {n p q : Nat} {x y : Janet} {t : JanetType} {d e : Double}

theorem janetCompare_of_ne (h : janetType x ≠ janetType y) :
    janetCompare types heap n x y = compareBy (fun x => (janetType x).rawValue) x y := by
  have hne : (janetType x).rawValue ≠ (janetType y).rawValue := fun heq => h (rawValue_inj heq)
  unfold Heap.janetCompare compareBy
  rw [if_pos hne]
  rcases Nat.lt_or_gt_of_ne hne with hlt | hgt
  · simp only [hlt, if_true]
  · simp only [hgt, lt_asymm hgt, if_true, if_false]

theorem janetCompare_nil : janetCompare types heap n (.box .nil p) (.box .nil q) = some 0 := by
  unfold Heap.janetCompare
  simp only [janetType_box, ne_eq, not_true_eq_false, if_false]

theorem janetCompare_boolean : janetCompare types heap n (.box .boolean p) (.box .boolean q) =
    compareBy janetUnwrapBoolean (.box .boolean p) (.box .boolean q) := by
  unfold Heap.janetCompare compareBy
  simp only [janetType_box, ne_eq, not_true_eq_false, if_false]
  cases janetUnwrapBoolean (.box .boolean p) <;> cases janetUnwrapBoolean (.box .boolean q) <;> rfl

/-- A number is its sign and its magnitude. -/
theorem bits_of_magnitude (h : d.bits &&& 0x7FFFFFFFFFFFFFFF#64 = e.bits &&& 0x7FFFFFFFFFFFFFFF#64)
    (hsign : d.bits.msb = e.bits.msb) : d = e := by
  have hmask : ∀ i < 63, (0x7FFFFFFFFFFFFFFF#64).getLsbD i = true := by decide
  have hbits : d.bits = e.bits := by
    apply BitVec.eq_of_getLsbD_eq
    intro i hi
    by_cases h63 : i < 63
    · have hbit := congrArg (·.getLsbD i) h
      simpa only [BitVec.getLsbD_and, hmask i h63, Bool.and_true] using hbit
    · obtain rfl : i = 63 := by omega
      exact (BitVec.msb_eq_getLsbD_last d.bits).symm.trans (hsign.trans (BitVec.msb_eq_getLsbD_last e.bits))
  cases d
  cases e
  exact congrArg Double.mk hbits

/-- Numbers are equal when they stand at one place of the number line. -/
theorem equal_iff_order (hd : d.isNaN = false) (he : e.isNaN = false) : d.equal e = true ↔ d.order = e.order := by
  have hzero : ∀ {c : Double}, c.isZero = true ↔ (c.bits &&& 0x7FFFFFFFFFFFFFFF#64).toNat = 0 := fun {c} => by
    rw [Double.isZero, beq_iff_eq, ← BitVec.toNat_inj]
    rfl
  simp only [Double.equal, hd, he, Bool.not_false, Bool.true_and, Bool.or_eq_true, beq_iff_eq, Bool.and_eq_true,
    hzero, Double.order]
  constructor
  · rintro (rfl | ⟨hd0, he0⟩)
    · rfl
    · simp [hd0, he0]
  · intro h
    by_cases hd0 : (d.bits &&& 0x7FFFFFFFFFFFFFFF#64).toNat = 0
    · refine Or.inr ⟨hd0, ?_⟩
      split at h <;> split at h <;> omega
    · refine Or.inl (bits_of_magnitude (BitVec.eq_of_toNat_eq ?_) ?_)
      · split at h <;> split at h <;> omega
      · rcases Bool.eq_false_or_eq_true d.bits.msb with hsd | hsd <;>
          rcases Bool.eq_false_or_eq_true e.bits.msb with hse | hse <;>
          simp only [hsd, hse, if_true, if_false, Bool.false_eq_true] at h ⊢ <;> omega

theorem janetCompare_number (hd : d.isNaN = false) (he : e.isNaN = false) :
    janetCompare types heap n (.number d) (.number e) = compareBy Double.order d e := by
  unfold Heap.janetCompare compareBy
  simp only [janetType_number hd, janetType_number he, janetUnwrapNumber, ne_eq, not_true_eq_false, if_false,
    equal_iff_order hd he, Double.less, hd, he, Bool.not_false, Bool.true_and]
  rcases lt_trichotomy d.order e.order with h | h | h
  · simp only [h, ne_of_lt h, decide_true, if_true, if_false]
  · simp only [h, lt_irrefl, if_true, if_false]
  · simp only [h, ne_of_gt h, lt_asymm h, decide_false, Bool.false_eq_true, if_true, if_false]

theorem janetCompare_text (ht : t = .string ∨ t = .symbol ∨ t = .keyword) (hp : 0 < p) (hq : 0 < q) :
    janetCompare types heap n (.box t p) (.box t q) =
      compareList (compareBy UInt8.toNat) (heap.strings.get p) (heap.strings.get q) := by
  rw [← stringCompare_eq]
  unfold Heap.janetCompare
  rcases ht with rfl | rfl | rfl <;> simp only [janetType_box, ne_eq, not_true_eq_false, if_false, janetUnwrapString,
    janetUnwrapPointer_box, pointer_pos hp, pointer_pos hq]

theorem janetCompare_abstract (hp : 0 < p) (hq : 0 < q) :
    janetCompare types heap n (.box .abstract p) (.box .abstract q) = some (janetCompareAbstract types p q) := by
  unfold Heap.janetCompare
  simp only [janetType_box, ne_eq, not_true_eq_false, if_false, janetUnwrapAbstract, janetUnwrapPointer_box,
    pointer_pos hp, pointer_pos hq]

theorem janetCompare_address (ht : t.byAddress = true) :
    janetCompare types heap n (.box t p) (.box t q) = compareBy id p q := by
  have hget : ∀ r, (pointer r).getD 0 = r := fun r => by
    unfold pointer
    split
    · next h => exact h.symm
    · rfl
  unfold Heap.janetCompare compareBy
  simp only [janetType_box, ne_eq, not_true_eq_false, if_false, janetUnwrapPointer_box, hget, id, gt_iff_lt]
  have hby : (if p = q then some (0 : Int) else some (if q < p then 1 else -1)) =
      some (if p < q then -1 else if q < p then 1 else 0) := by
    rcases lt_trichotomy p q with h | h | h
    · simp only [h, ne_of_lt h, lt_asymm h, if_true, if_false]
    · simp only [h, lt_irrefl, if_true, if_false]
    · simp only [h, ne_of_gt h, lt_asymm h, if_true, if_false]
  cases t <;> first | exact hby | cases ht

/-- Tuples compare by their brackets, and then element by element. -/
def tupleCompare (types : AbstractTypes) (heap : Heap) (n : Nat) : JanetTuple → JanetTuple → Option Int :=
  andThen (compareBy JanetTuple.bracketed) fun t u => compareList (janetCompare types heap n) t.data u.data

theorem janetCompare_tuple (hp : 0 < p) (hq : 0 < q) : janetCompare types heap (n + 1) (.box .tuple p) (.box .tuple q) =
    tupleCompare types heap n (heap.tuples.get p) (heap.tuples.get q) := by
  unfold Heap.janetCompare tupleCompare
  simp only [janetType_box, ne_eq, not_true_eq_false, if_false, janetUnwrapTuple, janetUnwrapPointer_box,
    pointer_pos hp, pointer_pos hq]
  by_cases hb : (heap.tuples.get p).bracketed = (heap.tuples.get q).bracketed
  · rw [if_neg (not_not.mpr hb), andThen_of_zero (compareBy_eq_zero.mpr hb)]
    split
    · next heach => rw [compareList_of_zero heach]
    · next heach => rw [compareList_of_ne heach]
  · rw [if_pos hb, andThen_of_ne (mt compareBy_eq_zero.mp hb), compareBy]
    cases hp' : (heap.tuples.get p).bracketed <;> cases hq' : (heap.tuples.get q).bracketed
    · exact absurd (hp'.trans hq'.symm) hb
    · rfl
    · rfl
    · exact absurd (hp'.trans hq'.symm) hb

/-- The hash of a struct, as the signed number that structs compare by. -/
def structHash (types : AbstractTypes) (heap : Heap) (n : Nat) (s : Nat) : Int :=
  ((janetHash types heap (n + 1) (.box .struct s)).getD 0#32).toInt

/-- Structs compare by their capacities, by their hashes, and then node by node. -/
def structCompare (types : AbstractTypes) (heap : Heap) (n : Nat) : Nat → Nat → Option Int :=
  andThen (compareBy fun s => (heap.structs.get s).data.length) <|
    andThen (compareBy (structHash types heap n)) fun s u =>
      compareList (janetCompare types heap n) (heap.structNodes s) (heap.structNodes u)

theorem janetCompare_struct {h h' : BitVec 32} (hp : 0 < p) (hq : 0 < q)
    (hh : janetHash types heap (n + 1) (.box .struct p) = some h)
    (hh' : janetHash types heap (n + 1) (.box .struct q) = some h') :
    janetCompare types heap (n + 1) (.box .struct p) (.box .struct q) = structCompare types heap n p q := by
  have hkey : structHash types heap n p = h.toInt := by rw [structHash, hh]; rfl
  have hkey' : structHash types heap n q = h'.toInt := by rw [structHash, hh']; rfl
  unfold Heap.janetCompare structCompare
  simp only [janetType_box, ne_eq, not_true_eq_false, if_false, janetUnwrapStruct, janetUnwrapPointer_box,
    pointer_pos hp, pointer_pos hq, hh, hh', gt_iff_lt]
  by_cases hcap : (heap.structs.get p).data.length = (heap.structs.get q).data.length
  · have hzero : compareBy (fun s => (heap.structs.get s).data.length) p q = some 0 := compareBy_eq_zero.mpr hcap
    rw [andThen_of_zero hzero, if_neg (by omega), if_neg (by omega)]
    simp only [BitVec.slt_iff_toInt_lt]
    by_cases hhash : h.toInt = h'.toInt
    · have hzero' : compareBy (structHash types heap n) p q = some 0 :=
        compareBy_eq_zero.mpr (by rw [hkey, hkey', hhash])
      have hlen : (alternate (heap.structs.get p).data).length = (alternate (heap.structs.get q).data).length := by
        simp [alternate, hcap]
      rw [andThen_of_zero hzero', if_neg (by omega), if_neg (by omega), structNodes, structNodes, compareEach_eq hlen]
      split
      · next heach =>
        rw [compareList_append_of_zero (compareList_eq_zero.mp heach)]
        cases (heap.structs.get p).proto <;> cases (heap.structs.get q).proto
        · rfl
        · rfl
        · rfl
        · simp only [Option.map_some, Option.toList_some]
          rw [compareList_cons]
          split_ifs with hproto
          · rw [hproto]; rfl
          · rfl
      · next heach => rw [compareList_append_of_ne hlen heach]
    · have hne : compareBy (structHash types heap n) p q ≠ some 0 :=
        mt compareBy_eq_zero.mp (by rw [hkey, hkey']; exact hhash)
      rw [andThen_of_ne hne, compareBy, hkey, hkey']
      rcases lt_or_gt_of_ne hhash with hlt | hlt
      · rw [if_pos hlt, if_pos hlt]
      · rw [if_neg (by omega), if_pos hlt, if_neg (by omega), if_pos hlt]
  · have hne : compareBy (fun s => (heap.structs.get s).data.length) p q ≠ some 0 := mt compareBy_eq_zero.mp hcap
    rw [andThen_of_ne hne, compareBy]
    rcases Nat.lt_or_gt_of_ne hcap with hlt | hlt
    · rw [if_pos hlt, if_pos hlt]
    · rw [if_neg (by omega), if_pos hlt, if_neg (by omega), if_pos hlt]

end Kinds

/-! ## Hashes -/

section Hash

variable {heap : Heap} {n : Nat} {x : Janet}

theorem calchash_isSome {hash : Janet → Option (BitVec 32)} : ∀ {xs : List Janet} {h : BitVec 32},
    (∀ x ∈ xs, ∃ k, hash x = some k) → ∃ k, calchash hash h xs = some k
  | [], h, _ => ⟨h, rfl⟩
  | x :: xs, h, hall => by
    rw [List.forall_mem_cons] at hall
    obtain ⟨⟨k, hk⟩, hxs⟩ := hall
    rw [calchash, hk]
    exact calchash_isSome hxs

/-- Values that can be compared have a hash. -/
theorem Heap.Comparable.hash (types : AbstractTypes) (h : heap.Comparable n x) : ∃ k, janetHash types heap n x = some k := by
  induction h with
  | nil => exact ⟨_, by unfold Heap.janetHash; rfl⟩
  | boolean => exact ⟨_, by unfold Heap.janetHash; rfl⟩
  | number h => exact ⟨_, by unfold Heap.janetHash; rw [janetType_number h]⟩
  | string h =>
    unfold Heap.janetHash
    simp only [janetType_box, janetUnwrapString, janetUnwrapPointer_box, pointer_pos h.1]
    exact ⟨_, rfl⟩
  | interned ht h =>
    have hpos := pos_of_interned h
    unfold Heap.janetHash
    rcases ht with rfl | rfl <;>
      simp only [janetType_box, janetUnwrapString, janetUnwrapPointer_box, pointer_pos hpos] <;> exact ⟨_, rfl⟩
  | @address n p t ht =>
    unfold Heap.janetHash
    cases t <;> first | exact ⟨_, rfl⟩ | cases ht
  | abstract h =>
    unfold Heap.janetHash
    simp only [janetType_box, janetUnwrapAbstract, janetUnwrapPointer_box, pointer_pos h]
    exact ⟨_, rfl⟩
  | @tuple n p h _ ih =>
    obtain ⟨k, hk⟩ := @calchash_isSome (janetHash types heap n) _ 33#32 ih
    unfold Heap.janetHash
    simp only [janetType_box, janetUnwrapTuple, janetUnwrapPointer_box, pointer_pos h.1, hk]
    exact ⟨_, rfl⟩
  | @struct n p h _ _ ih =>
    rw [structNodes, List.forall_mem_append] at ih
    obtain ⟨k, hk⟩ := @calchash_isSome (janetHash types heap n) _ 33#32 ih.1
    unfold Heap.janetHash
    simp only [janetType_box, janetUnwrapStruct, janetUnwrapPointer_box, pointer_pos h.1, hk]
    cases hproto : (heap.structs.get p).proto with
    | none => exact ⟨_, rfl⟩
    | some q =>
      obtain ⟨k', hk'⟩ := ih.2 (janetWrapStruct q) (by rw [hproto]; simp)
      simp only [hk']
      exact ⟨_, rfl⟩

end Hash

/-! ## The order -/

section Sorts

variable {types : AbstractTypes} {heap : Heap} {n : Nat}

theorem sorts_tupleCompare (ih : Sorts (janetCompare types heap n) (heap.Comparable n)) :
    Sorts (tupleCompare types heap n) fun t => ∀ x ∈ t.data, heap.Comparable n x :=
  Sorts.by _ |>.andThen fun _ _ => (ih.list.comap JanetTuple.data).imp And.left

theorem sorts_structCompare (ih : Sorts (janetCompare types heap n) (heap.Comparable n)) :
    Sorts (structCompare types heap n) fun s => ∀ x ∈ heap.structNodes s, heap.Comparable n x :=
  Sorts.by _ |>.andThen fun _ _ => Sorts.by _ |>.andThen fun _ _ =>
    (ih.list.comap heap.structNodes).imp fun h => h.1.1

/-- **Values of one type are sorted.** -/
theorem sorts_type (hl : types.Lawful heap)
    (ih : ∀ m, n = m + 1 → Sorts (janetCompare types heap m) (heap.Comparable m)) (t : JanetType) :
    Sorts (janetCompare types heap n) fun x => heap.Comparable n x ∧ janetType x = t := by
  by_cases hnumber : t = .number
  · subst hnumber
    refine (Sorts.by fun x => (janetUnwrapNumber x).order).of_eq fun {a b} ha hb => ?_
    obtain ⟨d, rfl, hd⟩ := ha.1.of_number ha.2
    obtain ⟨e, rfl, he⟩ := hb.1.of_number hb.2
    exact janetCompare_number hd he
  · have hbox : ∀ {x}, heap.Comparable n x ∧ janetType x = t → x = .box t x.payload := fun {x} hx => by
      obtain ⟨p, hp⟩ := hx.1.of_box (hx.2 ▸ hnumber)
      rw [hp, hx.2]
      rfl
    -- it is enough to sort the payloads
    have hpayload : ∀ {cmp : Nat → Nat → Option Int} {P : Nat → Prop}, Sorts cmp P →
        (∀ {p}, heap.Comparable n (.box t p) → P p) →
        (∀ {p q}, heap.Comparable n (.box t p) → heap.Comparable n (.box t q) →
          janetCompare types heap n (.box t p) (.box t q) = cmp p q) →
        Sorts (janetCompare types heap n) fun x => heap.Comparable n x ∧ janetType x = t := by
      intro cmp P hsorts hP hcmp
      refine ((hsorts.comap Janet.payload).imp fun {a} ha => hP ?_).of_eq fun {a b} ha hb => ?_
      · exact hbox ha ▸ ha.1
      · have hca := hbox ha ▸ ha.1
        have hcb := hbox hb ▸ hb.1
        rw [← hcmp hca hcb, ← hbox ha, ← hbox hb]
    have htext : t = .string ∨ t = .symbol ∨ t = .keyword →
        Sorts (janetCompare types heap n) fun x => heap.Comparable n x ∧ janetType x = t := fun ht => by
      have ht' : t = .string ∨ t = .symbol ∨ t = .keyword ∨ t = .abstract := by
        rcases ht with h | h | h <;> simp [h]
      refine hpayload (((Sorts.by UInt8.toNat).list.comap heap.strings.get).imp fun _ _ _ => trivial)
        (fun _ => trivial) fun hp hq => janetCompare_text ht (hp.pos ht') (hq.pos ht')
    have haddress : t.byAddress = true →
        Sorts (janetCompare types heap n) fun x => heap.Comparable n x ∧ janetType x = t := fun ht =>
      hpayload (Sorts.by id) (fun _ => trivial) fun _ _ => janetCompare_address ht
    cases t with
    | number => exact absurd rfl hnumber
    | nil =>
      exact hpayload (Sorts.by fun _ => (0 : Nat)) (fun _ => trivial) fun _ _ => janetCompare_nil
    | boolean =>
      refine (Sorts.by janetUnwrapBoolean).of_eq fun {a b} ha hb => ?_
      rw [hbox ha, hbox hb]
      exact janetCompare_boolean
    | string => exact htext (Or.inl rfl)
    | symbol => exact htext (Or.inr (Or.inl rfl))
    | keyword => exact htext (Or.inr (Or.inr rfl))
    | abstract =>
      exact hpayload (hl.sorts.imp fun _ => trivial) (fun _ => trivial) fun hp hq =>
        janetCompare_abstract (hp.pos (by simp)) (hq.pos (by simp))
    | tuple =>
      cases n with
      | zero =>
        refine hpayload (Sorts.by id) (fun _ => trivial) fun hp _ => ?_
        obtain ⟨_, m, hm, _⟩ := hp.of_tuple
        cases hm
      | succ m =>
        refine hpayload ((sorts_tupleCompare (ih m rfl)).comap heap.tuples.get) (fun hp => ?_) fun hp hq =>
          janetCompare_tuple hp.of_tuple.1.1 hq.of_tuple.1.1
        obtain ⟨_, k, hk, hsub⟩ := hp.of_tuple
        obtain rfl := Nat.succ.inj hk
        exact hsub
    | struct =>
      cases n with
      | zero =>
        refine hpayload (Sorts.by id) (fun _ => trivial) fun hp _ => ?_
        obtain ⟨_, _, m, hm, _⟩ := hp.of_struct
        cases hm
      | succ m =>
        refine hpayload (sorts_structCompare (ih m rfl)) (fun hp => ?_) fun hp hq => ?_
        · obtain ⟨_, _, k, hk, hsub⟩ := hp.of_struct
          obtain rfl := Nat.succ.inj hk
          exact hsub
        · obtain ⟨h, hh⟩ := hp.hash types
          obtain ⟨h', hh'⟩ := hq.hash types
          exact janetCompare_struct hp.of_struct.1.1 hq.of_struct.1.1 hh hh'
    | _ => exact haddress rfl

/-- **`janet_compare` is a total order** on values without a NaN inside. -/
theorem sorts_janetCompare (hl : types.Lawful heap) : ∀ n, Sorts (janetCompare types heap n) (heap.Comparable n)
  | n => by
    have ih : ∀ m, n = m + 1 → Sorts (janetCompare types heap m) (heap.Comparable m) := fun m hm =>
      have : m < n := by omega
      sorts_janetCompare hl m
    refine (Sorts.andThen (Sorts.by fun x => (janetType x).rawValue) fun a _ =>
      (sorts_type hl ih (janetType a)).imp fun {b} hb => ⟨hb.1, ?_⟩).of_eq fun {a b} ha hb => ?_
    · exact (rawValue_inj (compareBy_eq_zero.mp hb.2)).symm
    · by_cases ht : janetType a = janetType b
      · exact (andThen_of_zero (compareBy_eq_zero.mpr (by rw [ht]))).symm
      · have hne : compareBy (fun x => (janetType x).rawValue) a b ≠ some 0 :=
          mt compareBy_eq_zero.mp fun h => ht (rawValue_inj h)
        rw [janetCompare_of_ne ht, andThen_of_ne hne]

end Sorts

/-! ## Abstract types without a comparison -/

/-- No type compares or hashes: the addresses decide. -/
def plainTypes : AbstractTypes := ⟨fun p q => if p > q then 1 else -1, fun _ => none⟩

theorem plainTypes_lawful {heap : Heap} (h : ∀ p q, heap.equalAbstract p q = false) : plainTypes.Lawful heap := by
  have hzero : ∀ p q, janetCompareAbstract plainTypes p q = 0 → p = q := fun p q hpq => by
    unfold janetCompareAbstract plainTypes at hpq
    by_contra hne
    rw [if_neg hne] at hpq
    simp only at hpq
    split at hpq <;> cases hpq
  refine ⟨(Sorts.by id).of_eq fun {p q} _ _ => ?_, fun p q => ?_, fun p q hpq => Or.inl (hzero p q hpq)⟩
  · unfold janetCompareAbstract plainTypes compareBy
    rcases lt_trichotomy p q with hpq | hpq | hpq <;> simp [hpq] <;> omega
  · rw [h, Bool.or_false, Bool.eq_iff_iff, beq_iff_eq, beq_iff_eq]
    refine ⟨?_, hzero p q⟩
    rintro rfl
    exact if_pos rfl

/-- The tuples `("a")` and `("b")`. -/
def twoTuples : Heap :=
  let (heap, a) := Heap.empty.janetString [97]
  let (heap, b) := heap.janetString [98]
  ((heap.allocTuple ⟨[janetWrapString a], false⟩).1.allocTuple ⟨[janetWrapString b], false⟩).1

theorem comparable_twoTuples : twoTuples.Comparable 1 (janetWrapTuple 1) ∧ twoTuples.Comparable 1 (janetWrapTuple 2) := by
  refine ⟨.tuple ⟨by decide, by decide⟩ fun x hx => ?_, .tuple ⟨by decide, by decide⟩ fun x hx => ?_⟩
  · obtain rfl := List.mem_singleton.mp hx
    exact .string ⟨by decide, by decide⟩
  · obtain rfl := List.mem_singleton.mp hx
    exact .string ⟨by decide, by decide⟩

end SwiftJanet
