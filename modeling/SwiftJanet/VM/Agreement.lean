import SwiftJanet.Lib.Assoc
import SwiftJanet.VM.Order

/-!
# Comparing, equality and hashes agree

In a heap that interns every symbol once, `janet_equals` answers yes exactly when `janet_compare` answers `0`, and then
`janet_hash` gives one hash (`agree_of_comparable`). Symbols are equal by address and are compared by their bytes;
structs are equal node by node, and are compared by their capacities and their hashes first.
-/

namespace SwiftJanet

open Lib.Comparison Heap

/-! ## Lists -/

section Lists

variable {compare : Janet → Janet → Option Int} {equals : Janet → Janet → Option Bool}
  {hash : Janet → Option (BitVec 32)} {xs ys : List Janet}

/-- What partners have in common may depend on where they come from. -/
theorem forall₂_imp_mem {A B : Type} {R S : A → B → Prop} {xs : List A} {ys : List B} (h : List.Forall₂ R xs ys)
    (himp : ∀ x ∈ xs, ∀ y ∈ ys, R x y → S x y) : List.Forall₂ S xs ys := by
  induction h with
  | nil => exact .nil
  | cons hxy _ ih =>
    refine .cons (himp _ List.mem_cons_self _ List.mem_cons_self hxy) (ih fun x hx y hy => ?_)
    exact himp x (List.mem_cons_of_mem _ hx) y (List.mem_cons_of_mem _ hy)

/-- Lists of one length are equal when they compare as `0`. -/
theorem equalsEach_agrees : ∀ {xs ys : List Janet}, xs.length = ys.length →
    (∀ x ∈ xs, ∀ y ∈ ys, equals x y = some (decide (compare x y = some 0))) →
      equalsEach equals xs ys = some (decide (compareList compare xs ys = some 0))
  | [], [], _, _ => rfl
  | [], _ :: _, h, _ => by cases h
  | _ :: _, [], h, _ => by cases h
  | x :: xs, y :: ys, hlen, h => by
    have hxy := h x List.mem_cons_self y List.mem_cons_self
    have ih := @equalsEach_agrees xs ys (by simpa using hlen) fun a ha b hb =>
      h a (List.mem_cons_of_mem _ ha) b (List.mem_cons_of_mem _ hb)
    rw [equalsEach, hxy, compareList_cons]
    by_cases hzero : compare x y = some 0
    · rw [if_pos hzero, ← ih, decide_eq_true hzero]
    · rw [if_neg hzero, decide_eq_false hzero]

theorem calchash_congr (h : List.Forall₂ (fun x y => hash x = hash y) xs ys) :
    ∀ k, calchash hash k xs = calchash hash k ys := by
  induction h with
  | nil => exact fun _ => rfl
  | cons hxy _ ih =>
    intro k
    simp only [calchash, hxy, ih]

/-- Bytes compare as `0` when they are the same. -/
theorem compareBytes_eq_zero {l r : List UInt8} : compareList (compareBy UInt8.toNat) l r = some 0 ↔ l = r := by
  rw [compareList_eq_zero]
  constructor
  · intro h
    induction h with
    | nil => rfl
    | cons hab _ ih => rw [UInt8.toNat_inj.mp (compareBy_eq_zero.mp hab), ih]
  · rintro rfl
    exact List.forall₂_same.mpr fun _ _ => compareBy_eq_zero.mpr rfl

theorem length_alternate (kvs : List JanetKV) : (alternate kvs).length = 2 * kvs.length := by
  simp [alternate, Nat.mul_comm]

/-- Keys and values in turn are alike when the cells are. -/
theorem forall₂_alternate {R : Janet → Janet → Prop} {kvs kvs' : List JanetKV} :
    List.Forall₂ R (alternate kvs) (alternate kvs') ↔
      List.Forall₂ (fun kv kv' => R kv.key kv'.key ∧ R kv.value kv'.value) kvs kvs' := Lib.Assoc.forall₂_flatMap_pair

/-- Cells that are live together hold as many entries. -/
theorem length_live_congr {kvs kvs' : List JanetKV} (h : List.Forall₂ (fun kv kv' => kv.isLive = kv'.isLive) kvs kvs') :
    (live kvs).length = (live kvs').length := by
  induction h with
  | nil => rfl
  | @cons kv kv' _ _ hkv _ ih =>
    cases hlive : kv.isLive with
    | true => simpa [live, ← hkv, hlive] using ih
    | false => simpa [live, ← hkv, hlive] using ih

end Lists

/-! ## Agreement -/

/-- `janet_equals` and `janet_hash` tell of two values what `janet_compare` tells. -/
structure Agree (types : AbstractTypes) (heap : Heap) (n : Nat) (x y : Janet) : Prop where
  equals : heap.janetEquals n x y = some (decide (janetCompare types heap n x y = some 0))
  hash : janetCompare types heap n x y = some 0 → janetHash types heap n x = janetHash types heap n y

section Agree

variable {types : AbstractTypes} {heap : Heap} {n m p q : Nat} {x y : Janet} {t : JanetType}

theorem pointer_inj : pointer p = pointer q ↔ p = q := by
  unfold pointer
  split <;> split <;> simp <;> omega

/-- Only nil passes for nil. -/
theorem Heap.Comparable.checktype (h : heap.Comparable n x) : janetChecktype x .nil = (janetType x == .nil) := by
  cases h with
  | number h => rw [janetChecktype_number h, janetType_number h]; rfl
  | _ => rw [janetChecktype_box, janetType_box]

/-- Of values that compare as `0` both are nil or neither is. -/
theorem nil_of_compare (hx : heap.Comparable n x) (hy : heap.Comparable n y)
    (h : janetCompare types heap n x y = some 0) : janetChecktype x .nil = janetChecktype y .nil := by
  have ht : janetType x = janetType y := by
    by_contra hne
    rw [janetCompare_of_ne hne] at h
    exact hne (rawValue_inj (compareBy_eq_zero.mp h))
  rw [hx.checktype, hy.checktype, ht]

/-- A symbol or a keyword is interned. -/
theorem Heap.Comparable.of_name (h : heap.Comparable n (.box t p)) (ht : t = .symbol ∨ t = .keyword) :
    p ∈ heap.symcache := by
  cases h with
  | interned _ h => exact h
  | address ht' => rcases ht with rfl | rfl <;> cases ht'
  | _ => rcases ht with ht | ht <;> cases ht

/-- Values of different types differ. -/
theorem agree_of_ne (h : janetType x ≠ janetType y) : Agree types heap n x y := by
  have hne : janetCompare types heap n x y ≠ some 0 := by
    rw [janetCompare_of_ne h]
    exact mt compareBy_eq_zero.mp fun h' => h (rawValue_inj h')
  refine ⟨?_, fun hzero => absurd hzero hne⟩
  rw [janetEquals_of_type_ne h, decide_eq_false hne]

theorem agree_nil : Agree types heap n (.box .nil p) (.box .nil q) := by
  refine ⟨?_, fun _ => ?_⟩
  · rw [janetCompare_nil, Heap.janetEquals.eq_def]
    simp [janetType_box]
  · unfold Heap.janetHash
    simp only [janetType_box]

theorem agree_boolean : Agree types heap n (.box .boolean p) (.box .boolean q) := by
  refine ⟨?_, fun hzero => ?_⟩
  · rw [janetCompare_boolean, Heap.janetEquals.eq_def]
    simp only [janetType_box, ne_eq, not_true_eq_false, if_false, compareBy_eq_zero]
    rfl
  · rw [janetCompare_boolean, compareBy_eq_zero] at hzero
    unfold Heap.janetHash
    simp only [janetType_box, hzero]

/-- Numbers at one place of the number line are the same once `0.0` is added. -/
theorem plusZero_of_equal {d e : Double} (hd : d.isNaN = false) (he : e.isNaN = false) (h : d.equal e = true) :
    d.plusZero = e.plusZero := by
  simp only [Double.equal, hd, he, Bool.not_false, Bool.true_and, Bool.or_eq_true, beq_iff_eq, Bool.and_eq_true] at h
  rcases h with rfl | ⟨hd0, he0⟩
  · rfl
  · rw [Double.plusZero, Double.plusZero, hd0, he0]
    rfl

theorem agree_number {d e : Double} (hd : d.isNaN = false) (he : e.isNaN = false) :
    Agree types heap n (.number d) (.number e) := by
  have hiff : janetCompare types heap n (.number d) (.number e) = some 0 ↔ d.equal e = true := by
    rw [janetCompare_number hd he, compareBy_eq_zero, equal_iff_order hd he]
  refine ⟨?_, fun hzero => ?_⟩
  · rw [← janetWrapNumber, ← janetWrapNumber, janetEquals_number hd he]
    simp only [janetWrapNumber, hiff, Bool.decide_eq_true]
  · unfold Heap.janetHash
    simp only [janetType_number hd, janetType_number he, janetUnwrapNumber, plusZero_of_equal hd he (hiff.mp hzero)]

/-- The hash of what is hashed by its bytes. -/
theorem janetHash_text (ht : t = .string ∨ t = .symbol ∨ t = .keyword) (hp : 0 < p) :
    janetHash types heap n (.box t p) = some (janetStringCalchash (heap.strings.get p)) := by
  unfold Heap.janetHash
  rcases ht with rfl | rfl | rfl <;>
    simp only [janetType_box, janetUnwrapString, janetUnwrapPointer_box, pointer_pos hp, Option.map_some]

theorem agree_string (hp : 0 < p) (hq : 0 < q) : Agree types heap n (.box .string p) (.box .string q) := by
  have hiff : janetCompare types heap n (.box .string p) (.box .string q) = some 0 ↔
      heap.strings.get p = heap.strings.get q := by
    rw [janetCompare_text (Or.inl rfl) hp hq, compareBytes_eq_zero]
  refine ⟨?_, fun hzero => ?_⟩
  · rw [← janetWrapString, ← janetWrapString, janetEquals_string hp hq, Heap.janetStringEqual]
    simp only [janetWrapString, hiff]
    by_cases hpq : p = q
    · simp [hpq]
    · rw [beq_eq_false_iff_ne.mpr hpq, Bool.false_or, beq_eq_decide]
  · rw [janetHash_text (Or.inl rfl) hp, janetHash_text (Or.inl rfl) hq, hiff.mp hzero]

/-- The test of `janet_equals` on what it compares by address. -/
theorem janetEquals_pointer (ht : t.byAddress = true ∨ t = .symbol ∨ t = .keyword) :
    heap.janetEquals n (.box t p) (.box t q) = some (p == q) := by
  have hpq : (pointer p == pointer q) = (p == q) := by
    rw [Bool.eq_iff_iff, beq_iff_eq, beq_iff_eq, pointer_inj]
  rw [Heap.janetEquals.eq_def, ← hpq]
  cases t <;> first | exact absurd ht (by decide) | simp [janetType_box]

/-- Symbols are interned: the addresses agree with the bytes. -/
theorem agree_name (hi : heap.Interned) (ht : t = .symbol ∨ t = .keyword) (hp : p ∈ heap.symcache)
    (hq : q ∈ heap.symcache) : Agree types heap n (.box t p) (.box t q) := by
  have hpos := pos_of_interned hp
  have hpos' := pos_of_interned hq
  have htext : t = .string ∨ t = .symbol ∨ t = .keyword := Or.inr ht
  have hiff : janetCompare types heap n (.box t p) (.box t q) = some 0 ↔ p = q := by
    rw [janetCompare_text htext hpos hpos', compareBytes_eq_zero]
    exact ⟨hi.unique hp hq, fun h => congrArg heap.strings.get h⟩
  refine ⟨?_, fun hzero => by rw [hiff.mp hzero]⟩
  simp only [janetEquals_pointer (Or.inr ht), hiff, beq_eq_decide]

theorem agree_address (ht : t.byAddress = true) : Agree types heap n (.box t p) (.box t q) := by
  have hiff : janetCompare types heap n (.box t p) (.box t q) = some 0 ↔ p = q := by
    rw [janetCompare_address ht, compareBy_eq_zero, id, id]
  refine ⟨?_, fun hzero => by rw [hiff.mp hzero]⟩
  simp only [janetEquals_pointer (Or.inl ht), hiff, beq_eq_decide]

theorem agree_abstract (hl : types.Lawful heap) (hp : 0 < p) (hq : 0 < q) :
    Agree types heap n (.box .abstract p) (.box .abstract q) := by
  have hequal := hl.equal p q
  refine ⟨?_, fun hzero => ?_⟩
  · rw [Heap.janetEquals.eq_def]
    simp only [janetType_box, janetUnwrapAbstract, janetUnwrapPointer_box, pointer_pos hp, pointer_pos hq, ne_eq,
      not_true_eq_false, if_false, janetCompare_abstract hp hq, Option.some.injEq]
    rw [hequal, beq_eq_decide]
  · rw [janetCompare_abstract hp hq, Option.some.injEq] at hzero
    unfold Heap.janetHash
    simp only [janetType_box, janetUnwrapAbstract, janetUnwrapPointer_box, pointer_pos hp, pointer_pos hq]
    rcases hl.hash p q hzero with rfl | ⟨h, hh, hh'⟩
    · rfl
    · simp only [hh, hh', Option.getD_some]

theorem janetHash_tuple (hp : 0 < p) : janetHash types heap (n + 1) (.box .tuple p) =
    (calchash (janetHash types heap n) 33#32 (heap.tuples.get p).data).map fun hash =>
      hash + if (heap.tuples.get p).bracketed then 1#32 else 0#32 := by
  have hunwrap : janetUnwrapTuple (.box .tuple p) = some p := pointer_pos hp
  rw [Heap.janetHash.eq_def]
  simp only [janetType_box, hunwrap]
  cases calchash (janetHash types heap n) 33#32 (heap.tuples.get p).data <;> rfl

theorem agree_tuple (hl : types.Lawful heap)
    (ih : ∀ {x y}, heap.Comparable n x → heap.Comparable n y → Agree types heap n x y)
    (hx : heap.Comparable (n + 1) (.box .tuple p)) (hy : heap.Comparable (n + 1) (.box .tuple q)) :
    Agree types heap (n + 1) (.box .tuple p) (.box .tuple q) := by
  have hself := (sorts_janetCompare hl (n + 1)).refl hx
  obtain ⟨⟨hp, _⟩, k, hk, hxsub⟩ := hx.of_tuple
  obtain rfl := Nat.succ.inj hk
  obtain ⟨⟨hq, _⟩, k', hk', hysub⟩ := hy.of_tuple
  obtain rfl := Nat.succ.inj hk'
  -- the comparison is zero when the brackets and all elements are alike
  have hiff : janetCompare types heap (n + 1) (.box .tuple p) (.box .tuple q) = some 0 ↔
      (heap.tuples.get p).bracketed = (heap.tuples.get q).bracketed ∧
        compareList (janetCompare types heap n) (heap.tuples.get p).data (heap.tuples.get q).data = some 0 := by
    rw [janetCompare_tuple hp hq, tupleCompare, andThen_eq_zero, compareBy_eq_zero]
  refine ⟨?_, fun hzero => ?_⟩
  · have hequals := @janetEquals_tuple heap n p q hp hq
    rw [janetWrapTuple, janetWrapTuple] at hequals
    rw [hequals]
    split
    · next hpq => rw [← hpq, decide_eq_true hself]
    · simp only [hiff, Heap.tupleHeadsEqual, Bool.and_eq_true, beq_iff_eq]
      split
      · next hheads =>
        rw [equalsEach_agrees hheads.2 fun x hx y hy => (ih (hxsub x hx) (hysub y hy)).equals]
        simp only [hheads.1, true_and]
      · next hheads =>
        rw [decide_eq_false]
        rintro ⟨hb, hdata⟩
        exact hheads ⟨hb, (compareList_eq_zero.mp hdata).length_eq⟩
  · obtain ⟨hb, hdata⟩ := hiff.mp hzero
    have hhash : List.Forall₂ (fun x y => janetHash types heap n x = janetHash types heap n y)
        (heap.tuples.get p).data (heap.tuples.get q).data :=
      forall₂_imp_mem (compareList_eq_zero.mp hdata) fun x hx y hy => (ih (hxsub x hx) (hysub y hy)).hash
    rw [janetHash_tuple hp, janetHash_tuple hq, calchash_congr hhash, hb]

theorem janetHash_struct (hp : 0 < p) : janetHash types heap (n + 1) (.box .struct p) =
    (calchash (janetHash types heap n) 33#32 (alternate (heap.structs.get p).data)).bind fun hash =>
      match (heap.structs.get p).proto with
      | none => some hash
      | some proto => (janetHash types heap n (janetWrapStruct proto)).map fun h => hash + 2654435761#32 * h := by
  have hunwrap : janetUnwrapStruct (.box .struct p) = some p := pointer_pos hp
  rw [Heap.janetHash.eq_def]
  simp only [janetType_box, hunwrap]
  cases calchash (janetHash types heap n) 33#32 (alternate (heap.structs.get p).data) with
  | none => rfl
  | some hash =>
    cases (heap.structs.get p).proto with
    | none => rfl
    | some proto => cases h : janetHash types heap n (janetWrapStruct proto) <;> simp [h]

/-- Nodes are alike when the cells are, and the prototypes: both structs have one or neither has. -/
theorem forall₂_structNodes {R : Janet → Janet → Prop} :
    List.Forall₂ R (heap.structNodes p) (heap.structNodes q) ↔
      List.Forall₂ (fun kv kv' => R kv.key kv'.key ∧ R kv.value kv'.value) (heap.structs.get p).data
          (heap.structs.get q).data ∧
        Option.Rel (fun proto proto' => R (janetWrapStruct proto) (janetWrapStruct proto'))
          (heap.structs.get p).proto (heap.structs.get q).proto := by
  rw [structNodes, structNodes, ← forall₂_alternate]
  generalize (heap.structs.get p).proto = proto
  generalize (heap.structs.get q).proto = proto'
  constructor
  · intro h
    have hcap : (alternate (heap.structs.get p).data).length = (alternate (heap.structs.get q).data).length := by
      have hlen := h.length_eq
      simp only [List.length_append, length_alternate] at hlen ⊢
      cases proto <;> cases proto' <;>
        simp only [Option.map_none, Option.map_some, Option.toList_none, Option.toList_some, List.length_nil,
          List.length_cons] at hlen <;> omega
    have htake := List.forall₂_take_append _ _ _ h
    have hdrop := List.forall₂_drop_append _ _ _ h
    rw [← hcap, List.take_left] at htake
    rw [← hcap, List.drop_left] at hdrop
    refine ⟨htake, ?_⟩
    cases proto <;> cases proto'
    · exact .none
    · cases hdrop
    · cases hdrop
    · exact .some (List.forall₂_cons.mp hdrop).1
  · rintro ⟨hdata, hproto⟩
    refine List.rel_append hdata ?_
    cases hproto with
    | none => exact .nil
    | some h => exact .cons h .nil

/-- The hashes of structs with nodes alike. -/
theorem structHash_congr (hp : 0 < p) (hq : 0 < q)
    (h : List.Forall₂ (fun x y => janetHash types heap n x = janetHash types heap n y) (heap.structNodes p)
      (heap.structNodes q)) :
    janetHash types heap (n + 1) (.box .struct p) = janetHash types heap (n + 1) (.box .struct q) := by
  obtain ⟨hdata, hproto⟩ := forall₂_structNodes.mp h
  rw [janetHash_struct hp, janetHash_struct hq, calchash_congr (forall₂_alternate.mpr hdata)]
  congr 1
  funext hash
  generalize (heap.structs.get p).proto = proto at hproto
  generalize (heap.structs.get q).proto = proto' at hproto
  cases hproto with
  | none => rfl
  | some hproto => simp only [hproto]

/-- Structs compare as `0` when their nodes do, which gives them one hash and one capacity. -/
theorem compareStruct_eq_zero (ih : ∀ {x y}, heap.Comparable n x → heap.Comparable n y → Agree types heap n x y)
    (hx : heap.Comparable (n + 1) (.box .struct p)) (hy : heap.Comparable (n + 1) (.box .struct q)) :
    (compareList (janetCompare types heap n) (heap.structNodes p) (heap.structNodes q) = some 0 →
      janetHash types heap (n + 1) (.box .struct p) = janetHash types heap (n + 1) (.box .struct q)) ∧
    (janetCompare types heap (n + 1) (.box .struct p) (.box .struct q) = some 0 ↔
      compareList (janetCompare types heap n) (heap.structNodes p) (heap.structNodes q) = some 0) := by
  obtain ⟨h, hh⟩ := hx.hash types
  obtain ⟨h', hh'⟩ := hy.hash types
  obtain ⟨⟨hp, _⟩, _, k, hk, hxsub⟩ := hx.of_struct
  obtain rfl := Nat.succ.inj hk
  obtain ⟨⟨hq, _⟩, _, k', hk', hysub⟩ := hy.of_struct
  obtain rfl := Nat.succ.inj hk'
  have hhash : compareList (janetCompare types heap n) (heap.structNodes p) (heap.structNodes q) = some 0 →
      janetHash types heap (n + 1) (.box .struct p) = janetHash types heap (n + 1) (.box .struct q) := fun hnodes =>
    structHash_congr hp hq <|
      forall₂_imp_mem (compareList_eq_zero.mp hnodes) fun x hx y hy => (ih (hxsub x hx) (hysub y hy)).hash
  refine ⟨hhash, ?_⟩
  rw [janetCompare_struct hp hq hh hh', structCompare, andThen_eq_zero, andThen_eq_zero, compareBy_eq_zero,
    compareBy_eq_zero]
  refine ⟨fun h => h.2.2, fun hnodes => ⟨?_, ?_, hnodes⟩⟩
  · exact (forall₂_structNodes.mp (compareList_eq_zero.mp hnodes)).1.length_eq
  · rw [structHash, structHash, hhash hnodes]

theorem agree_struct (hl : types.Lawful heap)
    (ih : ∀ {x y}, heap.Comparable n x → heap.Comparable n y → Agree types heap n x y)
    (hx : heap.Comparable (n + 1) (.box .struct p)) (hy : heap.Comparable (n + 1) (.box .struct q)) :
    Agree types heap (n + 1) (.box .struct p) (.box .struct q) := by
  have hself := (sorts_janetCompare hl (n + 1)).refl hx
  obtain ⟨hhash, hiff⟩ := compareStruct_eq_zero ih hx hy
  obtain ⟨⟨hp, _⟩, hbuilt, k, hk, hxsub⟩ := hx.of_struct
  obtain rfl := Nat.succ.inj hk
  obtain ⟨⟨hq, _⟩, hbuilt', k', hk', hysub⟩ := hy.of_struct
  obtain rfl := Nat.succ.inj hk'
  refine ⟨?_, fun hzero => hhash (hiff.mp hzero)⟩
  have hequals := @janetEquals_struct heap n p q hp hq
  rw [janetWrapStruct, janetWrapStruct] at hequals
  rw [hequals]
  split
  · next hpq => rw [← hpq, decide_eq_true hself]
  · simp only [hiff, Heap.structHeadsEqual, Bool.and_eq_true, beq_iff_eq]
    split
    · next hheads =>
      -- structs of one length have one capacity
      have hcap : (heap.structs.get p).data.length = (heap.structs.get q).data.length := by
        rw [hbuilt.capacity, hbuilt'.capacity, hheads.1]
      have hlen : (heap.structNodes p).length = (heap.structNodes q).length := by
        have hproto := hheads.2
        rw [structNodes, structNodes, List.length_append, List.length_append, length_alternate, length_alternate, hcap]
        generalize (heap.structs.get p).proto = proto at hproto
        generalize (heap.structs.get q).proto = proto' at hproto
        cases proto <;> cases proto' <;> first | rfl | cases hproto
      exact equalsEach_agrees hlen fun x hx y hy => (ih (hxsub x hx) (hysub y hy)).equals
    · next hheads =>
      rw [decide_eq_false]
      intro hnodes
      have hnil := forall₂_imp_mem (compareList_eq_zero.mp hnodes) fun x hx y hy => nil_of_compare (hxsub x hx) (hysub y hy)
      obtain ⟨hdata, hproto⟩ := forall₂_structNodes.mp hnil
      refine hheads ⟨?_, ?_⟩
      · rw [hbuilt.length, hbuilt'.length]
        refine congrArg Nat.cast (length_live_congr (hdata.imp fun kv kv' h => ?_))
        rw [JanetKV.isLive, JanetKV.isLive, h.1]
      · generalize (heap.structs.get p).proto = proto at hproto
        generalize (heap.structs.get q).proto = proto' at hproto
        cases hproto <;> rfl

/-- **`janet_equals`, `janet_compare` and `janet_hash` agree** on values without a NaN inside. -/
theorem agree_of_comparable (hl : types.Lawful heap) (hi : heap.Interned) :
    ∀ n {x y : Janet}, heap.Comparable n x → heap.Comparable n y → Agree types heap n x y
  | n, x, y, hx, hy => by
    by_cases ht : janetType x = janetType y
    · by_cases hnumber : janetType x = .number
      · obtain ⟨d, rfl, hd⟩ := hx.of_number hnumber
        obtain ⟨e, rfl, he⟩ := hy.of_number (ht.symm.trans hnumber)
        exact agree_number hd he
      · obtain ⟨q, hq⟩ := hy.of_box (ht ▸ hnumber)
        rw [← ht] at hq
        subst hq
        cases hx with
        | nil => exact agree_nil
        | boolean => exact agree_boolean
        | number h => exact absurd (janetType_number h) hnumber
        | string h => exact agree_string h.1 (hy.pos (Or.inl rfl))
        | interned ht' h => exact agree_name hi ht' h (hy.of_name ht')
        | address ht' => exact agree_address ht'
        | abstract h => exact agree_abstract hl h (hy.pos (by simp))
        | @tuple m p h hsub =>
          exact agree_tuple hl (fun hx hy => agree_of_comparable hl hi m hx hy) (.tuple h hsub) hy
        | @struct m p h hbuilt hsub =>
          exact agree_struct hl (fun hx hy => agree_of_comparable hl hi m hx hy) (.struct h hbuilt hsub) hy
    · exact agree_of_ne ht

/-- **One order, one equality, one hash**: `janet_compare` answers the sign of a total order, `janet_equals` says whether
that is `0`, and values of which it is `0` have one hash. -/
theorem compare_equals_hash (hl : types.Lawful heap) (hi : heap.Interned) {z : Janet} (hx : heap.Comparable n x)
    (hy : heap.Comparable n y) (hz : heap.Comparable n z) :
    ∃ c d e : Int, janetCompare types heap n x y = some c ∧ janetCompare types heap n y z = some d ∧
      janetCompare types heap n x z = some e ∧ (c = -1 ∨ c = 0 ∨ c = 1) ∧
      janetCompare types heap n y x = some (-c) ∧ heap.janetEquals n x y = some (decide (c = 0)) ∧
      (∃ k, janetHash types heap n x = some k ∧ (c = 0 → janetHash types heap n y = some k)) ∧
      (0 ≤ c → 0 ≤ d → 0 ≤ e ∧ (e = 0 → c = 0 ∧ d = 0)) := by
  have hs := sorts_janetCompare hl n
  have hagree := agree_of_comparable hl hi n hx hy
  obtain ⟨c, hc, hsign⟩ : ∃ c, janetCompare types heap n x y = some c ∧ (c = -1 ∨ c = 0 ∨ c = 1) := by
    rcases hs.answers hx hy with h | h | h <;> exact ⟨_, h, by simp⟩
  obtain ⟨d, hd, hsign'⟩ : ∃ d, janetCompare types heap n y z = some d ∧ (d = -1 ∨ d = 0 ∨ d = 1) := by
    rcases hs.answers hy hz with h | h | h <;> exact ⟨_, h, by simp⟩
  obtain ⟨k, hk⟩ := hx.hash types
  have htrans : ∃ e, janetCompare types heap n x z = some e ∧ (0 ≤ c → 0 ≤ d → 0 ≤ e ∧ (e = 0 → c = 0 ∧ d = 0)) := by
    rcases hsign with rfl | rfl | rfl
    · rcases hs.answers hx hz with h | h | h <;> exact ⟨_, h, fun hn => absurd hn (by decide)⟩
    · exact ⟨d, (hs.congr hx hy hz hc).trans hd, fun _ hn => ⟨hn, fun he => ⟨rfl, he⟩⟩⟩
    · rcases hsign' with rfl | rfl | rfl
      · rcases hs.answers hx hz with h | h | h <;> exact ⟨_, h, fun _ hn => absurd hn (by decide)⟩
      · exact ⟨1, hs.trans_congr hx hy hz hc hd, fun _ _ => by simp⟩
      · exact ⟨1, hs.trans hx hy hz hc hd, fun _ _ => by simp⟩
  obtain ⟨e, he, htrans⟩ := htrans
  refine ⟨c, d, e, hc, hd, he, hsign, hs.swap hx hy hc, ?_, ⟨k, hk, fun h0 => ?_⟩, htrans⟩
  · rw [hagree.equals, hc]
    simp
  · rw [← hagree.hash (by rw [hc, h0]), hk]

end Agree

theorem compare_equals_hash_twoTuples :
    ∃ c d e : Int, twoTuples.janetCompare plainTypes 1 (janetWrapTuple 1) (janetWrapTuple 2) = some c ∧
      twoTuples.janetCompare plainTypes 1 (janetWrapTuple 2) (janetWrapTuple 2) = some d ∧
      twoTuples.janetCompare plainTypes 1 (janetWrapTuple 1) (janetWrapTuple 2) = some e ∧ (c = -1 ∨ c = 0 ∨ c = 1) ∧
      twoTuples.janetCompare plainTypes 1 (janetWrapTuple 2) (janetWrapTuple 1) = some (-c) ∧
      twoTuples.janetEquals 1 (janetWrapTuple 1) (janetWrapTuple 2) = some (decide (c = 0)) ∧
      (∃ k, twoTuples.janetHash plainTypes 1 (janetWrapTuple 1) = some k ∧
        (c = 0 → twoTuples.janetHash plainTypes 1 (janetWrapTuple 2) = some k)) ∧
      (0 ≤ c → 0 ≤ d → 0 ≤ e ∧ (e = 0 → c = 0 ∧ d = 0)) := by
  have hi : twoTuples.Interned := List.Pairwise.nil
  exact compare_equals_hash (plainTypes_lawful fun _ _ => rfl) hi comparable_twoTuples.1 comparable_twoTuples.2
    comparable_twoTuples.2

end SwiftJanet
