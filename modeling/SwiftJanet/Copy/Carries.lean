import SwiftJanet.Copy.Region
import SwiftJanet.Copy.Scalars
import SwiftJanet.Copy.Tree

/-!
# Raw values that carry Swift values

`Carries code base top heap v raw`: in `heap`, `raw` spells out `v`, in containers that were made after `base` and
before `top`. A NaN is carried by its own word, whatever that reads as, so a raw value may carry several values that are
not equal. What tells raw values apart is then where they were made.

- `Carries.toldApart`: of two raw values with containers of their own, `janet_equals` says what the Swift values say,
  when the numbers inside are untagged;
- `Carries.expands`: copying then finds the value again, up to the order of entries.
-/

namespace SwiftJanet

open Lib JanetValue

/-! ## The relation -/

/-- `raw` carries the value in the heap, in containers made after `base` and before `top`. -/
inductive Carries (code : DictionaryCode) (base top heap : Heap) : JanetValue → Janet → Prop
  | leaf {v : JanetValue} {raw : Janet} (h : heap.RepresentsLeaf v raw) : Carries code base top heap v raw
  | nan {d : Double} (h : d.isNaN = true) : Carries code base top heap (.number d) (janetWrapNumber d)
  | container {v : JanetValue} {c : Container} {raws : List Janet} (hk : c.isKindOf v = true) (hs : base.Since top c)
      (ho : heap.Owns base.tables.next c) (hsp : heap.Spells code c raws) (hlen : v.parts.length = raws.length)
      (h : ∀ p ∈ v.parts.zip raws, Carries code base top heap p.1 p.2) : Carries code base top heap v c.word

variable {code : DictionaryCode} {base top heap base' top' heap' : Heap} {v w : JanetValue} {raw a b : Janet}
  {n p q : Nat}

/-- A container that is there has an address, and a table one from `base` on. -/
theorem Heap.Since.owns {c : Container} (h : base.Since heap c) : heap.Owns base.tables.next c := by
  cases c with
  | tuple p => exact ⟨Nat.lt_of_lt_of_le base.tuples.pos h.1, h.2⟩
  | array p => exact ⟨Nat.lt_of_lt_of_le base.arrays.pos h.1, h.2⟩
  | struct p => exact ⟨Nat.lt_of_lt_of_le base.structs.pos h.1, h.2⟩
  | table p => exact ⟨h.1, Nat.lt_of_lt_of_le base.tables.pos h.1, h.2⟩

/-- A number that is no NaN is untagged. -/
theorem untagged_of_not_nan {d : Double} (h : d.isNaN = false) : d.Untagged := fun hd => (nomatch h.symm.trans hd)

theorem Carries.number (d : Double) : Carries code base top heap (.number d) (janetWrapNumber d) := by
  cases hd : d.isNaN with
  | true => exact .nan hd
  | false => exact .leaf (.number hd)

theorem Carries.type_eq (h : Carries code base top heap v raw) (hu : UntaggedNumbers v) :
    janetType raw = v.rawType := by
  cases h with
  | leaf h => exact (Represents.leaf h : Represents code heap 0 v raw).type_eq
  | nan => exact janetType_eq_number.mpr hu
  | @container v c raws hk _ _ _ _ _ => cases c <;> cases v <;> first | rfl | cases hk

theorem Carries.checktype_eq (h : Carries code base top heap v raw) (hu : UntaggedNumbers v) (t : JanetType) :
    janetChecktype raw t = (janetType raw == t) := by
  cases h with
  | leaf h => exact (Represents.leaf h : Represents code heap 0 v raw).checktype_eq t
  | nan =>
    rw [janetWrapNumber, janetChecktype_untagged hu, janetType_eq_number.mpr hu]
    exact Bool.beq_comm
  | @container v c raws _ _ _ _ _ _ => cases c <;> exact janetChecktype_box _ _ _

/-- Pairs of values that are carried. -/
theorem forall₂_carries {vs : List JanetValue} {raws : List Janet} (hlen : vs.length = raws.length)
    (h : ∀ p ∈ vs.zip raws, Carries code base top heap p.1 p.2) : List.Forall₂ (Carries code base top heap) vs raws :=
  List.forall₂_iff_zip.mpr ⟨hlen, fun {x y} hxy => h (x, y) hxy⟩

/-! ## Frames -/

/-- **Changes of a table from before keep what is carried.** -/
theorem Carries.frame (h : Carries code base top heap v raw) (hx : heap.Extends p heap') (hp : p < base.tables.next) :
    Carries code base top heap' v raw := by
  induction h with
  | leaf h => exact .leaf (h.frame hx.toFrozen)
  | nan h => exact .nan h
  | container hk hs ho hsp hlen _ ih => exact .container hk hs (ho.frame hx) (hsp.frame ho hx hp) hlen ih

/-- The containers may as well have been made between an earlier and a later heap. -/
theorem Carries.widen (h : Carries code base top heap v raw) (hb : base'.Extends p base) (ht : top.Extends q top') :
    Carries code base' top' heap v raw := by
  induction h with
  | leaf h => exact .leaf h
  | nan h => exact .nan h
  | @container v c raws hk hs ho hsp hlen _ ih =>
    refine .container hk ((hs.mono hb).frame ht) ?_ hsp hlen ih
    cases c with
    | table q => exact ⟨Nat.le_trans hb.tables.next_le ho.1, ho.2⟩
    | _ => exact ho

/-- What is carried now is carried later. -/
theorem Carries.later (h : Carries code base heap heap v raw) (hx : heap.Extends p heap') (hp : p < base.tables.next) :
    Carries code base heap' heap' v raw :=
  (h.frame hx hp).widen (@Heap.Extends.refl base 0) hx

/-! ## `janet_equals` -/

section Equals

variable [CanonicalForm]

omit [CanonicalForm] in
theorem janetEquals_untagged {c d : Double} (hc : c.Untagged) (hd : d.Untagged) :
    heap.janetEquals n (janetWrapNumber c) (janetWrapNumber d) = some (c.equal d) := by
  rw [Heap.janetEquals.eq_def]
  simp only [janetWrapNumber, janetType_eq_number.mpr hc, janetType_eq_number.mpr hd, janetUnwrapNumber, ne_eq,
    not_true_eq_false, if_false]

omit [CanonicalForm] in
/-- Raw values of one type carry leaves, or containers. -/
theorem Carries.isLeaf_congr (h : Carries code base top heap v a) (hu : UntaggedNumbers v)
    (h' : Carries code base' top' heap w b) (hu' : UntaggedNumbers w) (ht : janetType a = janetType b) :
    v.isLeaf = w.isLeaf := by
  rw [isLeaf_eq, isLeaf_eq, ← h.type_eq hu, ← h'.type_eq hu', ht]

/-- A number and what has its type. -/
theorem Carries.answer_number {c : Double} (hc : c.Untagged) (h : Carries code base top heap w b)
    (hu : UntaggedNumbers w) (ht : janetType (janetWrapNumber c) = janetType b) :
    Answer heap n (.number c) w (janetWrapNumber c) b := by
  have hnumber : (.number : JanetType) = w.rawType := (janetType_eq_number.mpr hc).symm.trans (ht.trans (h.type_eq hu))
  cases w with
  | number d =>
    have hd : b = janetWrapNumber d := by
      cases h with
      | leaf h => cases h with | number h => rfl
      | nan => rfl
      | @container _ c _ hk _ _ _ _ _ => cases c <;> cases hk
    obtain rfl := hd
    exact ⟨_, janetEquals_untagged hc hu, fun h => h⟩
  | _ => cases hnumber

/-- **With containers of their own, `janet_equals` has an answer on raw values, which is yes only for equal values.** -/
theorem Carries.answers (h : Carries code base top heap v a) (hn : v.depth ≤ n) (hu : All UntaggedNumbers v)
    (h' : Carries code base' top' heap w b) (hu' : All UntaggedNumbers w)
    (hdisj : ∀ c, base.Since top c → ¬base'.Since top' c) : Answer heap n v w a b := by
  by_cases ht : janetType a = janetType b
  swap
  · exact ⟨false, janetEquals_of_type_ne ht, fun h => (nomatch h)⟩
  induction h generalizing n w b with
  | @leaf v a ha =>
    have hleaf := (Carries.leaf ha : Carries code base top heap v a).isLeaf_congr hu.here h' hu'.here ht
    cases h' with
    | leaf hb => exact answer_leaf ha hb ht
    | @nan d hnan =>
      cases ha with
      | number hc =>
        exact (Carries.nan hnan : Carries code base' top' heap _ _).answer_number (untagged_of_not_nan hc) hu'.here ht
      | _ => rw [show janetType (janetWrapNumber d) = .number from janetType_eq_number.mpr hu'.here] at ht; cases ht
    | container hk hs ho hsp hlen hsub =>
      rw [ha.isLeaf, isLeaf_of_isKindOf hk] at hleaf
      cases hleaf
  | nan => exact h'.answer_number hu.here hu'.here ht
  | @container v c raws hk hs ho hsp hlen hsub ih =>
    have hleaf := (Carries.container hk hs ho hsp hlen hsub : Carries code base top heap v c.word).isLeaf_congr hu.here
      h' hu'.here ht
    rw [isLeaf_of_isKindOf hk] at hleaf
    cases h' with
    | leaf hb =>
      rw [hb.isLeaf] at hleaf
      cases hleaf
    | nan => cases hleaf
    | @container w d raws' hk' hs' ho' hsp' hlen' hsub' =>
      obtain ⟨m, hm⟩ := depth_of_isKindOf hk
      obtain ⟨n, rfl⟩ : ∃ n', n = n' + 1 := ⟨n - 1, by omega⟩
      have hparts : List.Forall₂ (fun x r => (Carries code base top heap x r ∧ UntaggedNumbers x) ∧ ∀ {y s},
          Carries code base' top' heap y s → All UntaggedNumbers y → Answer heap n x y r s) v.parts raws := by
        refine List.forall₂_iff_zip.mpr ⟨hlen, fun {x r} hxr => ?_⟩
        have hx : x ∈ v.parts := (List.of_mem_zip hxr).1
        refine ⟨⟨hsub _ hxr, (hu.part hx).here⟩, fun {y s} hy hyu => ?_⟩
        by_cases htype : janetType r = janetType s
        · exact ih (x, r) hxr (depth_parts hn x hx) (hu.part hx) hy hyu htype
        · exact ⟨false, janetEquals_of_type_ne htype, fun h => (nomatch h)⟩
      have hparts' : List.Forall₂ (fun y s => Carries code base' top' heap y s ∧ All UntaggedNumbers y) w.parts raws' :=
        List.forall₂_iff_zip.mpr ⟨hlen', fun {y s} hys => ⟨hsub' _ hys, hu'.part (List.of_mem_zip hys).1⟩⟩
      exact answer_container hk hk' ho ho' (fun h => absurd (h ▸ hs') (hdisj c hs)) hsp hsp' hparts hparts'
        (fun h => h.1.1.checktype_eq h.1.2 .nil) fun _ _ _ _ _ _ hx hy => hx.2 hy.1 hy.2

/-- **Different values are told apart**, in containers of their own. -/
theorem Carries.toldApart (h : Carries code base top heap v a) (hv : Lawful v) (hu : All UntaggedNumbers v)
    (h' : Carries code base' top' heap w b) (hw : Lawful w) (hu' : All UntaggedNumbers w)
    (hdisj : ∀ c, base.Since top c → ¬base'.Since top' c) (hne : equal v w = false) : heap.ToldApart a b :=
  toldApart_of_answers hv hw (fun _ hn => h.answers hn hu h' hu' hdisj)
    (fun _ hn => h'.answers hn hu' h hu fun c hc' hc => hdisj c hc hc') hne

end Equals

/-! ## Copying -/

section Expands

variable [CanonicalForm]

theorem Heap.Expands.mono {m : Nat} (h : heap.Expands n raw v) (hnm : n ≤ m) : heap.Expands m raw v :=
  ⟨h.1.mono hnm, unfold_mono h.2 hnm⟩

/-- `raw` expands to the value, up to the order of entries. -/
def Heap.ExpandsTo (heap : Heap) (n : Nat) (v : JanetValue) (raw : Janet) : Prop :=
  ∃ u, Same v u ∧ heap.Expands n raw u

/-- Whatever the raw value unfolds to is the same as the value. -/
theorem Heap.ExpandsTo.same {m : Nat} (h : heap.ExpandsTo n v raw) (hw : unfold heap.view m raw = some w) :
    Same v w := by
  obtain ⟨u, hsame, _, hu⟩ := h
  have hu' := unfold_mono hu (Nat.le_max_left n m)
  obtain rfl := Option.some.inj (hu'.symm.trans (unfold_mono hw (Nat.le_max_right n m)))
  exact hsame

/-- Distinct keys unfold to distinct keys, in the order of the cells. -/
theorem distinct_unfolded {m : Nat} {es fs : List (JanetValue × JanetValue)} {kvs cells : List JanetKV}
    (hperm : cells.Perm kvs) (h : List.Forall₂ (fun e kv => Lawful e.1 ∧ ∃ n, heap.ExpandsTo n e.1 kv.key) es kvs)
    (hf : List.Forall₂ (fun kv f => unfold heap.view m kv.key = some f.1) cells fs) (hd : Assoc.Distinct equal es) :
    Assoc.Distinct equal fs := by
  have hkvs : kvs.Pairwise fun a b => ∀ x y, unfold heap.view m a.key = some x → unfold heap.view m b.key = some y →
      equal x y = false := by
    refine Assoc.pairwise_of_forall₂ h (fun e a e' b ⟨hl, _, ha⟩ ⟨hl', _, hb⟩ hne x y hx hy => ?_) hd
    rw [Bool.eq_false_iff] at hne ⊢
    intro hxy
    have hey := ((ha.same hx).equal_left y).mpr hxy
    exact hne (((hb.same hy).equal_right hl hl' (lawful_unfold hy)).mpr hey)
  have hcells := hkvs.perm hperm.symm fun {a b} hab y x hy hx => by
    refine Bool.eq_false_iff.mpr fun hyx => ?_
    exact Bool.eq_false_iff.mp (hab x y hx hy) (equal_symm (lawful_unfold hy) (lawful_unfold hx) hyx)
  exact Assoc.pairwise_of_forall₂ hf (fun a f b f' ha hb hab => hab _ _ ha hb) hcells

/-- The entries of a dictionary expand to entries that are the same, in the order of the cells. -/
theorem expands_cells {es : List (JanetValue × JanetValue)} {kvs cells : List JanetKV} (hperm : cells.Perm kvs)
    (h : List.Forall₂ (fun e kv => heap.ExpandsTo n e.1 kv.key ∧ heap.ExpandsTo n e.2 kv.value) es kvs)
    (hl : ∀ e ∈ es, Lawful e.1) (hd : Assoc.Distinct equal es) :
    ∃ fs fs', List.Forall₂ SameEntry es fs ∧ fs.Perm fs' ∧ Assoc.Distinct equal fs' ∧
      List.Forall₂ (heap.ExpandsEntry n) (cells.map fun kv => (kv.key, kv.value)) fs' := by
  have hentries : List.Forall₂ (fun e kv => ∃ f, SameEntry e f ∧ heap.ExpandsEntry n (kv.key, kv.value) f) es kvs :=
    h.imp fun _ _ ⟨⟨k, hk, hkey⟩, x, hx, hvalue⟩ => ⟨(k, x), ⟨hk, hx⟩, hkey, hvalue⟩
  obtain ⟨fs, hsame, hexpands⟩ := Assoc.forall₂_exists hentries
  obtain ⟨fs', hcells, hperm'⟩ := List.perm_comp_forall₂ hperm hexpands
  have hkeys : List.Forall₂ (fun e kv => Lawful e.1 ∧ ∃ n, heap.ExpandsTo n e.1 kv.key) es kvs :=
    ((List.forall₂_and_left _ _).mpr ⟨hl, h⟩).imp fun _ _ ⟨hl, hkey, _⟩ => ⟨hl, n, hkey⟩
  have hdistinct := distinct_unfolded hperm hkeys (hcells.imp fun _ _ hf => hf.1.2) hd
  exact ⟨fs, fs', hsame, hperm'.symm, hdistinct, List.forall₂_map_left_iff.mpr hcells⟩

/-- **What is carried expands to the value again**, within its depth. -/
theorem Carries.expands (h : Carries code base top heap v raw) (hv : Lawful v) (hu : All UntaggedNumbers v) :
    heap.ExpandsTo v.depth v raw := by
  induction h with
  | @leaf v raw h => exact ⟨v, .leaf h.isLeaf, .leaf h.view_eq, unfold_leaf h.view_eq⟩
  | @nan d hnan =>
    have hview : heap.view (janetWrapNumber d) = .leaf (.number d) := by
      simp only [Heap.view, janetWrapNumber, janetType_eq_number.mpr hu.here, janetUnwrapNumber]
    exact ⟨.number d, .leaf rfl, .leaf hview, unfold_leaf hview⟩
  | @container v c raws hk hs ho hsp hlen hsub ih =>
    obtain ⟨n, hn⟩ := depth_of_isKindOf hk
    rw [hn]
    have hall : List.Forall₂ (heap.ExpandsTo n) v.parts raws := by
      refine List.forall₂_iff_zip.mpr ⟨hlen, fun {w r} hwr => ?_⟩
      have hw : w ∈ v.parts := (List.of_mem_zip hwr).1
      obtain ⟨u, hsame, hexpands⟩ := ih (w, r) hwr (hv.part hw) (hu.part hw)
      exact ⟨u, hsame, hexpands.mono (depth_parts (Nat.le_of_eq hn) w hw)⟩
    have hc := isAt_word ho
    have hb := hsp.hasBlock
    cases c with
    | tuple p =>
      cases v with
      | tuple xs =>
        obtain ⟨us, hsame, hus⟩ := Assoc.forall₂_exists hall
        obtain rfl : (heap.tuples.get p).data = raws := hsp
        exact ⟨.tuple us, .tuple hsame, expands_container hc hb hus⟩
      | _ => cases hk
    | array p =>
      cases v with
      | array xs =>
        obtain ⟨us, hsame, hus⟩ := Assoc.forall₂_exists hall
        have hkids : heap.children (.array p) = raws := by
          rw [Heap.children, JanetArray.elements, show (heap.arrays.get p).data = some raws from hsp]
          rfl
        exact ⟨.array us, .array hsame, expands_container hc hb (by rw [hkids]; exact hus)⟩
      | _ => cases hk
    | struct p =>
      cases v with
      | struct es =>
        obtain ⟨kvs, rfl, hholds⟩ := hsp
        obtain ⟨fs, fs', hsame, hperm, hdistinct, hcells⟩ := expands_cells hholds.entries
          (Assoc.forall₂_flatMap_pair.mp hall) (fun e he => hv.part (mem_keys he)) hv.here
        exact ⟨.struct fs', .struct_of hsame hperm, expands_dictionary hc rfl hb hcells hdistinct⟩
      | _ => cases hk
    | table p =>
      cases v with
      | table es =>
        obtain ⟨kvs, rfl, _, hentries⟩ := hsp
        obtain ⟨fs, fs', hsame, hperm, hdistinct, hcells⟩ := expands_cells hentries
          (Assoc.forall₂_flatMap_pair.mp hall) (fun e he => hv.part (mem_keys he)) hv.here
        exact ⟨.table fs', .table_of hsame hperm, expands_dictionary hc rfl hb hcells hdistinct⟩
      | _ => cases hk

end Expands

end SwiftJanet
