import SwiftJanet.Copy.Dictionaries
import SwiftJanet.Copy.Making

/-!
# The round trip through the VM

`makeRaw_roundTrip`: a value that crosses is made into a raw value; copying that out gives an equal value, and
`janet_equals` tells the keys of every dictionary in it apart.

`inOrder`: dictionaries that keep their entries in order, which obey the laws of putting (`inOrder_laws`).
-/

namespace SwiftJanet

open Lib JanetValue

variable [CanonicalForm] {code : DictionaryCode} {limit : Nat}

/-! ## The round trip -/

section RoundTrip

variable {heap : Heap} {lo k : Nat} {v : JanetValue} {raw r : Janet}

/-- What lies below a representation represents a part, or a part of a part. -/
theorem Represents.reach (h : Represents code heap lo v raw) (hv : Lawful v) (hr : Reach heap.view k raw r) :
    ∃ w, Represents code heap lo w r ∧ Lawful w := by
  induction hr generalizing v with
  | here => exact ⟨v, h, hv⟩
  | @down k raw u r hkid _ ih =>
    cases h with
    | leaf h =>
      obtain ⟨_, _, _, _, hview, _⟩ := hkid
      rw [h.view_eq] at hview
      cases hview
    | @container v c raws hk ho hs hlen hsub =>
      have hu := hs.children.mem_iff.mp ((kid_node (view_of_isAt heap (isAt_word ho))).mp hkid)
      obtain ⟨w, hw, hrep⟩ := Assoc.partner_of_mem (forall₂_represents hlen hsub).flip hu
      exact ih hrep (hv.part hw)

/-- The keys of every dictionary reached from `raw` are told apart. -/
def Heap.KeysApart (heap : Heap) (raw : Janet) : Prop :=
  ∀ k r c, Reach heap.view k raw r → c.IsAt r → c.isDictionary = true →
    ((heap.entries c).map Prod.fst).Pairwise heap.ToldApart

/-- Entries with distinct keys are put under keys that are told apart, in whatever order they are visited. -/
theorem Filling.keysApart {es : List (JanetValue × JanetValue)} {kvs cells : List JanetKV}
    (h : Filling code heap lo es kvs) (hl : ∀ e ∈ es, Lawful e.1) (hd : Assoc.Distinct equal es)
    (hp : cells.Perm kvs) : (cells.map JanetKV.key).Pairwise heap.ToldApart := by
  refine List.pairwise_map.mpr ((hp.pairwise_iff fun h => h.symm).mpr ?_)
  exact Assoc.pairwise_of_forall₂ ((List.forall₂_and_left _ _).mpr ⟨hl, h⟩)
    (fun _ _ _ _ hf hg hne => hf.2.1.toldApart hf.1 hg.2.1 hg.1 hne) hd

theorem Represents.keysApart (h : Represents code heap lo v raw) (hv : Lawful v) : heap.KeysApart raw := by
  intro k r c hr hc hdict
  obtain ⟨w, hrep, hw⟩ := h.reach hv hr
  have hleaf : ∀ e ∈ w.parts, Lawful e := fun e he => hw.part he
  cases hrep with
  | leaf h => exact absurd (view_of_isAt heap hc) (by rw [h.view_eq]; exact fun h => (nomatch h))
  | @container w d raws hk ho hs hlen hsub =>
    obtain rfl : c = d := Option.some.inj
      ((pointedAt_of_isAt heap hc).2.symm.trans (pointedAt_of_isAt heap (isAt_word ho)).2)
    have hfill := forall₂_represents hlen hsub
    cases c with
    | tuple p => cases hdict
    | array p => cases hdict
    | struct p =>
      cases w with
      | struct es =>
        obtain ⟨kvs, rfl, hs⟩ := hs
        rw [Heap.entries, List.map_map]
        exact Filling.keysApart (Assoc.forall₂_flatMap_pair.mp hfill) (fun e he => hleaf _ (mem_keys he)) hw.here hs.entries
      | _ => cases hk
    | table p =>
      cases w with
      | table es =>
        obtain ⟨kvs, rfl, _, hs⟩ := hs
        rw [Heap.entries, List.map_map]
        exact Filling.keysApart (Assoc.forall₂_flatMap_pair.mp hfill) (fun e he => hleaf _ (mem_keys he)) hw.here hs
      | _ => cases hk

/-- **The round trip**: a value that crosses is made into a raw value that copies out to an equal value, and whose
dictionaries have keys that `janet_equals` tells apart. -/
theorem makeRaw_roundTrip (hlaws : code.PutLaws limit) (hlimit : limit < 2 ^ 31) (hv : Crosses limit v)
    (hd : v.depth ≤ maxValueNestingDepth) (heap : Heap) :
    ∃ raw heap', makeRaw code v 0 heap = (.returns raw, heap') ∧
      (∃ u, copyOut heap' raw = .returns u ∧ equal u v = true) ∧ heap'.KeysApart raw := by
  obtain ⟨raw, heap', hmake, _, hrep⟩ := makes_of_crosses hlaws hlimit hv 0 heap hd
  obtain ⟨hwithin, u, hu, huv⟩ := hrep.unfolds hv.lawful
  exact ⟨raw, heap', hmake, ⟨u, copyOut_of_within hwithin hd hu, huv⟩, hrep.keysApart hv.lawful⟩

end RoundTrip

/-! ## Arrays as keys -/

/-- Two arrays as keys, which Janet compares by address. -/
def arrayKeys : JanetValue := .table [(.array [], .string "s".toList), (.array [.nil], .boolean true)]

omit [CanonicalForm] in
theorem arrayKeys_crosses : @Crosses ⟨id⟩ (2 ^ 30 - 1) arrayKeys := by
  have part : ∀ v : JanetValue, @DistinctKeys ⟨id⟩ v → NotNaN v → Fits (2 ^ 30 - 1) v →
      (∀ w ∈ v.parts, @Crosses ⟨id⟩ (2 ^ 30 - 1) w) → @Crosses ⟨id⟩ (2 ^ 30 - 1) v := fun _ => @Crosses.intro ⟨id⟩ _ _
  have hnil : @Crosses ⟨id⟩ (2 ^ 30 - 1) .nil := part _ trivial trivial trivial (by simp [parts])
  have htrue : @Crosses ⟨id⟩ (2 ^ 30 - 1) (.boolean true) := part _ trivial trivial trivial (by simp [parts])
  have htext : @Crosses ⟨id⟩ (2 ^ 30 - 1) (.string "s".toList) :=
    part _ trivial trivial (show (Text.utf8 "s".toList).length < 2 ^ 31 by decide) (by simp [parts])
  have hempty : @Crosses ⟨id⟩ (2 ^ 30 - 1) (.array []) :=
    part _ trivial trivial (show ([] : List JanetValue).length < 2 ^ 31 by decide) (by simp [parts])
  have hone : @Crosses ⟨id⟩ (2 ^ 30 - 1) (.array [.nil]) :=
    part _ trivial trivial (show [JanetValue.nil].length < 2 ^ 31 by decide) (by simpa [parts] using hnil)
  have hkeys : ∀ e ∈ [(JanetValue.array [.nil], JanetValue.boolean true)], @equal ⟨id⟩ (.array []) e.1 = false :=
    fun e he => by rw [List.mem_singleton.mp he]; rfl
  refine part _ (List.pairwise_cons.mpr ⟨hkeys, List.pairwise_singleton _ _⟩) trivial ⟨by simp, by simp⟩ ?_
  intro w hw
  simp only [arrayKeys, parts, List.flatMap_cons, List.flatMap_nil, List.cons_append, List.nil_append, List.mem_cons,
    List.not_mem_nil, or_false] at hw
  rcases hw with rfl | rfl | rfl | rfl
  · exact hempty
  · exact htext
  · exact hone
  · exact htrue

omit [CanonicalForm] in
/-- A table with arrays as keys survives the round trip. -/
theorem makeRaw_roundTrip_arrayKeys : ∃ raw heap,
    makeRaw (vmDictionaries plainHashing) arrayKeys 0 Heap.empty = (.returns raw, heap) ∧
      (∃ u, @copyOut ⟨id⟩ heap raw = .returns u ∧ @equal ⟨id⟩ u arrayKeys = true) ∧ @Heap.KeysApart ⟨id⟩ heap raw :=
  @makeRaw_roundTrip ⟨id⟩ _ _ _ (vmDictionaries_laws plainHashing_tellsApart) (by decide) arrayKeys_crosses (by decide)
    Heap.empty

end SwiftJanet
