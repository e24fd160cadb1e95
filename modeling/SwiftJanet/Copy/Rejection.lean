import SwiftJanet.Copy.Unfolding

/-!
# When copying out is refused

`copyOut_rejection`: copying out ends, returns exactly the finite values within the limit, and throws one of two
errors, whose messages are true.
-/

namespace SwiftJanet

open Lib

section Rejection

variable [CanonicalForm]

namespace Heap

/-- `raw` is a tuple, array, struct or table. -/
def IsContainer (heap : Heap) (raw : Janet) : Prop := IsNode heap.view raw

/-- The container `v` holds `w`, as an element, a key or a value. -/
def Holds (heap : Heap) (v w : Janet) : Prop := Kid heap.view v w

/-- `raw` is the array or table at the address `a`. -/
def IsAt (heap : Heap) (raw : Janet) (a : Address) : Prop := Marked heap.view raw a

/-- `w` lies inside `k` nested containers, the outermost of which is `v`. -/
def Reaches (heap : Heap) (k : Nat) (v w : Janet) : Prop := Reach heap.view k v w

/-- The unfolding of `raw` is a finite tree with at most `n` nested containers on every path. -/
def FiniteWithin (heap : Heap) (n : Nat) (raw : Janet) : Prop := Within heap.view (fun _ => True) n raw

end Heap

variable {heap : Heap} {raw : Janet}

/-- Fuel for 257 containers active at once is enough. -/
theorem initRawWith_enough {n : Nat} (hn : maxValueNestingDepth + 1 ≤ n) :
    initRawWith heap n raw = copyOut heap raw := by
  rw [copyOut, initRawWith, initRawWith, initRaw_eq_walk, initRaw_eq_walk,
    walk_enough (n := maxValueNestingDepth + 1) (Nat.le_refl _) (Nat.zero_le _) hn]

theorem copyOut_ne_unfinished : copyOut heap raw ≠ .unfinished := fun h => by
  have := copyOut_explains heap raw
  rw [h] at this
  exact this

theorem copyOut_throws {e : JanetError} (h : copyOut heap raw = .throws e) :
    Faults copyRules heap.view .empty raw e := by
  have := copyOut_explains heap raw
  rw [h] at this
  exact this

/-- What does not trap returns exactly when it is finite within the limit. -/
theorem copyOut_returns_iff (ht : ∀ t, copyOut heap raw ≠ .traps t) :
    (∃ v, copyOut heap raw = .returns v) ↔ heap.FiniteWithin maxValueNestingDepth raw := by
  have hwalk : ∀ t, walk copyRules heap.view (maxValueNestingDepth + 1) raw .empty ≠ .traps t :=
    fun t h => ht t ((copyOut_traps heap raw t).mpr h)
  rw [copyOut_returns]
  exact walk_returns_iff (view_identifies heap) above_empty (Nat.le_refl _) (Nat.zero_le _) hwalk

/-- The message about a cycle is true: the array or table met again lies below itself. -/
theorem cycle_of_cycleBelow (h : CycleBelow copyRules heap.view .empty raw) :
    ∃ k w a, k < maxValueNestingDepth ∧ heap.Reaches k raw w ∧ heap.IsAt w a ∧
      Relation.TransGen heap.Holds w w := by
  obtain ⟨k, w, a, hr, hk, hw, ha | ⟨_, u, _, _, huw, hu⟩⟩ := h
  · simp [Path.empty] at ha
  · exact ⟨k, w, a, by simpa [Path.empty, copyRules] using hk, hr, hw,
      transGen_congr (view_identifies heap u w a hu hw) huw⟩

/-- **Copying out ends**, with at most 257 containers entered at once; it returns exactly the values that are finite
within 256 levels, and throws otherwise; either message is true, and what is returned nests at most 256 deep. -/
theorem copyOut_rejection (heap : Heap) (raw : Janet) :
    (copyOut heap raw ≠ .unfinished ∧
      ∀ n, maxValueNestingDepth + 1 ≤ n → initRawWith heap n raw = copyOut heap raw) ∧
    ((∀ t, copyOut heap raw ≠ .traps t) →
      ((∃ v, copyOut heap raw = .returns v) ↔ heap.FiniteWithin maxValueNestingDepth raw) ∧
      (¬heap.FiniteWithin maxValueNestingDepth raw → ∃ e, copyOut heap raw = .throws e ∧ e.phase = .copy)) ∧
    (copyOut heap raw = .throws containsCycle → ∃ k w a, k < maxValueNestingDepth ∧ heap.Reaches k raw w ∧
      heap.IsAt w a ∧ Relation.TransGen heap.Holds w w) ∧
    (copyOut heap raw = .throws nestedDeeper →
      ∃ w, heap.Reaches maxValueNestingDepth raw w ∧ heap.IsContainer w) ∧
    (∀ e, copyOut heap raw = .throws e → e = nestedDeeper ∨ e = containsCycle) ∧
    ((∀ w a k, heap.IsAt w a → heap.Reaches k raw w → ¬Relation.TransGen heap.Holds w w) →
      copyOut heap raw ≠ .throws containsCycle) ∧
    ∀ v, copyOut heap raw = .returns v → v.depth ≤ maxValueNestingDepth := by
  have cycle : copyOut heap raw = .throws containsCycle → ∃ k w a, k < maxValueNestingDepth ∧
      heap.Reaches k raw w ∧ heap.IsAt w a ∧ Relation.TransGen heap.Holds w w := by
    intro h
    rcases copyOut_throws h with ⟨he, _⟩ | ⟨_, hc⟩
    · exact absurd he.symm nestedDeeper_ne_containsCycle
    · exact cycle_of_cycleBelow hc
  have errors : ∀ e, copyOut heap raw = .throws e → e = nestedDeeper ∨ e = containsCycle :=
    fun e h => (copyOut_throws h).imp And.left And.left
  refine ⟨⟨copyOut_ne_unfinished, fun n => initRawWith_enough⟩, fun ht => ⟨copyOut_returns_iff ht, fun hf => ?_⟩,
    cycle, fun h => ?_, errors, fun hno h => ?_, fun v h => ?_⟩
  · cases ho : copyOut heap raw with
    | returns v => exact absurd ((copyOut_returns_iff ht).mp ⟨v, ho⟩) hf
    | throws e => exact ⟨e, rfl, by rcases errors e ho with rfl | rfl <;> rfl⟩
    | traps t => exact absurd ho (ht t)
    | unfinished => exact absurd ho copyOut_ne_unfinished
  · rcases copyOut_throws h with ⟨_, w, hr, hw⟩ | ⟨he, _⟩
    · exact ⟨w, hr, hw⟩
    · exact absurd he nestedDeeper_ne_containsCycle
  · obtain ⟨k, w, a, _, hr, hw, hc⟩ := cycle h
    exact hno w a k hw hr hc
  · have := copyOut_explains heap raw
    rw [h] at this
    exact depth_unfold this.1

end Rejection

end SwiftJanet
