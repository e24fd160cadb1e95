import SwiftJanet.Copy.Graph
import SwiftJanet.Lib.WalkLaws

/-!
# Unfoldings of the heap

`heap.unfold n raw` is the Swift value that `raw` spells out, when that is a finite tree of at most `n` nested
containers. Unfoldings nest no deeper than that (`depth_unfold`), and their dictionaries have distinct keys
(`lawful_unfold`). An address determines its container (`view_identifies`), so the laws of walks hold of copying:
`copyOut_explains`, `copyOut_of_within`.
-/

namespace SwiftJanet

open Lib JanetValue

/-! ## Pairs -/

/-- Both halves of a pair come from the list. -/
theorem mem_pairUp {α : Type} : ∀ {rs : List α} {e : α × α}, e ∈ pairUp rs → e.1 ∈ rs ∧ e.2 ∈ rs
  | [], _, h => by cases h
  | [_], _, h => by cases h
  | k :: v :: rest, e, h => by
    rcases List.mem_cons.mp h with rfl | h
    · simp
    · have := mem_pairUp h
      simp [this]

section Unfolding

variable [CanonicalForm] {heap : Heap} {raw u v w : Janet} {n : Nat} {r : JanetValue}

/-- The parts of what a container builds are among the copied children. -/
theorem parts_build (c : Container) {rs : List JanetValue} : ∀ w ∈ (c.build rs).parts, w ∈ rs := by
  have dict : ∀ w ∈ (buildDictionary rs).flatMap (fun e => [e.1, e.2]), w ∈ rs := by
    intro w hw
    obtain ⟨e, he, hw⟩ := List.mem_flatMap.mp hw
    obtain ⟨⟨f, hf, hk⟩, ⟨g, hg, hv⟩⟩ := Assoc.mem_ofEntries he
    simp only [List.mem_cons, List.not_mem_nil, or_false] at hw
    rcases hw with rfl | rfl
    · exact hk ▸ (mem_pairUp hf).1
    · exact hv ▸ (mem_pairUp hg).2
  cases c with
  | tuple p => exact fun w hw => hw
  | array p => exact fun w hw => hw
  | struct p => exact dict
  | table p => exact dict

/-- A leaf of the walk is no container. -/
theorem isLeaf_view (h : heap.view raw = .leaf r) : r.isLeaf = true := by
  have string : ∀ {p : Option Nat} {f : Nat → JanetValue}, (∀ q, (f q).isLeaf = true) →
      behind p (fun q => .leaf (f q)) = .leaf r → r.isLeaf = true := by
    intro p f hf h
    cases p with
    | none => cases h
    | some q => cases h; exact hf q
  have node : ∀ {p : Option Nat} {c : Nat → Container}, behind p (fun q => heap.node (c q)) ≠ .leaf r := by
    intro p c h
    cases p <;> cases h
  rw [Heap.view] at h
  cases ht : janetType raw with
  | string => rw [ht] at h; exact string (fun _ => rfl) h
  | keyword => rw [ht] at h; exact string (fun _ => rfl) h
  | symbol => rw [ht] at h; exact string (fun _ => rfl) h
  | tuple => rw [ht] at h; exact absurd h node
  | array => rw [ht] at h; exact absurd h node
  | struct => rw [ht] at h; exact absurd h node
  | table => rw [ht] at h; exact absurd h node
  | _ => rw [ht] at h; cases h; rfl

/-! ## What unfoldings are like -/

/-- What holds of leaves, and of a container once it holds of its children, holds of every unfolding. -/
theorem unfold_induction {motive : Nat → JanetValue → Prop} (leaf : ∀ n r, r.isLeaf = true → motive n r)
    (node : ∀ n (c : Container) rs, (∀ r ∈ rs, motive n r) → motive (n + 1) (c.build rs)) :
    ∀ (n : Nat) {raw : Janet} {r : JanetValue}, unfold heap.view n raw = some r → motive n r
  | n, raw, r, h => by
    cases hv : heap.view raw with
    | leaf r' =>
      rw [unfold_leaf hv] at h
      obtain rfl := Option.some.inj h
      exact leaf n _ (isLeaf_view hv)
    | null => rw [unfold_null hv] at h; cases h
    | node id i kids build =>
      obtain ⟨c, _, _, _, _, rfl⟩ := view_eq_node hv
      cases n with
      | zero => rw [unfold_node_zero hv] at h; cases h
      | succ n =>
        rw [unfold_node hv] at h
        obtain ⟨rs, hrs, rfl⟩ := Option.map_eq_some_iff.mp h
        refine node n c rs fun r hr => ?_
        obtain ⟨w, _, hw⟩ := mem_collect hrs hr
        exact unfold_induction leaf node n hw

/-- An unfolding within `n` levels nests at most `n` containers. -/
theorem depth_unfold (h : unfold heap.view n raw = some r) : r.depth ≤ n :=
  unfold_induction (motive := fun n r => r.depth ≤ n) (fun n r hr => by simp [depth_leaf hr])
    (fun _ c _ hrs => depth_le_of_parts fun w hw => hrs w (parts_build c w hw)) n h

/-- Dictionaries in an unfolding have distinct keys. -/
theorem lawful_unfold (h : unfold heap.view n raw = some r) : Lawful r := by
  refine unfold_induction (motive := fun _ r => Lawful r) (fun _ _ => lawful_leaf) (fun _ c rs hrs => ?_) n h
  refine .intro ?_ fun w hw => hrs w (parts_build c w hw)
  cases c with
  | tuple p => trivial
  | array p => trivial
  | struct p => exact Assoc.distinct_ofEntries _
  | table p => exact Assoc.distinct_ofEntries _

/-! ## Addresses -/

/-- An address determines its container. -/
theorem view_identifies (heap : Heap) : Identifies heap.view := by
  rintro u v a ⟨_, _, _, hu⟩ ⟨_, _, _, hv⟩
  obtain ⟨c, hc, hca, -, -, -⟩ := view_eq_node hu
  obtain ⟨d, hd, hda, -, -, -⟩ := view_eq_node hv
  rw [view_of_isAt heap hc, view_of_isAt heap hd]
  have : c = d := by
    cases c <;> cases d <;> simp_all [Container.address]
  rw [this]

/-! ## Copying out -/

/-- Copying a value out returns when the walk does. -/
theorem copyOut_returns (heap : Heap) (raw : Janet) : (∃ v, copyOut heap raw = .returns v) ↔
    ∃ p, walk copyRules heap.view (maxValueNestingDepth + 1) raw .empty = .returns p := by
  rw [copyOut, initRawWith, initRaw_eq_walk]
  simp only [Outcome.bind_eq_returns, Outcome.returns.injEq]
  exact ⟨fun ⟨_, p, hp, _⟩ => ⟨p, hp⟩, fun ⟨p, hp⟩ => ⟨p.1, p, hp, rfl⟩⟩

/-- Copying a value out traps when the walk does. -/
theorem copyOut_traps (heap : Heap) (raw : Janet) (t : Trap) : copyOut heap raw = .traps t ↔
    walk copyRules heap.view (maxValueNestingDepth + 1) raw .empty = .traps t := by
  rw [copyOut, initRawWith, initRaw_eq_walk]
  simp only [Outcome.bind_eq_traps]
  exact or_iff_left fun ⟨_, _, h⟩ => (nomatch h)

/-- What copying a value out says about the heap. -/
theorem copyOut_explains (heap : Heap) (raw : Janet) :
    match copyOut heap raw with
    | .returns v => unfold heap.view maxValueNestingDepth raw = some v ∧
        Within heap.view (Intact heap.view) maxValueNestingDepth raw
    | .throws e => Faults copyRules heap.view .empty raw e
    | .traps t => t = .null ∧ Exposed copyRules heap.view .empty raw
    | .unfinished => False := by
  have h := walk_explains copyRules heap.view (maxValueNestingDepth + 1) raw .empty (Nat.le_refl _) (Nat.zero_le _)
  rw [copyOut, initRawWith, initRaw_eq_walk]
  cases hw : walk copyRules heap.view (maxValueNestingDepth + 1) raw .empty with
  | returns p => rw [hw] at h; exact h.2
  | throws e => rw [hw] at h; exact h
  | traps t => rw [hw] at h; exact h
  | unfinished => rw [hw] at h; exact h

/-- What is finite within the limit and intact is copied to its unfolding. -/
theorem copyOut_of_within (h : Within heap.view (Intact heap.view) n raw) (hn : n ≤ maxValueNestingDepth)
    (hr : unfold heap.view n raw = some r) : copyOut heap raw = .returns r := by
  have hwalk : ∃ r', walk copyRules heap.view (maxValueNestingDepth + 1) raw .empty = .returns (r', .empty) ∧
      unfold heap.view maxValueNestingDepth raw = some r' :=
    walk_of_within (view_identifies heap) above_empty (Nat.le_refl _) (Nat.zero_le _) (h.mono hn)
  obtain ⟨r', hw, hr'⟩ := hwalk
  rw [unfold_mono hr hn] at hr'
  rw [copyOut, initRawWith, initRaw_eq_walk, hw, Option.some.inj hr']
  rfl

end Unfolding

end SwiftJanet
