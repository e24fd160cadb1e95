import SwiftJanet.Lib.Walk

/-!
# What a depth-bounded walk finds

`Explains rules view path v o` reads the outcome `o` of a walk over `v` from `path` off the graph alone:

- a walk that returns gives the unfolding, and leaves the path as it was;
- a walk that throws has met a chain of nodes past the limit (`DeepBelow`) or a node inside itself (`CycleBelow`);
- a walk that traps has met a null reference or a node without a block before anything else was wrong (`Exposed`).

Every walk with fuel for one node past the limit is explained (`walk_explains`), and more fuel changes nothing
(`walk_enough`). When an identity determines what a
node holds, the converses hold as well (`walk_of_within`, `walk_of_exposed`).
-/

namespace Lib

section Explain

variable {V A R E T : Type}

/-- Some chain of nodes goes down from `v` past the limit. -/
def DeepBelow (rules : Rules E T) (view : V → View V A R) (path : Path A) (v : V) : Prop :=
  ∃ w, Reach view (rules.limit - path.depth) v w ∧ IsNode view w

/-- Within the limit, some node at or below `v` is one the path is inside, or lies below itself. -/
def CycleBelow (rules : Rules E T) (view : V → View V A R) (path : Path A) (v : V) : Prop :=
  ∃ k w a, Reach view k v w ∧ path.depth + k < rules.limit ∧ Marked view w a ∧
    (a ∈ path.marked ∨
      ∃ j u, j < k ∧ Reach view j v u ∧ Relation.TransGen (Kid view) u w ∧ Marked view u a)

/-- The error `e` has its cause at or below `v`. -/
def Faults (rules : Rules E T) (view : V → View V A R) (path : Path A) (v : V) (e : E) : Prop :=
  (e = rules.tooDeep ∧ DeepBelow rules view path v) ∨ (e = rules.cycle ∧ CycleBelow rules view path v)

variable [DecidableEq A]

/-- A null reference, or a node without a block, comes first in a walk over `v`: it is reached through nodes the walk
may enter, and everything to the left of the way down to it unfolds within the limit and is intact. -/
inductive Exposed (rules : Rules E T) (view : V → View V A R) : Path A → V → Prop
  | null {path : Path A} {v : V} (h : view v = .null) : Exposed rules view path v
  | bare {path : Path A} {v : V} {id : Option A} {kids : List V} {build : List R → R}
      (h : view v = .node id false kids build) (hd : path.depth < rules.limit)
      (hf : ∀ a, id = some a → a ∉ path.marked) : Exposed rules view path v
  | inside {path : Path A} {v w : V} {id : Option A} {left right : List V} {build : List R → R}
      (h : view v = .node id true (left ++ w :: right) build) (hd : path.depth < rules.limit)
      (hf : ∀ a, id = some a → a ∉ path.marked)
      (hl : ∀ u ∈ left, Within view (Intact view) (rules.limit - (path.depth + 1)) u)
      (hw : Exposed rules view (path.push id) w) : Exposed rules view path v

/-- What the outcome of a walk over `v` says about the graph. -/
def Explains (rules : Rules E T) (view : V → View V A R) (path : Path A) (v : V) :
    Outcome E T (R × Path A) → Prop
  | .returns (r, after) => after = path ∧ unfold view (rules.limit - path.depth) v = some r ∧
      Within view (Intact view) (rules.limit - path.depth) v
  | .throws e => Faults rules view path v e
  | .traps t => t = rules.null ∧ Exposed rules view path v
  | .unfinished => False

/-- What the outcome of a walk over the vertices `vs` says about the graph. -/
def ExplainsList (rules : Rules E T) (view : V → View V A R) (path : Path A) (vs : List V) :
    Outcome E T (List R × Path A) → Prop
  | .returns (rs, after) => after = path ∧
      List.Forall₂ (fun v r => unfold view (rules.limit - path.depth) v = some r) vs rs ∧
      ∀ v ∈ vs, Within view (Intact view) (rules.limit - path.depth) v
  | .throws e => ∃ v ∈ vs, Faults rules view path v e
  | .traps t => t = rules.null ∧ ∃ left v right, vs = left ++ v :: right ∧
      (∀ u ∈ left, Within view (Intact view) (rules.limit - path.depth) u) ∧ Exposed rules view path v
  | .unfinished => False

variable {rules : Rules E T} {view : V → View V A R} {path : Path A} {v w : V}

/-- A walk over a list is explained when the walks over its vertices are. -/
theorem walkList_explains {f : V → Path A → Outcome E T (R × Path A)} :
    ∀ {vs : List V}, (∀ v ∈ vs, Explains rules view path v (f v path)) →
      ExplainsList rules view path vs (walkList f vs path)
  | [], _ => ⟨rfl, .nil, by simp⟩
  | v :: vs, hf => by
    have hv := hf v (by simp)
    have hvs := walkList_explains fun w hw => hf w (List.mem_cons_of_mem v hw)
    rw [walkList]
    cases hfv : f v path with
    | throws e => rw [hfv] at hv; exact ⟨v, by simp, hv⟩
    | traps t => rw [hfv] at hv; exact ⟨hv.1, [], v, vs, rfl, by simp, hv.2⟩
    | unfinished => rw [hfv] at hv; exact hv
    | returns p =>
      obtain ⟨r, after⟩ := p
      rw [hfv] at hv
      obtain ⟨rfl, hr, hw⟩ := hv
      simp only [Outcome.returns_bind]
      cases hl : walkList f vs after with
      | throws e =>
        rw [hl] at hvs
        obtain ⟨u, hu, he⟩ := hvs
        exact ⟨u, List.mem_cons_of_mem v hu, he⟩
      | traps t =>
        rw [hl] at hvs
        obtain ⟨ht, left, u, right, rfl, hleft, hu⟩ := hvs
        refine ⟨ht, v :: left, u, right, rfl, ?_, hu⟩
        intro x hx
        rcases List.mem_cons.mp hx with rfl | hx
        · exact hw
        · exact hleft x hx
      | unfinished => rw [hl] at hvs; exact hvs
      | returns q =>
        obtain ⟨rs, last⟩ := q
        rw [hl] at hvs
        obtain ⟨rfl, hrs, hws⟩ := hvs
        refine ⟨rfl, .cons hr hrs, ?_⟩
        intro x hx
        rcases List.mem_cons.mp hx with rfl | hx
        · exact hw
        · exact hws x hx

/-- A fault below a child, inside the node, is a fault below the node. -/
theorem Faults.of_kid {id : Option A} {i : Bool} {kids : List V} {build : List R → R} {e : E}
    (hv : view v = .node id i kids build) (hd : path.depth < rules.limit) (hw : w ∈ kids)
    (h : Faults rules view (path.push id) w e) : Faults rules view path v e := by
  have hk : Kid view v w := (kid_node hv).mpr hw
  rcases h with ⟨he, x, hr, hx⟩ | ⟨he, k, x, a, hr, hlt, hx, ha⟩
  · refine Or.inl ⟨he, x, ?_, hx⟩
    have : rules.limit - path.depth = (rules.limit - (path.depth + 1)) + 1 := by omega
    rw [this]
    exact .down hk hr
  · refine Or.inr ⟨he, k + 1, x, a, .down hk hr, by simp at hlt; omega, hx, ?_⟩
    rcases ha with ha | ⟨j, u, hj, hu, hux, hua⟩
    · rcases mem_push.mp ha with rfl | ha
      · -- the node met again is `v` itself
        exact Or.inr ⟨0, v, by omega, .here, hr.transGen hk, i, kids, build, hv⟩
      · exact Or.inl ha
    · exact Or.inr ⟨j + 1, u, by omega, .down hk hu, hux, hua⟩

/-- **Every walk is explained**, when it has fuel for one node past the limit. -/
theorem walk_explains (rules : Rules E T) (view : V → View V A R) : ∀ (n : Nat) (v : V) (path : Path A),
    rules.limit + 1 ≤ n + path.depth → path.depth ≤ rules.limit →
      Explains rules view path v (walk rules view n v path)
  | n, v, path, hn, hd => by
    rw [walk]
    cases hv : view v with
    | leaf r => exact ⟨rfl, unfold_leaf hv, .leaf hv⟩
    | null => exact ⟨rfl, .null hv⟩
    | node id i kids build =>
      obtain ⟨n, rfl⟩ : ∃ m, n = m + 1 := ⟨n - 1, by omega⟩
      simp only
      rcases enter_cases rules path id with ⟨hl, he⟩ | ⟨hl, a, rfl, ha, he⟩ | ⟨hl, hf, he⟩
      · rw [he]
        refine Or.inl ⟨rfl, v, ?_, id, i, kids, build, hv⟩
        rw [show rules.limit - path.depth = 0 by omega]
        exact .here
      · rw [he]
        exact Or.inr ⟨rfl, 0, v, a, .here, by omega, ⟨i, kids, build, hv⟩, Or.inl ha⟩
      · rw [he, Outcome.returns_bind]
        cases i with
        | false => exact ⟨rfl, .bare hv hl hf⟩
        | true =>
          have hkids : ExplainsList rules view (path.push id) kids _ := walkList_explains fun w _ =>
            walk_explains rules view n w (path.push id) (by simp; omega) (by simp; omega)
          have hlevel : rules.limit - path.depth = (rules.limit - (path.depth + 1)) + 1 := by omega
          simp only [if_true]
          cases hw : walkList (walk rules view n) kids (path.push id) with
          | throws e =>
            rw [hw] at hkids
            obtain ⟨w, hwk, hwe⟩ := hkids
            exact hwe.of_kid hv hl hwk
          | traps t =>
            rw [hw] at hkids
            obtain ⟨ht, left, w, right, rfl, hleft, hwe⟩ := hkids
            exact ⟨ht, .inside hv hl hf hleft hwe⟩
          | unfinished => rw [hw] at hkids; exact hkids
          | returns p =>
            obtain ⟨rs, after⟩ := p
            rw [hw] at hkids
            obtain ⟨rfl, hrs, hws⟩ := hkids
            rw [push_depth] at hrs hws
            rw [Outcome.returns_bind]
            refine ⟨leave_push hf, ?_, ?_⟩
            · rw [hlevel, unfold_node hv, (collect_eq_some _ _).mpr hrs]; rfl
            · rw [hlevel]
              refine .node hv ?_ hws
              intro id' i' kids' build' hv'
              rw [hv] at hv'; cases hv'; rfl

/-! ## Fuel -/

omit [DecidableEq A] in
/-- Walks over a list agree when the walks over its vertices agree, as far as those finish. -/
theorem walkList_congr {f g : V → Path A → Outcome E T (R × Path A)} :
    ∀ {vs : List V} {path : Path A}, (∀ v ∈ vs, ∀ path, f v path ≠ .unfinished → g v path = f v path) →
      walkList f vs path ≠ .unfinished → walkList g vs path = walkList f vs path
  | [], _, _, _ => rfl
  | v :: vs, path, hfg, hf => by
    rw [walkList] at hf ⊢
    have hv : f v path ≠ .unfinished := fun h => hf (by rw [h]; rfl)
    rw [walkList, hfg v (by simp) path hv]
    cases hfv : f v path with
    | returns p =>
      rw [hfv] at hf
      have hrest : walkList f vs p.2 ≠ .unfinished := fun h => hf (by simp [h])
      simp only [Outcome.returns_bind, walkList_congr (fun w hw => hfg w (List.mem_cons_of_mem v hw)) hrest]
    | throws e => rfl
    | traps t => rfl
    | unfinished => rfl

/-- More fuel does not change a walk that finishes. -/
theorem walk_succ : ∀ (n : Nat) (v : V) (path : Path A), walk rules view n v path ≠ .unfinished →
    walk rules view (n + 1) v path = walk rules view n v path
  | n, v, path, h => by
    rw [walk] at h ⊢
    rw [walk]
    cases hv : view v with
    | leaf r => rfl
    | null => rfl
    | node id i kids build =>
      rw [hv] at h
      cases n with
      | zero => exact absurd rfl h
      | succ n =>
        simp only at h ⊢
        cases he : path.enter rules id with
        | returns inside =>
          rw [he] at h
          cases i with
          | false => rfl
          | true =>
            simp only [Outcome.returns_bind, if_true] at h ⊢
            have hkids : walkList (walk rules view n) kids inside ≠ .unfinished := fun h' => h (by rw [h']; rfl)
            rw [walkList_congr (fun w _ path => walk_succ n w path) hkids]
        | throws e => rfl
        | traps t => rfl
        | unfinished => rfl

/-- A walk with fuel for one node past the limit is not changed by more. -/
theorem walk_enough {n m : Nat} (hn : rules.limit + 1 ≤ n + path.depth) (hd : path.depth ≤ rules.limit)
    (hnm : n ≤ m) : walk rules view m v path = walk rules view n v path := by
  induction hnm with
  | refl => rfl
  | @step m hle ih =>
    refine (walk_succ m v path fun h => ?_).trans ih
    have hx := walk_explains rules view n v path hn hd
    rw [← ih, h] at hx
    exact hx

end Explain

/-! ## Converses -/

section Converse

variable {V A R E T : Type} {rules : Rules E T} {view : V → View V A R} {path : Path A} {v w : V} {n : Nat}

/-- An identity determines what the node holds. -/
def Identifies (view : V → View V A R) : Prop :=
  ∀ u v a, Marked view u a → Marked view v a → view u = view v

/-- The nodes with an identity that the path is inside lie above `v`. -/
def Above (view : V → View V A R) (path : Path A) (v : V) : Prop :=
  ∀ a ∈ path.marked, ∃ u, Marked view u a ∧ Relation.TransGen (Kid view) u v

theorem above_empty : Above view Path.empty v := fun a ha => by simp [Path.empty] at ha

/-- A finite unfolding has no fault. -/
theorem Within.no_fault {P : V → Prop} {e : E} (hid : Identifies view) (ha : Above view path v)
    (h : Within view P (rules.limit - path.depth) v) : ¬Faults rules view path v e := by
  rintro (⟨_, w, hr, hw⟩ | ⟨_, k, w, a, hr, _, hw, hc⟩)
  · exact h.no_chain hr hw
  · have hbelow := (h.reach hr).2
    -- either way some vertex above `w` is seen as `w` is, so `w` lies below itself
    obtain ⟨u, hu, huw⟩ : ∃ u, Marked view u a ∧ Relation.TransGen (Kid view) u w := by
      rcases hc with hc | ⟨j, u, _, _, huw, hu⟩
      · obtain ⟨u, hu, huv⟩ := ha a hc
        exact ⟨u, hu, hr.transGen_right huv⟩
      · exact ⟨u, hu, huw⟩
    exact no_cycle_within hbelow (transGen_congr (hid u w a hu hw) huw) rfl

/-- A walk over a list stops where a vertex traps, when all vertices before it are walked to their end. -/
theorem walkList_traps {f : V → Path A → Outcome E T (R × Path A)} {t : T} {right : List V} :
    ∀ {left : List V}, (∀ u ∈ left, ∃ r, f u path = .returns (r, path)) → f w path = .traps t →
      walkList f (left ++ w :: right) path = .traps t
  | [], _, hw => by simp [walkList, hw]
  | u :: left, hl, hw => by
    obtain ⟨r, hr⟩ := hl u (by simp)
    have : walkList f (left ++ w :: right) path = .traps t := walkList_traps (fun x hx => hl x (List.mem_cons_of_mem u hx)) hw
    simp [walkList, hr, this]

variable [DecidableEq A]

/-- Inside a node, the node lies above its children as well. -/
theorem Above.push {id : Option A} {i : Bool} {kids : List V} {build : List R → R} (h : Above view path v)
    (hv : view v = .node id i kids build) (hw : w ∈ kids) : Above view (path.push id) w := by
  intro a ha
  have hk : Kid view v w := (kid_node hv).mpr hw
  rcases mem_push.mp ha with rfl | ha
  · exact ⟨v, ⟨i, kids, build, hv⟩, .single hk⟩
  · obtain ⟨u, hu, huv⟩ := h a ha
    exact ⟨u, hu, .tail huv hk⟩

/-- What is exposed is not intact. -/
theorem Exposed.not_within (h : Exposed rules view path v) {m : Nat} : ¬Within view (Intact view) m v := by
  induction h generalizing m with
  | null h => exact not_within_null h
  | bare h _ _ =>
    intro hw
    cases m with
    | zero => exact not_within_zero h hw
    | succ m => exact absurd (((within_node h).mp hw).1 _ _ _ _ h) (by simp)
  | inside h _ _ _ _ ih =>
    intro hw
    cases m with
    | zero => exact not_within_zero h hw
    | succ m => exact ih (((within_node h).mp hw).2 _ (by simp))

/-- An intact finite unfolding is walked to its end. -/
theorem walk_of_within (hid : Identifies view) (ha : Above view path v)
    (hn : rules.limit + 1 ≤ n + path.depth) (hd : path.depth ≤ rules.limit)
    (h : Within view (Intact view) (rules.limit - path.depth) v) :
    ∃ r, walk rules view n v path = .returns (r, path) ∧ unfold view (rules.limit - path.depth) v = some r := by
  have hx := walk_explains rules view n v path hn hd
  cases hw : walk rules view n v path with
  | returns p =>
    obtain ⟨r, after⟩ := p
    rw [hw] at hx
    obtain ⟨rfl, hr, _⟩ := hx
    exact ⟨r, rfl, hr⟩
  | throws e => rw [hw] at hx; exact absurd hx (h.no_fault hid ha)
  | traps t => rw [hw] at hx; exact absurd h hx.2.not_within
  | unfinished => rw [hw] at hx; exact hx.elim

/-- **What is exposed traps.** -/
theorem walk_of_exposed (hid : Identifies view) (h : Exposed rules view path v) (ha : Above view path v)
    (hn : rules.limit + 1 ≤ n + path.depth) : walk rules view n v path = .traps rules.null := by
  induction h generalizing n with
  | null h => rw [walk]; simp only [h]
  | bare h hd hf =>
    obtain ⟨n, rfl⟩ : ∃ m, n = m + 1 := ⟨n - 1, by omega⟩
    rw [walk]
    simp [h, enter_eq_returns.mpr ⟨hd, hf, rfl⟩]
  | @inside path v w id left right build h hd hf hl hw ih =>
    obtain ⟨n, rfl⟩ : ∃ m, n = m + 1 := ⟨n - 1, by omega⟩
    have hleft : ∀ u ∈ left, ∃ r, walk rules view n u (path.push id) = .returns (r, path.push id) := by
      intro u hu
      obtain ⟨r, hr, _⟩ := walk_of_within hid (ha.push h (by simp [hu]))
        (show rules.limit + 1 ≤ n + (path.push id).depth by simp; omega) (by simp; omega) (hl u hu)
      exact ⟨r, hr⟩
    have htrap := ih (ha.push h (by simp)) (show rules.limit + 1 ≤ n + (path.push id).depth by simp; omega)
    rw [walk]
    simp only [h, enter_eq_returns.mpr ⟨hd, hf, rfl⟩, Outcome.returns_bind, if_true,
      walkList_traps hleft htrap, Outcome.traps_bind]

/-- A walk traps exactly at what is exposed. -/
theorem walk_traps_iff (hid : Identifies view) (ha : Above view path v) (hn : rules.limit + 1 ≤ n + path.depth)
    (hd : path.depth ≤ rules.limit) :
    (∃ t, walk rules view n v path = .traps t) ↔ Exposed rules view path v := by
  constructor
  · rintro ⟨t, ht⟩
    have hx := walk_explains rules view n v path hn hd
    rw [ht] at hx
    exact hx.2
  · exact fun h => ⟨_, walk_of_exposed hid h ha hn⟩

/-- A walk that does not trap returns exactly on a finite unfolding. -/
theorem walk_returns_iff (hid : Identifies view) (ha : Above view path v) (hn : rules.limit + 1 ≤ n + path.depth)
    (hd : path.depth ≤ rules.limit) (ht : ∀ t, walk rules view n v path ≠ .traps t) :
    (∃ p, walk rules view n v path = .returns p) ↔ Within view (fun _ => True) (rules.limit - path.depth) v := by
  have hx := walk_explains rules view n v path hn hd
  constructor
  · rintro ⟨⟨r, after⟩, hp⟩
    rw [hp] at hx
    exact hx.2.2.imp fun _ _ => trivial
  · intro hw
    cases ho : walk rules view n v path with
    | returns p => exact ⟨p, rfl⟩
    | throws e => rw [ho] at hx; exact absurd hx (hw.no_fault hid ha)
    | traps t => exact absurd ho (ht t)
    | unfinished => rw [ho] at hx; exact hx.elim

end Converse

end Lib
