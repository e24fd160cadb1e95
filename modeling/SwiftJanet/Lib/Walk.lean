import Mathlib.Data.Finset.Basic
import Mathlib.Logic.Relation
import SwiftJanet.Lib.Outcome

/-!
# Depth-bounded walks over graphs

A vertex is seen as a leaf, as a null reference, or as a node that holds further vertices (`View`). Some nodes have
an identity, and some nodes have lost their block of children. `walk` reads a vertex from the top down: it keeps the
depth and the identities of the nodes it is inside (`Path`), and gives up at a node past the limit, at a node it is
already inside, and at a node without a block.

- `unfold n v`: the unfolding of `v`, when it is a finite tree of at most `n` nested nodes (`Within`);
- `Reach k v w`: `w` lies `k` nodes below `v`;
- `no_cycle_within`: a finite unfolding meets no node again below itself.
-/

namespace Lib

/-- How a walk sees a vertex. -/
inductive View (V A R : Type) where
  | leaf (r : R)
  | null
  | node (id : Option A) (intact : Bool) (kids : List V) (build : List R → R)

/-- The nodes a walk is inside: how many, and the identities of those that have one. -/
@[ext] structure Path (A : Type) where
  depth : Nat
  marked : Finset A
deriving DecidableEq

/-- The path of a walk that has entered nothing. -/
def Path.empty {A : Type} : Path A := ⟨0, ∅⟩

/-- What a walk knows besides the graph: the nesting limit, the errors it throws, and its trap. -/
structure Rules (E T : Type) where
  limit : Nat
  tooDeep : E
  cycle : E
  null : T

section Defs

variable {V A R E T : Type} [DecidableEq A]

/-- The path inside one more node. -/
def Path.push (path : Path A) (id : Option A) : Path A :=
  ⟨path.depth + 1, match id with | none => path.marked | some a => insert a path.marked⟩

/-- Step into a node. -/
def Path.enter (rules : Rules E T) (path : Path A) (id : Option A) : Outcome E T (Path A) :=
  if path.depth + 1 > rules.limit then .throws rules.tooDeep
  else match id with
    | none => .returns (path.push none)
    | some a => if a ∈ path.marked then .throws rules.cycle else .returns (path.push (some a))

/-- Step out of a node. -/
def Path.leave (path : Path A) (id : Option A) : Path A :=
  ⟨path.depth - 1, match id with | none => path.marked | some a => path.marked.erase a⟩

/-- Walk over vertices from left to right, on one path. -/
def walkList (f : V → Path A → Outcome E T (R × Path A)) : List V → Path A → Outcome E T (List R × Path A)
  | [], path => .returns ([], path)
  | v :: vs, path => do
    let (r, path) ← f v path
    let (rs, path) ← walkList f vs path
    .returns (r :: rs, path)

/-- Walk over a vertex; each node entered costs one unit of fuel. -/
def walk (rules : Rules E T) (view : V → View V A R) : Nat → V → Path A → Outcome E T (R × Path A)
  | fuel, v, path =>
    match view v with
    | .leaf r => .returns (r, path)
    | .null => .traps rules.null
    | .node id intact kids build =>
      match fuel with
      | 0 => .unfinished
      | n + 1 => do
        let inside ← path.enter rules id
        if intact then
          let (rs, after) ← walkList (walk rules view n) kids inside
          .returns (build rs, after.leave id)
        else .traps rules.null

/-- All results of `f` over a list, when it has one everywhere. -/
def collect (f : V → Option R) : List V → Option (List R)
  | [] => some []
  | v :: vs => (f v).bind fun r => (collect f vs).map (r :: ·)

/-- The unfolding of `v`, when it nests at most `n` nodes. -/
def unfold (view : V → View V A R) : Nat → V → Option R
  | fuel, v =>
    match view v with
    | .leaf r => some r
    | .null => none
    | .node _ _ kids build =>
      match fuel with
      | 0 => none
      | n + 1 => (collect (unfold view n) kids).map build

/-- The unfolding of `v` is a finite tree of at most `n` nested nodes, all of them with the property `P`. -/
inductive Within (view : V → View V A R) (P : V → Prop) : Nat → V → Prop
  | leaf {n : Nat} {v : V} {r : R} (h : view v = .leaf r) : Within view P n v
  | node {n : Nat} {v : V} {id : Option A} {i : Bool} {kids : List V} {build : List R → R}
      (h : view v = .node id i kids build) (hv : P v) (hk : ∀ w ∈ kids, Within view P n w) : Within view P (n + 1) v

/-- `v` is a node. -/
def IsNode (view : V → View V A R) (v : V) : Prop := ∃ id i kids build, view v = .node id i kids build

/-- The node `v` holds `w`. -/
def Kid (view : V → View V A R) (v w : V) : Prop :=
  ∃ id i kids build, view v = .node id i kids build ∧ w ∈ kids

/-- `v` is a node with the identity `a`. -/
def Marked (view : V → View V A R) (v : V) (a : A) : Prop :=
  ∃ i kids build, view v = .node (some a) i kids build

/-- `v`, if it is a node, has its block. -/
def Intact (view : V → View V A R) (v : V) : Prop :=
  ∀ id i kids build, view v = .node id i kids build → i = true

/-- `w` lies `k` nodes below `v`. -/
inductive Reach (view : V → View V A R) : Nat → V → V → Prop
  | here {v : V} : Reach view 0 v v
  | down {k : Nat} {v u w : V} (h : Kid view v u) (hr : Reach view k u w) : Reach view (k + 1) v w

end Defs

/-! ## Paths -/

section Paths

variable {A E T : Type} [DecidableEq A] {rules : Rules E T} {path inside : Path A} {id : Option A}

/-- Entering succeeds below the limit, at a node the path is not inside yet. -/
theorem enter_eq_returns : path.enter rules id = .returns inside ↔
    path.depth < rules.limit ∧ (∀ a, id = some a → a ∉ path.marked) ∧ inside = path.push id := by
  unfold Path.enter
  split
  · next hd => exact ⟨fun h => (by cases h), fun h => absurd h.1 (by omega)⟩
  · next hd =>
    have hlt : path.depth < rules.limit := by omega
    cases id with
    | none => simp [hlt, eq_comm]
    | some a => by_cases ha : a ∈ path.marked <;> simp [ha, hlt, eq_comm]

/-- The three ways entering can go. -/
theorem enter_cases (rules : Rules E T) (path : Path A) (id : Option A) :
    (rules.limit ≤ path.depth ∧ path.enter rules id = .throws rules.tooDeep) ∨
      (path.depth < rules.limit ∧ ∃ a, id = some a ∧ a ∈ path.marked ∧
        path.enter rules id = .throws rules.cycle) ∨
      (path.depth < rules.limit ∧ (∀ a, id = some a → a ∉ path.marked) ∧
        path.enter rules id = .returns (path.push id)) := by
  by_cases hd : path.depth < rules.limit
  · by_cases hf : ∀ a, id = some a → a ∉ path.marked
    · exact Or.inr (Or.inr ⟨hd, hf, enter_eq_returns.mpr ⟨hd, hf, rfl⟩⟩)
    · push Not at hf
      obtain ⟨a, rfl, ha⟩ := hf
      exact Or.inr (Or.inl ⟨hd, a, rfl, ha, by simp [Path.enter, ha]; omega⟩)
  · exact Or.inl ⟨by omega, by unfold Path.enter; rw [if_pos (by omega)]⟩

/-- Leaving a node undoes entering it. -/
theorem leave_push (h : ∀ a, id = some a → a ∉ path.marked) : (path.push id).leave id = path := by
  cases id with
  | none => simp [Path.leave, Path.push]
  | some a => simp [Path.leave, Path.push, Finset.erase_insert (h a rfl)]

@[simp] theorem push_depth : (path.push id).depth = path.depth + 1 := rfl

/-- The identities inside one more node. -/
theorem mem_push {a : A} : a ∈ (path.push id).marked ↔ id = some a ∨ a ∈ path.marked := by
  cases id with
  | none => simp [Path.push]
  | some b => simp [Path.push, eq_comm]

end Paths

/-! ## Equations of a walk -/

section Equations

variable {V A R E T : Type} [DecidableEq A] {rules : Rules E T} {view : V → View V A R} {v : V} {path : Path A} {n : Nat}

theorem walk_null (h : view v = .null) : walk rules view n v path = .traps rules.null := by
  rw [walk]; simp only [h]

variable {id : Option A} {i : Bool} {kids : List V} {build : List R → R}

theorem walk_node_zero (h : view v = .node id i kids build) : walk rules view 0 v path = .unfinished := by
  rw [walk]; simp only [h]

theorem walk_node (h : view v = .node id i kids build) : walk rules view (n + 1) v path =
    path.enter rules id >>= fun inside =>
      if i then walkList (walk rules view n) kids inside >>= fun (rs, after) => .returns (build rs, after.leave id)
      else .traps rules.null := by
  rw [walk]; simp only [h]

end Equations

/-! ## Unfoldings -/

section Unfold

variable {V A R : Type} {view : V → View V A R} {P Q : V → Prop} {n m k : Nat} {u v w : V}

/-- A list of results, one for each vertex. -/
theorem collect_eq_some {f : V → Option R} : ∀ (vs : List V) (rs : List R),
    collect f vs = some rs ↔ List.Forall₂ (fun v r => f v = some r) vs rs
  | [], rs => by cases rs <;> simp [collect]
  | v :: vs, rs => by
    cases rs with
    | nil => cases hv : f v <;> simp [collect, hv]
    | cons r rs =>
      cases hv : f v with
      | none => simp [collect, hv]
      | some r' => simp [collect, hv, ← collect_eq_some vs, and_comm]

/-- Every result belongs to a vertex. -/
theorem mem_collect {f : V → Option R} {r : R} : ∀ {vs : List V} {rs : List R}, collect f vs = some rs → r ∈ rs →
    ∃ v ∈ vs, f v = some r
  | [], rs, h, hr => by cases h; cases hr
  | v :: vs, rs, h, hr => by
    obtain ⟨r', hv, h⟩ := Option.bind_eq_some_iff.mp h
    obtain ⟨rs', hvs, rfl⟩ := Option.map_eq_some_iff.mp h
    rcases List.mem_cons.mp hr with rfl | hr
    · exact ⟨v, by simp, hv⟩
    · obtain ⟨w, hw, hwr⟩ := mem_collect hvs hr
      exact ⟨w, List.mem_cons_of_mem v hw, hwr⟩

theorem unfold_leaf {r : R} (h : view v = .leaf r) : unfold view n v = some r := by
  unfold unfold; rw [h]

theorem unfold_null (h : view v = .null) : unfold view n v = none := by
  unfold unfold; rw [h]

section Node

variable {id : Option A} {i : Bool} {kids : List V} {build : List R → R} (h : view v = .node id i kids build)
include h

theorem unfold_node : unfold view (n + 1) v = (collect (unfold view n) kids).map build := by
  rw [unfold]; simp only [h]

theorem unfold_node_zero : unfold view 0 v = none := by
  rw [unfold]; simp only [h]

theorem within_node : Within view P (n + 1) v ↔ P v ∧ ∀ w ∈ kids, Within view P n w := by
  constructor
  · intro hw
    cases hw with
    | leaf h' => rw [h] at h'; cases h'
    | node h' hv hk => rw [h] at h'; cases h'; exact ⟨hv, hk⟩
  · exact fun hw => .node h hw.1 hw.2

theorem not_within_zero : ¬Within view P 0 v := by
  intro hw
  cases hw with
  | leaf h' => rw [h] at h'; cases h'

theorem kid_node : Kid view v w ↔ w ∈ kids := by
  constructor
  · rintro ⟨_, _, _, _, h', hw⟩
    rw [h] at h'; cases h'; exact hw
  · exact fun hw => ⟨id, i, kids, build, h, hw⟩

end Node

theorem not_within_null (h : view v = .null) : ¬Within view P n v := by
  intro hw
  cases hw with
  | leaf h' => rw [h] at h'; cases h'
  | node h' _ _ => rw [h] at h'; cases h'

/-- A looser bound gives the same unfolding. -/
theorem unfold_succ : ∀ {n : Nat} {v : V} {r : R}, unfold view n v = some r → unfold view (n + 1) v = some r
  | n, v, r, h => by
    cases hv : view v with
    | leaf r' => rw [unfold_leaf hv] at h ⊢; exact h
    | null => rw [unfold_null hv] at h; cases h
    | node id i kids build =>
      cases n with
      | zero => rw [unfold_node_zero hv] at h; cases h
      | succ n =>
        rw [unfold_node hv] at h ⊢
        obtain ⟨rs, hrs, rfl⟩ := Option.map_eq_some_iff.mp h
        have hall := ((collect_eq_some _ _).mp hrs).imp fun _ _ h => unfold_succ h
        rw [(collect_eq_some _ _).mpr hall]; rfl

theorem unfold_mono {r : R} (h : unfold view n v = some r) (hnm : n ≤ m) : unfold view m v = some r := by
  induction hnm with
  | refl => exact h
  | step _ ih => exact unfold_succ ih

/-- A weaker property holds within the same bound. -/
theorem Within.imp (h : Within view P n v) (hpq : ∀ v, P v → Q v) : Within view Q n v := by
  induction h with
  | leaf h => exact .leaf h
  | node h hv _ ih => exact .node h (hpq _ hv) ih

theorem Within.mono (h : Within view P n v) (hnm : n ≤ m) : Within view P m v := by
  induction h generalizing m with
  | leaf h => exact .leaf h
  | node h hv _ ih =>
    obtain ⟨m, rfl⟩ : ∃ m', m = m' + 1 := ⟨m - 1, by omega⟩
    exact .node h hv fun w hw => ih w hw (by omega)

/-- A child nests one node less. -/
theorem Within.kid (h : Within view P n v) (hk : Kid view v w) : ∃ m, n = m + 1 ∧ Within view P m w := by
  obtain ⟨id, i, kids, build, hv, hw⟩ := hk
  cases n with
  | zero => exact absurd h (not_within_zero hv)
  | succ m => exact ⟨m, rfl, ((within_node hv).mp h).2 w hw⟩

/-- Whatever lies strictly below a vertex nests fewer nodes. -/
theorem Within.transGen (h : Within view P n v) (hk : Relation.TransGen (Kid view) v w) :
    ∃ m, m < n ∧ Within view P m w := by
  induction hk with
  | single hk =>
    obtain ⟨m, rfl, hm⟩ := h.kid hk
    exact ⟨m, by omega, hm⟩
  | tail _ hk ih =>
    obtain ⟨m, hmn, hm⟩ := ih
    obtain ⟨m', rfl, hm'⟩ := hm.kid hk
    exact ⟨m', by omega, hm'⟩

/-- Vertices seen alike hold the same vertices. -/
theorem kid_congr (h : view u = view v) : Kid view u w ↔ Kid view v w := by
  simp only [Kid, h]

theorem transGen_congr (h : view u = view v) (hk : Relation.TransGen (Kid view) u w) :
    Relation.TransGen (Kid view) v w := by
  obtain ⟨x, hx, hxw⟩ := Relation.TransGen.head'_iff.mp hk
  exact Relation.TransGen.head' ((kid_congr h).mp hx) hxw

/-- A finite unfolding meets no vertex again below itself. -/
theorem no_cycle_within (h : Within view P n u) (hk : Relation.TransGen (Kid view) u w)
    (hsame : view u = view w) : False := by
  induction n using Nat.strong_induction_on generalizing u with
  | h n ih =>
    obtain ⟨m, hmn, hm⟩ := h.transGen hk
    -- `w` is seen as `u` is, so it lies below itself and the descent goes on.
    exact ih m hmn hm (transGen_congr hsame hk) rfl

theorem Reach.transGen (hk : Kid view u v) (hr : Reach view k v w) : Relation.TransGen (Kid view) u w := by
  induction hr generalizing u with
  | here => exact .single hk
  | down h _ ih => exact .head hk (ih h)

theorem Reach.transGen_right (h : Relation.TransGen (Kid view) u v) (hr : Reach view k v w) :
    Relation.TransGen (Kid view) u w := by
  induction hr with
  | here => exact h
  | down hk _ ih => exact ih (.tail h hk)

/-- Depths add up along a path, and a bound shrinks along it. -/
theorem Within.reach (h : Within view P n v) (hr : Reach view k v w) : k ≤ n ∧ Within view P (n - k) w := by
  induction hr generalizing n with
  | here => exact ⟨Nat.zero_le n, h⟩
  | down hk _ ih =>
    obtain ⟨m, rfl, hm⟩ := h.kid hk
    obtain ⟨hkm, hw⟩ := ih hm
    exact ⟨by omega, by simpa using hw⟩

/-- Within the bound `n` there is no chain of `n + 1` nested nodes. -/
theorem Within.no_chain (h : Within view P n v) (hr : Reach view n v w) : ¬IsNode view w := by
  rintro ⟨id, i, kids, build, hw⟩
  have := (h.reach hr).2
  rw [Nat.sub_self] at this
  exact not_within_zero hw this

end Unfold

end Lib
