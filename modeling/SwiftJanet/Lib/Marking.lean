import Mathlib.Data.List.Basic
import Mathlib.Logic.Relation

/-!
# Marking what can be reached

A search through a graph that marks the nodes it comes to. An edge leads to a node straight, or through a value, and a
value may lead nowhere. To follow a value costs one level of depth; where no level is left the value is put off. When the
search is done it begins again at each value that was put off (`drain`).

- `Extends`: what a search adds to the marks. It marks only what it should, what it marks has been followed but for what
  was put off, and it puts off no more values than there are edges that it followed;
- so it ends, however small the depth, and marks exactly what can be reached from the roots (`mark_spec`).
-/

namespace Lib

/-- An edge: through a value, or straight. -/
inductive Edge (V A : Type) where
  | value (x : V)
  | node (a : A)
deriving DecidableEq, Repr

/-- The nodes that are marked, and the values that are put off. -/
structure Marks (V A : Type) where
  marked : List A
  pending : List V

namespace Marking

variable {V A : Type}

/-! ## The search -/

section Search

variable (target : V → Option A)

/-- The node that an edge leads to. -/
def leadsTo : Edge V A → Option A
  | .value x => target x
  | .node a => some a

/-- Follow an edge. -/
def follow (visit : Nat → A → Marks V A → Option (Marks V A)) (depth : Nat) (e : Edge V A) (s : Marks V A) :
    Option (Marks V A) :=
  match e, depth with
  | .node a, _ => visit depth a s
  | .value x, 0 => some { s with pending := x :: s.pending }
  | .value x, depth + 1 =>
    match target x with
    | none => some s
    | some a => visit depth a s

/-- Follow some edges, one after the other. -/
def followAll (visit : Nat → A → Marks V A → Option (Marks V A)) (depth : Nat) :
    List (Edge V A) → Marks V A → Option (Marks V A)
  | [], s => some s
  | e :: es, s => do followAll visit depth es (← follow target visit depth e s)

variable [DecidableEq A] (edges : A → Option (List (Edge V A)))

/-- Come to a node: mark it and follow its edges, unless it is marked. A node without edges that are known is a fault. -/
def visit : Nat → Nat → A → Marks V A → Option (Marks V A)
  | 0, _, _, _ => none
  | fuel + 1, depth, a, s =>
    if a ∈ s.marked then some s
    else do followAll target (visit fuel) depth (← edges a) { s with marked := a :: s.marked }

/-- Begin again at the values that were put off, the last one first. -/
def drain (fuel : Nat) : Nat → Nat → Marks V A → Option (Marks V A)
  | 0, _, _ => none
  | rounds + 1, depth, s =>
    match s.pending with
    | [] => some s
    | x :: pending => do
      drain fuel rounds depth (← follow target (visit target edges fuel) depth (.value x) { s with pending })

/-- Search from the roots, and then from what was put off. -/
def mark (fuel rounds depth : Nat) (roots : List (Edge V A)) (marked : List A) : Option (List A) := do
  let s ← followAll target (visit target edges fuel) depth roots ⟨marked, []⟩
  let s ← drain target edges fuel rounds depth s
  some s.marked

end Search

/-! ## Reaching -/

section Reaching

variable (target : V → Option A) (edges : A → Option (List (Edge V A)))

/-- One edge leads from a node to another. -/
def Leads (a b : A) : Prop := ∃ es, edges a = some es ∧ ∃ e ∈ es, leadsTo target e = some b

/-- A node can be reached from the roots. -/
def Rooted (roots : List (Edge V A)) (a : A) : Prop :=
  ∃ e ∈ roots, ∃ r, leadsTo target e = some r ∧ Relation.ReflTransGen (Leads target edges) r a

/-- The edges of what the predicate holds of are known, and lead to what it holds of. -/
def Closed (P : A → Prop) : Prop :=
  ∀ a, P a → ∃ es, edges a = some es ∧ ∀ e ∈ es, ∀ b, leadsTo target e = some b → P b

variable {target edges} {P : A → Prop} {roots : List (Edge V A)}

theorem closed_rooted (h : ∀ a, Rooted target edges roots a → ∃ es, edges a = some es) :
    Closed target edges (Rooted target edges roots) := by
  rintro a ⟨e, he, r, hr, ha⟩
  obtain ⟨es, hes⟩ := h a ⟨e, he, r, hr, ha⟩
  exact ⟨es, hes, fun e' he' b hb => ⟨e, he, r, hr, ha.tail ⟨es, hes, e', he', hb⟩⟩⟩

/-- A closed predicate that holds of the roots holds of all that can be reached. -/
theorem Closed.of_rooted (h : Closed target edges P) (hroots : ∀ e ∈ roots, ∀ r, leadsTo target e = some r → P r) {a : A}
    (ha : Rooted target edges roots a) : P a := by
  obtain ⟨e, he, r, hr, hreaches⟩ := ha
  induction hreaches with
  | refl => exact hroots e he r hr
  | tail _ hleads ih =>
    obtain ⟨es, hes, e', he', hb⟩ := hleads
    obtain ⟨es', hes', hall⟩ := h _ ih
    obtain rfl := Option.some.inj (hes.symm.trans hes')
    exact hall e' he' _ hb

end Reaching

/-! ## How much is left -/

section Left

variable [DecidableEq A] (edges : A → Option (List (Edge V A)))

/-- The number of nodes that are not marked. -/
def left (nodes marked : List A) : Nat := nodes.countP (· ∉ marked)

/-- The number of edges of the nodes that are not marked. -/
def weight : List A → List A → Nat
  | [], _ => 0
  | a :: nodes, marked => (if a ∈ marked then 0 else ((edges a).getD []).length) + weight nodes marked

variable {edges} {nodes marked marked' : List A} {a : A}

theorem left_mono (h : ∀ b ∈ marked, b ∈ marked') : left nodes marked' ≤ left nodes marked :=
  List.countP_mono_left fun b _ hb => by
    simp only [decide_eq_true_iff] at hb ⊢
    exact fun hb' => hb (h b hb')

theorem left_mark (ha : a ∈ nodes) (hnew : a ∉ marked) : left nodes (a :: marked) < left nodes marked := by
  induction nodes with
  | nil => cases ha
  | cons b nodes ih =>
    unfold left at ih ⊢
    have hle : nodes.countP (· ∉ a :: marked) ≤ nodes.countP (· ∉ marked) :=
      @left_mono _ _ nodes marked (a :: marked) fun c hc => List.mem_cons_of_mem _ hc
    by_cases heq : b = a
    · rw [List.countP_cons_of_neg (by simp [heq]), List.countP_cons_of_pos (by simp [heq, hnew])]
      omega
    · have hlt := ih ((List.mem_cons.mp ha).resolve_left fun h => heq h.symm)
      by_cases hb : b ∈ marked
      · rw [List.countP_cons_of_neg (by simp [hb]), List.countP_cons_of_neg (by simp [hb])]
        exact hlt
      · rw [List.countP_cons_of_pos (by simp [heq, hb]), List.countP_cons_of_pos (by simp [hb])]
        omega

theorem weight_mono (h : ∀ b ∈ marked, b ∈ marked') : ∀ {nodes : List A},
    weight edges nodes marked' ≤ weight edges nodes marked
  | [] => Nat.le_refl _
  | b :: nodes => by
    have ih := @weight_mono h nodes
    unfold weight
    by_cases hb : b ∈ marked
    · rw [if_pos hb, if_pos (h b hb)]
      omega
    · rw [if_neg hb]
      split <;> omega

/-- What is marked does not count any more. -/
theorem weight_mark {es : List (Edge V A)} (hes : edges a = some es) (hnew : a ∉ marked) : ∀ {nodes : List A},
    a ∈ nodes → weight edges nodes (a :: marked) + es.length ≤ weight edges nodes marked
  | [], ha => by cases ha
  | b :: nodes, ha => by
    unfold weight
    by_cases heq : b = a
    · have hle := @weight_mono _ _ _ edges marked (a :: marked) (fun c hc => List.mem_cons_of_mem _ hc) nodes
      rw [heq, if_neg hnew, if_pos (List.mem_cons_self ..), hes, Option.getD_some]
      omega
    · have ih := @weight_mark es hes hnew nodes (by simpa [Ne.symm heq] using ha)
      by_cases hb : b ∈ marked
      · rw [if_pos hb, if_pos (List.mem_cons_of_mem _ hb)]
        omega
      · rw [if_neg hb, if_neg (by simp [heq, hb])]
        omega

end Left

/-! ## What a search adds -/

section Extends

variable (target : V → Option A) (edges : A → Option (List (Edge V A)))

/-- The edge has been followed, or its value is put off. -/
def Followed (s : Marks V A) : Edge V A → Prop
  | .node a => a ∈ s.marked
  | .value x => x ∈ s.pending ∨ ∀ a, target x = some a → a ∈ s.marked

theorem Followed.mono {target : V → Option A} {s s' : Marks V A} {e : Edge V A} (h : Followed target s e)
    (hm : ∀ a ∈ s.marked, a ∈ s'.marked) (hp : ∀ x ∈ s.pending, x ∈ s'.pending) : Followed target s' e := by
  cases e with
  | node a => exact hm a h
  | value x => exact h.imp (hp x) fun h a ha => hm a (h a ha)

variable [DecidableEq A]

/-- What a search adds to the marks, if it puts off at most `slack` values more than it follows edges. -/
structure Extends (nodes : List A) (P : A → Prop) (slack : Nat) (s s' : Marks V A) : Prop where
  marked : ∀ a ∈ s.marked, a ∈ s'.marked
  pending : ∃ new, s'.pending = new ++ s.pending ∧ ∀ x ∈ new, ∀ a, target x = some a → P a
  new : ∀ a ∈ s'.marked, a ∉ s.marked → P a ∧ ∃ es, edges a = some es ∧ ∀ e ∈ es, Followed target s' e
  weight : s'.pending.length + weight edges nodes s'.marked ≤
    s.pending.length + weight edges nodes s.marked + slack

variable {target edges} {nodes : List A} {P : A → Prop} {s s' s'' : Marks V A} {n n' fuel depth : Nat} {a : A}

theorem Extends.kept (h : Extends target edges nodes P n s s') {e : Edge V A} (he : Followed target s e) :
    Followed target s' e := by
  obtain ⟨new, hnew, _⟩ := h.pending
  exact he.mono h.marked fun x hx => hnew ▸ List.mem_append_right _ hx

theorem Extends.refl : Extends target edges nodes P 0 s s :=
  ⟨fun _ h => h, ⟨[], rfl, by simp⟩, fun _ h hn => absurd h hn, Nat.le_refl _⟩

theorem Extends.trans (h : Extends target edges nodes P n s s') (h' : Extends target edges nodes P n' s' s'') :
    Extends target edges nodes P (n + n') s s'' := by
  obtain ⟨new, hnew, hP⟩ := h.pending
  obtain ⟨new', hnew', hP'⟩ := h'.pending
  refine ⟨fun a ha => h'.marked a (h.marked a ha), ⟨new' ++ new, by rw [hnew', hnew, List.append_assoc], ?_⟩,
    fun a ha hn => ?_, ?_⟩
  · intro x hx
    rcases List.mem_append.mp hx with hx | hx
    · exact hP' x hx
    · exact hP x hx
  · by_cases ha' : a ∈ s'.marked
    · obtain ⟨hPa, es, hes, hall⟩ := h.new a ha' hn
      exact ⟨hPa, es, hes, fun e he => h'.kept (hall e he)⟩
    · exact h'.new a ha ha'
  · have := h.weight
    have := h'.weight
    omega

/-- A search from a node succeeds, and marks the node. -/
def Searches (target : V → Option A) (edges : A → Option (List (Edge V A))) (nodes : List A) (P : A → Prop) (bound : Nat)
    (visit : Nat → A → Marks V A → Option (Marks V A)) : Prop :=
  ∀ depth a s, P a → left nodes s.marked < bound →
    ∃ s', visit depth a s = some s' ∧ Extends target edges nodes P 0 s s' ∧ a ∈ s'.marked

variable {visit : Nat → A → Marks V A → Option (Marks V A)}

/-- With a level left, nothing is put off at once. -/
theorem follow_succ (hvisit : Searches target edges nodes P n visit) {e : Edge V A}
    (he : ∀ a, leadsTo target e = some a → P a) (hleft : left nodes s.marked < n) :
    ∃ s', follow target visit (depth + 1) e s = some s' ∧ Extends target edges nodes P 0 s s' ∧
      ∀ a, leadsTo target e = some a → a ∈ s'.marked := by
  cases e with
  | node a =>
    obtain ⟨s', hs', hext, ha⟩ := hvisit (depth + 1) a s (he a rfl) hleft
    exact ⟨s', hs', hext, fun b hb => Option.some.inj hb ▸ ha⟩
  | value x =>
    cases hx : target x with
    | none =>
      refine ⟨s, by simp only [follow, hx], .refl, fun a ha => ?_⟩
      rw [leadsTo, hx] at ha
      cases ha
    | some a =>
      obtain ⟨s', hs', hext, ha⟩ := hvisit depth a s (he a hx) hleft
      refine ⟨s', by simp only [follow, hx]; exact hs', hext, fun b hb => ?_⟩
      rw [leadsTo, hx] at hb
      exact Option.some.inj hb ▸ ha

theorem follow_spec (hvisit : Searches target edges nodes P n visit) {e : Edge V A}
    (he : ∀ a, leadsTo target e = some a → P a) (hleft : left nodes s.marked < n) :
    ∃ s', follow target visit depth e s = some s' ∧ Extends target edges nodes P 1 s s' ∧ Followed target s' e := by
  cases depth with
  | succ depth =>
    obtain ⟨s', hs', hext, hmarked⟩ := @follow_succ _ _ _ _ _ _ _ s n depth _ hvisit e he hleft
    refine ⟨s', hs', ⟨hext.marked, hext.pending, hext.new, Nat.le_succ_of_le hext.weight⟩, ?_⟩
    cases e with
    | node a => exact hmarked a rfl
    | value x => exact Or.inr hmarked
  | zero =>
    cases e with
    | node a =>
      obtain ⟨s', hs', hext, ha⟩ := hvisit 0 a s (he a rfl) hleft
      exact ⟨s', hs', ⟨hext.marked, hext.pending, hext.new, Nat.le_succ_of_le hext.weight⟩, ha⟩
    | value x =>
      refine ⟨_, rfl, ⟨fun _ h => h, ⟨[x], rfl, ?_⟩, fun _ h hn => absurd h hn, ?_⟩, Or.inl (List.mem_cons_self ..)⟩
      · intro y hy a ha
        obtain rfl := List.mem_singleton.mp hy
        exact he a ha
      · simp only [List.length_cons]
        omega

theorem followAll_spec (hvisit : Searches target edges nodes P n visit) : ∀ {es : List (Edge V A)} {s : Marks V A},
    (∀ e ∈ es, ∀ a, leadsTo target e = some a → P a) → left nodes s.marked < n →
      ∃ s', followAll target visit depth es s = some s' ∧ Extends target edges nodes P es.length s s' ∧
        ∀ e ∈ es, Followed target s' e
  | [], s, _, _ => ⟨s, rfl, .refl, by simp⟩
  | e :: es, s, hes, hleft => by
    obtain ⟨s₁, hs₁, hext₁, hfollowed⟩ := @follow_spec _ _ _ _ _ _ _ s n depth _ hvisit e (hes e (List.mem_cons_self ..)) hleft
    have hleft₁ := Nat.lt_of_le_of_lt (@left_mono _ _ nodes _ _ hext₁.marked) hleft
    obtain ⟨s₂, hs₂, hext₂, hall⟩ := followAll_spec hvisit (fun e' he' => hes e' (List.mem_cons_of_mem _ he')) hleft₁
    refine ⟨s₂, by rw [followAll, hs₁]; exact hs₂, ?_, fun e' he' => ?_⟩
    · rw [List.length_cons, Nat.add_comm]
      exact hext₁.trans hext₂
    · rcases List.mem_cons.mp he' with rfl | he'
      · exact hext₂.kept hfollowed
      · exact hall e' he'

/-- **The search succeeds**: it comes to no node deeper than there are nodes that are not marked. -/
theorem visit_spec (hclosed : Closed target edges P) (hnodes : ∀ a, P a → a ∈ nodes) :
    ∀ fuel, Searches target edges nodes P fuel (Marking.visit target edges fuel)
  | 0, _, _, _, _, hleft => absurd hleft (Nat.not_lt_zero _)
  | fuel + 1, depth, a, s, ha, hleft => by
    rw [Marking.visit]
    by_cases hmarked : a ∈ s.marked
    · rw [if_pos hmarked]
      exact ⟨s, rfl, .refl, hmarked⟩
    · rw [if_neg hmarked]
      obtain ⟨es, hes, hall⟩ := hclosed a ha
      have hlt := left_mark (hnodes a ha) hmarked
      obtain ⟨s', hs', hext, hfollowed⟩ := @followAll_spec V A target edges _ nodes P fuel depth _
        (visit_spec hclosed hnodes fuel) es { s with marked := a :: s.marked } hall
        (Nat.lt_of_lt_of_le hlt (Nat.le_of_lt_succ hleft))
      have hmark := hext.marked a (List.mem_cons_self ..)
      refine ⟨s', by rw [hes]; exact hs', ⟨fun b hb => hext.marked b (List.mem_cons_of_mem _ hb), hext.pending,
        fun b hb hn => ?_, ?_⟩, hmark⟩
      · by_cases heq : b = a
        · exact heq ▸ ⟨ha, es, hes, hfollowed⟩
        · exact hext.new b hb (by simp [heq, hn])
      · have hle := hext.weight
        have hmark := weight_mark hes hmarked (hnodes a ha)
        simp only at hle
        omega

/-- What is marked has been followed, but for what is put off. -/
def Complete (target : V → Option A) (edges : A → Option (List (Edge V A))) (s : Marks V A) : Prop :=
  ∀ a ∈ s.marked, ∃ es, edges a = some es ∧ ∀ e ∈ es, Followed target s e

/-- **Beginning again at what was put off ends**: each round follows one value less than is put off or left. -/
theorem drain_spec (hclosed : Closed target edges P) (hnodes : ∀ a, P a → a ∈ nodes) (hfuel : nodes.length < fuel) :
    ∀ {rounds : Nat} {s : Marks V A}, (∀ x ∈ s.pending, ∀ a, target x = some a → P a) → Complete target edges s →
      s.pending.length + weight edges nodes s.marked < rounds →
        ∃ s', drain target edges fuel rounds (depth + 1) s = some s' ∧ s'.pending = [] ∧ Complete target edges s' ∧
          (∀ a ∈ s.marked, a ∈ s'.marked) ∧ (∀ a ∈ s'.marked, a ∉ s.marked → P a) ∧
          ∀ x ∈ s.pending, ∀ a, target x = some a → a ∈ s'.marked
  | 0, _, _, _, h => absurd h (Nat.not_lt_zero _)
  | rounds + 1, ⟨marked, []⟩, _, hcomplete, _ =>
    ⟨⟨marked, []⟩, rfl, rfl, hcomplete, fun _ h => h, fun _ h hn => absurd h hn, by simp⟩
  | rounds + 1, ⟨marked, x :: pending⟩, hpending, hcomplete, hrounds => by
    have hleft : left nodes marked < fuel := Nat.lt_of_le_of_lt List.countP_le_length hfuel
    obtain ⟨s₁, hs₁, hext, hmarked⟩ := @follow_succ V A target edges _ nodes P ⟨marked, pending⟩ fuel depth _
      (visit_spec hclosed hnodes fuel) (.value x) (hpending x (List.mem_cons_self ..)) hleft
    obtain ⟨new, hnew, hP⟩ := hext.pending
    have hcomplete₁ : Complete target edges s₁ := by
      intro a ha
      by_cases hs : a ∈ marked
      · obtain ⟨es, hes, hall⟩ := hcomplete a hs
        refine ⟨es, hes, fun e he => ?_⟩
        -- what was followed still is; the value itself has been followed now
        cases e with
        | node b => exact hext.marked b (hall _ he)
        | value y =>
          rcases hall _ he with hy | hy
          · rcases List.mem_cons.mp hy with rfl | hy
            · exact Or.inr hmarked
            · exact Or.inl (hnew ▸ List.mem_append_right _ hy)
          · exact Or.inr fun b hb => hext.marked b (hy b hb)
      · exact (hext.new a ha hs).2
    have hpending₁ : ∀ y ∈ s₁.pending, ∀ a, target y = some a → P a := by
      intro y hy
      rw [hnew] at hy
      rcases List.mem_append.mp hy with hy | hy
      · exact hP y hy
      · exact hpending y (List.mem_cons_of_mem _ hy)
    have hweight := hext.weight
    simp only [List.length_cons] at hrounds hweight
    obtain ⟨s', hs', hempty, hcomplete', hkept, hnew', hdone⟩ :=
      drain_spec hclosed hnodes hfuel hpending₁ hcomplete₁ (by omega : _ < rounds)
    refine ⟨s', by simp only [drain, hs₁]; exact hs', hempty, hcomplete', fun a ha => hkept a (hext.marked a ha),
      fun a ha hn => ?_, fun y hy a ha => ?_⟩
    · by_cases hs₁ : a ∈ s₁.marked
      · exact (hext.new a hs₁ hn).1
      · exact hnew' a ha hs₁
    · rcases List.mem_cons.mp hy with rfl | hy
      · exact hkept a (hmarked a ha)
      · exact hdone y (hnew ▸ List.mem_append_right _ hy) a ha

/-- **Marking ends, and marks exactly what can be reached from the roots**, if all of it is there. -/
theorem mark_spec {roots : List (Edge V A)} {rounds : Nat}
    (hroots : ∀ a, Rooted target edges roots a → a ∈ nodes ∧ ∃ es, edges a = some es) (hfuel : nodes.length < fuel)
    (hrounds : roots.length + weight edges nodes [] < rounds) :
    ∃ marked, mark target edges fuel rounds (depth + 1) roots [] = some marked ∧
      ∀ a, a ∈ marked ↔ Rooted target edges roots a := by
  have hclosed := closed_rooted fun a ha => (hroots a ha).2
  have hnodes : ∀ a, Rooted target edges roots a → a ∈ nodes := fun a ha => (hroots a ha).1
  have hleft : left nodes [] < fuel := Nat.lt_of_le_of_lt List.countP_le_length hfuel
  obtain ⟨s, hs, hext, hfollowed⟩ := @followAll_spec V A target edges _ nodes _ fuel (depth + 1) _
    (visit_spec hclosed hnodes fuel) roots ⟨[], []⟩ (fun e he a ha => ⟨e, he, a, ha, .refl⟩) hleft
  obtain ⟨new, hnew, hP⟩ := hext.pending
  rw [List.append_nil] at hnew
  have hweight := hext.weight
  simp only [List.length_nil] at hweight
  have hcomplete : Complete target edges s := fun a ha => (hext.new a ha List.not_mem_nil).2
  obtain ⟨s', hs', hempty, hcomplete', hkept, hnew', hdone⟩ :=
    @drain_spec V A target edges _ nodes _ fuel depth hclosed hnodes hfuel rounds s (hnew ▸ hP) hcomplete (by omega)
  refine ⟨s'.marked, by rw [mark, hs]; simp only [Option.bind_eq_bind, Option.bind_some, hs'], fun a => ⟨fun ha => ?_, ?_⟩⟩
  · by_cases hs₀ : a ∈ s.marked
    · exact (hext.new a hs₀ List.not_mem_nil).1
    · exact hnew' a ha hs₀
  · have hclosed' : Closed target edges (· ∈ s'.marked) := by
      intro b hb
      obtain ⟨es, hes, hall⟩ := hcomplete' b hb
      refine ⟨es, hes, fun e he c hc => ?_⟩
      cases e with
      | node d => exact Option.some.inj hc ▸ hall _ he
      | value x =>
        rcases hall _ he with hx | hx
        · rw [hempty] at hx
          cases hx
        · exact hx c hc
    refine hclosed'.of_rooted fun e he r hr => ?_
    cases e with
    | node d => exact Option.some.inj hr ▸ hkept d (hfollowed _ he)
    | value x =>
      rcases hfollowed _ he with hx | hx
      · exact hdone x hx r hr
      · exact hkept r (hx r hr)

end Extends

end Marking

end Lib
