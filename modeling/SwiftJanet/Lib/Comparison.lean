import Mathlib.Data.List.Forall2
import Mathlib.Order.Lattice

/-!
# Three-way comparisons

A comparison answers `-1`, `0` or `1`, or does not answer. `Sorts cmp P`: on the values with the property `P` it answers
and is a total order, in which values that compare as `0` are not told apart.

- `Sorts.by`: comparing by a value of a linear order;
- `Sorts.andThen`: comparing once more what compares as `0`, where the second comparison only has to make sense;
- `Sorts.list`: comparing lists element by element, a beginning before the whole (`compareList`).
-/

namespace Lib.Comparison

variable {α β : Type}

/-- On the values with the property `P`, a total order up to values that compare as `0`. -/
structure Sorts (cmp : α → α → Option Int) (P : α → Prop) : Prop where
  answers : ∀ {a b}, P a → P b → cmp a b = some (-1) ∨ cmp a b = some 0 ∨ cmp a b = some 1
  swap : ∀ {a b c}, P a → P b → cmp a b = some c → cmp b a = some (-c)
  trans : ∀ {a b c}, P a → P b → P c → cmp a b = some 1 → cmp b c = some 1 → cmp a c = some 1
  congr : ∀ {a b c}, P a → P b → P c → cmp a b = some 0 → cmp a c = cmp b c

/-- Compare by the values of `f`. -/
def compareBy [LT β] [DecidableLT β] (f : α → β) (a b : α) : Option Int :=
  some (if f a < f b then -1 else if f b < f a then 1 else 0)

/-- Compare once more what compares as `0`. -/
def andThen (cmp cmp' : α → α → Option Int) (a b : α) : Option Int :=
  match cmp a b with
  | some 0 => cmp' a b
  | answer => answer

/-- Compare lists element by element; a beginning comes before the whole. -/
def compareList (cmp : α → α → Option Int) : List α → List α → Option Int
  | [], [] => some 0
  | [], _ :: _ => some (-1)
  | _ :: _, [] => some 1
  | a :: as, b :: bs =>
    match cmp a b with
    | some 0 => compareList cmp as bs
    | answer => answer

section Laws

variable {cmp cmp' : α → α → Option Int} {P Q : α → Prop} {a b c : α}

theorem Sorts.of_eq (h : Sorts cmp' P) (heq : ∀ {a b}, P a → P b → cmp a b = cmp' a b) : Sorts cmp P where
  answers ha hb := by rw [heq ha hb]; exact h.answers ha hb
  swap ha hb := by rw [heq ha hb, heq hb ha]; exact h.swap ha hb
  trans ha hb hc := by rw [heq ha hb, heq hb hc, heq ha hc]; exact h.trans ha hb hc
  congr ha hb hc := by rw [heq ha hb, heq ha hc, heq hb hc]; exact h.congr ha hb hc

theorem Sorts.imp (h : Sorts cmp P) (hq : ∀ {a}, Q a → P a) : Sorts cmp Q :=
  ⟨fun ha hb => h.answers (hq ha) (hq hb), fun ha hb => h.swap (hq ha) (hq hb),
    fun ha hb hc => h.trans (hq ha) (hq hb) (hq hc), fun ha hb hc => h.congr (hq ha) (hq hb) (hq hc)⟩

theorem Sorts.comap {cmp : β → β → Option Int} {P : β → Prop} (h : Sorts cmp P) (f : α → β) :
    Sorts (fun a b => cmp (f a) (f b)) fun a => P (f a) :=
  ⟨h.answers, h.swap, h.trans, h.congr⟩

theorem Sorts.refl (h : Sorts cmp P) (ha : P a) : cmp a a = some 0 := by
  rcases h.answers ha ha with haa | haa | haa
  · rw [h.swap ha ha haa] at haa
    cases haa
  · exact haa
  · rw [h.swap ha ha haa] at haa
    cases haa

theorem Sorts.symm (h : Sorts cmp P) (ha : P a) (hb : P b) (hab : cmp a b = some 0) : cmp b a = some 0 :=
  h.swap ha hb hab

/-- A value compares with two values alike that compare as `0`. -/
theorem Sorts.congr_right (h : Sorts cmp P) (ha : P a) (hb : P b) (hc : P c) (hbc : cmp b c = some 0) :
    cmp a b = cmp a c := by
  have hba := h.congr hb hc ha hbc
  rcases h.answers ha hb with hab | hab | hab <;> rw [h.swap ha hb hab] at hba <;>
    rw [hab, h.swap hc ha hba.symm] <;> rfl

/-- What compares with two values one after the other compares as the first that is not `0`. -/
theorem Sorts.trans_congr (h : Sorts cmp P) (ha : P a) (hb : P b) (hc : P c) (hab : cmp a b = some 1)
    (hbc : cmp b c = some 0) : cmp a c = some 1 := by rw [← h.congr_right ha hb hc hbc, hab]

/-! ## Comparing by a key -/

theorem Sorts.by [LinearOrder β] (f : α → β) : Sorts (compareBy f) P where
  answers {a b} _ _ := by
    unfold compareBy
    rcases lt_trichotomy (f a) (f b) with h | h | h
    · exact Or.inl (by rw [if_pos h])
    · exact Or.inr (Or.inl (by rw [h, if_neg (lt_irrefl _), if_neg (lt_irrefl _)]))
    · exact Or.inr (Or.inr (by rw [if_neg (lt_asymm h), if_pos h]))
  swap {a b c} _ _ h := by
    obtain rfl := Option.some.inj h
    unfold compareBy
    rcases lt_trichotomy (f a) (f b) with h | h | h
    · simp [h, lt_asymm h]
    · simp [h]
    · simp [h, lt_asymm h]
  trans {a b c} _ _ _ hab hbc := by
    have above : ∀ {a b : α}, compareBy f a b = some 1 → f b < f a := fun {a b} h => by
      by_contra hle
      rw [compareBy, if_neg hle] at h
      split at h <;> cases h
    have hlt : f c < f a := lt_trans (above hbc) (above hab)
    rw [compareBy, if_neg (lt_asymm hlt), if_pos hlt]
  congr {a b c} _ _ _ h := by
    rw [compareBy] at h
    have heq : f a = f b := by
      rcases lt_trichotomy (f a) (f b) with hlt | heq | hlt
      · rw [if_pos hlt] at h; cases h
      · exact heq
      · rw [if_neg (lt_asymm hlt), if_pos hlt] at h; cases h
    rw [compareBy, compareBy, heq]

theorem compareBy_eq_zero [LinearOrder β] {f : α → β} : compareBy f a b = some 0 ↔ f a = f b := by
  rw [compareBy]
  rcases lt_trichotomy (f a) (f b) with h | h | h
  · simp [h, ne_of_lt h]
  · simp [h]
  · simp [h, lt_asymm h, ne_of_gt h]

/-! ## Comparing once more -/

theorem andThen_eq_zero : andThen cmp cmp' a b = some 0 ↔ cmp a b = some 0 ∧ cmp' a b = some 0 := by
  unfold andThen
  split
  · next h => simp [h]
  · next h => exact ⟨fun h' => absurd h' h, fun h' => absurd h'.1 h⟩

theorem andThen_of_zero (h : cmp a b = some 0) : andThen cmp cmp' a b = cmp' a b := by
  simp only [andThen, h]

theorem andThen_of_ne (h : cmp a b ≠ some 0) : andThen cmp cmp' a b = cmp a b := by
  unfold andThen
  split
  · next h' => exact absurd h' h
  · rfl

/-- **A comparison is refined by one that sorts what compares as `0`.** -/
theorem Sorts.andThen (h : Sorts cmp P) (h' : ∀ a, P a → Sorts cmp' fun b => P b ∧ cmp a b = some 0) :
    Sorts (andThen cmp cmp') P where
  answers {a b} ha hb := by
    rcases h.answers ha hb with hab | hab | hab
    · exact Or.inl (by rw [andThen_of_ne (by rw [hab]; decide), hab])
    · rw [andThen_of_zero hab]
      exact (h' a ha).answers ⟨ha, h.refl ha⟩ ⟨hb, hab⟩
    · exact Or.inr (Or.inr (by rw [andThen_of_ne (by rw [hab]; decide), hab]))
  swap {a b c} ha hb hc := by
    by_cases hab : cmp a b = some 0
    · rw [andThen_of_zero hab] at hc
      rw [andThen_of_zero (h.symm ha hb hab)]
      exact (h' a ha).swap ⟨ha, h.refl ha⟩ ⟨hb, hab⟩ hc
    · rw [andThen_of_ne hab] at hc
      have hba := h.swap ha hb hc
      rw [andThen_of_ne fun h0 => hab (h.symm hb ha h0)]
      exact hba
  trans {a b c} ha hb hc hab hbc := by
    by_cases hab0 : cmp a b = some 0
    · by_cases hbc0 : cmp b c = some 0
      · have hac0 : cmp a c = some 0 := (h.congr ha hb hc hab0).trans hbc0
        rw [andThen_of_zero hab0] at hab
        rw [andThen_of_zero hbc0] at hbc
        rw [andThen_of_zero hac0]
        exact (h' a ha).trans ⟨ha, h.refl ha⟩ ⟨hb, hab0⟩ ⟨hc, hac0⟩ hab hbc
      · rw [andThen_of_ne hbc0] at hbc
        have hac := (h.congr ha hb hc hab0).trans hbc
        rw [andThen_of_ne (by rw [hac]; decide), hac]
    · rw [andThen_of_ne hab0] at hab
      have hac : cmp a c = some 1 := by
        by_cases hbc0 : cmp b c = some 0
        · exact h.trans_congr ha hb hc hab hbc0
        · rw [andThen_of_ne hbc0] at hbc
          exact h.trans ha hb hc hab hbc
      rw [andThen_of_ne (by rw [hac]; decide), hac]
  congr {a b c} ha hb hc hab := by
    obtain ⟨hab0, hab'⟩ := andThen_eq_zero.mp hab
    have hcongr := h.congr ha hb hc hab0
    by_cases hac0 : cmp a c = some 0
    · rw [andThen_of_zero hac0, andThen_of_zero (hcongr ▸ hac0)]
      exact (h' a ha).congr ⟨ha, h.refl ha⟩ ⟨hb, hab0⟩ ⟨hc, hac0⟩ hab'
    · rw [andThen_of_ne hac0, andThen_of_ne (hcongr ▸ hac0), hcongr]

/-! ## Comparing lists -/

section Lists

variable {as bs cs : List α}

theorem compareList_cons : compareList cmp (a :: as) (b :: bs) =
    if cmp a b = some 0 then compareList cmp as bs else cmp a b := by
  rw [compareList]
  split
  · next h => rw [if_pos h]
  · next h => rw [if_neg h]

theorem compareList_eq_zero : ∀ {as bs : List α}, compareList cmp as bs = some 0 ↔
    List.Forall₂ (fun a b => cmp a b = some 0) as bs
  | [], [] => by simp [compareList]
  | [], _ :: _ => by simp [compareList]
  | _ :: _, [] => by simp [compareList]
  | a :: as, b :: bs => by
    rw [compareList_cons, List.forall₂_cons, ← @compareList_eq_zero as bs]
    split
    · next h => simp [h]
    · next h => simp [h]

/-- **Element by element a comparison sorts lists.** -/
theorem Sorts.list (h : Sorts cmp P) : Sorts (compareList cmp) fun as => ∀ a ∈ as, P a where
  answers {as bs} has hbs := by
    induction as generalizing bs with
    | nil => cases bs <;> simp [compareList]
    | cons a as ih =>
      cases bs with
      | nil => simp [compareList]
      | cons b bs =>
        rw [List.forall_mem_cons] at has hbs
        rw [compareList_cons]
        split
        · exact ih has.2 hbs.2
        · exact h.answers has.1 hbs.1
  swap {as bs c} has hbs hc := by
    induction as generalizing bs with
    | nil =>
      cases bs with
      | nil => cases hc; rfl
      | cons b bs => cases hc; rfl
    | cons a as ih =>
      cases bs with
      | nil => cases hc; rfl
      | cons b bs =>
        rw [List.forall_mem_cons] at has hbs
        rw [compareList_cons] at hc ⊢
        split at hc
        · next hab =>
          rw [if_pos (h.symm has.1 hbs.1 hab)]
          exact ih has.2 hbs.2 hc
        · next hab =>
          rw [if_neg fun hba => hab (h.symm hbs.1 has.1 hba)]
          exact h.swap has.1 hbs.1 hc
  trans {as bs cs} has hbs hcs hab hbc := by
    induction as generalizing bs cs with
    | nil => cases bs <;> simp [compareList] at hab
    | cons a as ih =>
      cases bs with
      | nil => cases cs <;> simp [compareList] at hbc
      | cons b bs =>
        cases cs with
        | nil => rw [compareList]
        | cons c cs =>
          rw [List.forall_mem_cons] at has hbs hcs
          rw [compareList_cons] at hab hbc ⊢
          by_cases hab0 : cmp a b = some 0
          · rw [if_pos hab0] at hab
            rw [h.congr has.1 hbs.1 hcs.1 hab0]
            split at hbc
            · next hbc0 =>
              rw [if_pos hbc0]
              exact ih has.2 hbs.2 hcs.2 hab hbc
            · next hbc0 =>
              rw [if_neg hbc0]
              exact hbc
          · rw [if_neg hab0] at hab
            have hac : cmp a c = some 1 := by
              split at hbc
              · next hbc0 => exact h.trans_congr has.1 hbs.1 hcs.1 hab hbc0
              · exact h.trans has.1 hbs.1 hcs.1 hab hbc
            rw [if_neg (by rw [hac]; decide)]
            exact hac
  congr {as bs cs} has hbs hcs hab := by
    have hall := compareList_eq_zero.mp hab
    induction hall generalizing cs with
    | nil => rfl
    | @cons a b as bs hab0 _ ih =>
      cases cs with
      | nil => rfl
      | cons c cs =>
        rw [List.forall_mem_cons] at has hbs hcs
        rw [compareList_cons, if_pos hab0] at hab
        rw [compareList_cons, compareList_cons, h.congr has.1 hbs.1 hcs.1 hab0, ih has.2 hbs.2 hcs.2 hab]

end Lists

end Laws

end Lib.Comparison
