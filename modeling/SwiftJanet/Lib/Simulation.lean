/-!
# Simulation between programs

A program makes one step after the other until it ends (`Turn`). `Ends step s u o`: from `s` the steps lead to `u`, where
the program ends with `o`.

`Simulates`: one program follows another. Related states make steps to related states, or the first program steps alone,
which a rank bounds; and they end alike, unless the first program ends in a bad state. Then

- whatever the first program ends with, the other one ends with too (`Simulates.forward`);
- whatever the other program ends with, the first one ends with too, or badly (`Simulates.backward`). So the first program
  runs forever exactly when the other one does, but for bad ends.

`Follows` says both of them, and programs follow each other through any number of others (`Follows.trans`).
-/

namespace Lib

/-- What a step comes to: another state, or the end. -/
inductive Turn (S O : Type) where
  | goes (s : S)
  | ends (o : O)
deriving DecidableEq, Repr

namespace Turn

variable {S S' S'' O O' O'' : Type} {step : S → Turn S O} {step' : S' → Turn S' O'} {step'' : S'' → Turn S'' O''}
  {s u v : S} {t : S'} {o o₁ : O}

/-- The steps lead to an end. -/
inductive Ends (step : S → Turn S O) : S → S → O → Prop
  | now {s : S} {o : O} (h : step s = .ends o) : Ends step s s o
  | later {s t u : S} {o : O} (h : step s = .goes t) (hrest : Ends step t u o) : Ends step s u o

/-- The steps lead from one state to another. -/
inductive Leads (step : S → Turn S O) : S → S → Prop
  | refl {s : S} : Leads step s s
  | step {s t u : S} (h : Leads step s t) (hstep : step t = .goes u) : Leads step s u

/-- What every step keeps, a run keeps. -/
theorem Leads.keeps {I : S → Prop} (h : Leads step s u) (hs : I s)
    (keeps : ∀ s t, I s → step s = .goes t → I t) : I u := by
  induction h with
  | refl => exact hs
  | step _ hstep ih => exact keeps _ _ ih hstep

/-- The second program does what the first one does, unless the first one ends in a bad state. -/
structure Simulates (step : S → Turn S O) (step' : S' → Turn S' O') (R : S → S' → Prop) (Q : O → O' → Prop)
    (rank : S → Nat) (Bad : S → Prop) : Prop where
  goes : ∀ {s t u}, R s t → step s = .goes u →
    (∃ v, step' t = .goes v ∧ R u v) ∨ (R u t ∧ rank u < rank s)
  ends : ∀ {s t o}, R s t → step s = .ends o → (∃ o', step' t = .ends o' ∧ Q o o') ∨ Bad s

variable {R : S → S' → Prop} {Q : O → O' → Prop} {rank : S → Nat} {Bad : S → Prop}

/-- **What the first program ends with, the second one ends with**, unless that was a bad end. -/
theorem Simulates.forward (h : Simulates step step' R Q rank Bad) (he : Ends step s u o) (hr : R s t) :
    (∃ v o', Ends step' t v o' ∧ Q o o' ∧ R u v) ∨ Bad u := by
  induction he generalizing t with
  | now hs =>
    rcases h.ends hr hs with ⟨o', ht, hq⟩ | hbad
    · exact Or.inl ⟨t, o', .now ht, hq, hr⟩
    · exact Or.inr hbad
  | later hs _ ih =>
    rcases h.goes hr hs with ⟨t', ht, hr'⟩ | ⟨hr', _⟩
    · rcases ih hr' with ⟨v, o', hv, hq⟩ | hbad
      · exact Or.inl ⟨v, o', .later ht hv, hq⟩
      · exact Or.inr hbad
    · exact ih hr'

/-- **What the second program ends with, the first one ends with**, if it does not come to a bad end. -/
theorem Simulates.backward (h : Simulates step step' R Q rank Bad) {v : S'} {o' : O'} (he : Ends step' t v o')
    (hr : R s t) : ∃ u o, Ends step s u o ∧ ((Q o o' ∧ R u v) ∨ Bad u) := by
  induction he generalizing s with
  | @now t o' ht =>
    -- the first program steps alone until it ends too
    generalize hn : rank s = n
    induction n using Nat.strongRecOn generalizing s with
    | ind n ihn =>
      cases hs : step s with
      | ends o =>
        rcases h.ends hr hs with ⟨o₂, ht', hq⟩ | hbad
        · cases Turn.ends.inj (ht.symm.trans ht')
          exact ⟨s, o, .now hs, Or.inl ⟨hq, hr⟩⟩
        · exact ⟨s, o, .now hs, Or.inr hbad⟩
      | goes u =>
        rcases h.goes hr hs with ⟨v, ht', _⟩ | ⟨hr', hlt⟩
        · exact absurd (ht.symm.trans ht') (by simp)
        · obtain ⟨u', o, hu, hq⟩ := ihn (rank u) (by omega) hr' rfl
          exact ⟨u', o, .later hs hu, hq⟩
  | @later t t' v o' ht _ ih =>
    generalize hn : rank s = n
    induction n using Nat.strongRecOn generalizing s with
    | ind n ihn =>
      cases hs : step s with
      | ends o =>
        rcases h.ends hr hs with ⟨o₂, ht', _⟩ | hbad
        · exact absurd (ht.symm.trans ht') (by simp)
        · exact ⟨s, o, .now hs, Or.inr hbad⟩
      | goes u =>
        rcases h.goes hr hs with ⟨v', ht', hr'⟩ | ⟨hr', hlt⟩
        · cases Turn.goes.inj (ht.symm.trans ht')
          obtain ⟨u', o, hu, hq⟩ := ih hr'
          exact ⟨u', o, .later hs hu, hq⟩
        · obtain ⟨u', o, hu, hq⟩ := ihn (rank u) (by omega) hr' rfl
          exact ⟨u', o, .later hs hu, hq⟩

/-- From `t` the second program ends as the first one does from `s`, unless that is a bad end. -/
structure Follows (step : S → Turn S O) (step' : S' → Turn S' O') (R : S → S' → Prop) (Q : O → O' → Prop) (Bad : S → Prop)
    (s : S) (t : S') : Prop where
  forward : ∀ {u o}, Ends step s u o → (∃ v o', Ends step' t v o' ∧ Q o o' ∧ R u v) ∨ Bad u
  backward : ∀ {v o'}, Ends step' t v o' → ∃ u o, Ends step s u o ∧ ((Q o o' ∧ R u v) ∨ Bad u)

theorem Simulates.follows (h : Simulates step step' R Q rank Bad) (hr : R s t) : Follows step step' R Q Bad s t :=
  ⟨fun he => h.forward he hr, fun he => h.backward he hr⟩

/-- **Programs that follow each other one by one.** -/
theorem Follows.trans {R' : S' → S'' → Prop} {R'' : S → S'' → Prop} {Q' : O' → O'' → Prop} {Q'' : O → O'' → Prop}
    {Bad' : S' → Prop} {Bad'' : S → Prop} {r : S''} (h : Follows step step' R Q Bad s t)
    (h' : Follows step' step'' R' Q' Bad' t r) (hr : ∀ {u v w}, R u v → R' v w → R'' u w)
    (hq : ∀ {o o₁ o₂}, Q o o₁ → Q' o₁ o₂ → Q'' o o₂) (hbad : ∀ {u}, Bad u → Bad'' u)
    (hbad' : ∀ {u v}, R u v → Bad' v → Bad'' u) : Follows step step'' R'' Q'' Bad'' s r := by
  constructor
  · intro u o he
    rcases h.forward he with ⟨v, o₁, hv, hq₁, hr₁⟩ | hu
    · rcases h'.forward hv with ⟨w, o₂, hw, hq₂, hr₂⟩ | hv'
      · exact Or.inl ⟨w, o₂, hw, hq hq₁ hq₂, hr hr₁ hr₂⟩
      · exact Or.inr (hbad' hr₁ hv')
    · exact Or.inr (hbad hu)
  · intro w o₂ he
    obtain ⟨v, o₁, hv, hend⟩ := h'.backward he
    obtain ⟨u, o, hu, hend'⟩ := h.backward hv
    refine ⟨u, o, hu, ?_⟩
    rcases hend' with ⟨hq₁, hr₁⟩ | hu'
    · rcases hend with ⟨hq₂, hr₂⟩ | hv'
      · exact Or.inl ⟨hq hq₁ hq₂, hr hr₁ hr₂⟩
      · exact Or.inr (hbad' hr₁ hv')
    · exact Or.inr (hbad hu')

theorem Follows.imp {R' : S → S' → Prop} {Q' : O → O' → Prop} {Bad' : S → Prop} (h : Follows step step' R Q Bad s t)
    (hr : ∀ {u v}, R u v → R' u v) (hq : ∀ {o o'}, Q o o' → Q' o o') (hbad : ∀ {u}, Bad u → Bad' u) :
    Follows step step' R' Q' Bad' s t := by
  constructor
  · intro u o he
    exact (h.forward he).imp (fun ⟨v, o', hv, hq', hr'⟩ => ⟨v, o', hv, hq hq', hr hr'⟩) hbad
  · intro v o' he
    obtain ⟨u, o, hu, hend⟩ := h.backward he
    exact ⟨u, o, hu, hend.imp (fun ⟨hq', hr'⟩ => ⟨hq hq', hr hr'⟩) hbad⟩

/-- Run for at most `n` steps. -/
def runFor (step : S → Turn S O) : Nat → S → Option O
  | 0, _ => none
  | n + 1, s =>
    match step s with
    | .ends o => some o
    | .goes t => runFor step n t

theorem ends_of_runFor : ∀ {n : Nat} {s : S}, runFor step n s = some o → ∃ u, Ends step s u o
  | 0, _, h => by cases h
  | n + 1, s, h => by
    unfold runFor at h
    cases hs : step s with
    | ends o =>
      rw [hs] at h
      cases h
      exact ⟨s, .now hs⟩
    | goes t =>
      rw [hs] at h
      obtain ⟨u, hu⟩ := ends_of_runFor h
      exact ⟨u, .later hs hu⟩

end Turn

end Lib
