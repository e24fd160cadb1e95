/-!
# State machines

A machine has start states and a partial step for each action. `Reachable`: the states of its runs; `Leads s t`: some
run leads from `s` to `t`.

- `invariant`: what holds at the start and is kept by each step holds of every reachable state;
- `Leads.keeps`: what each step from a reachable state keeps, every run from there keeps;
- `reachable_run`: running a list of actions leads to a reachable state;
- `visits_iff_makes`: a property holds in all states of a run exactly when all its steps meet a condition, if each such
  step keeps an invariant behind the property and every other step breaks the property.
-/

namespace Lib

/-- A machine with states `S` and actions `A`; an action that is not possible has no next state. -/
structure Machine (S A : Type) where
  start : S → Prop
  step : S → A → Option S

namespace Machine

variable {S A : Type} {m : Machine S A} {s t u : S} {a : A}

/-- The states of the runs. -/
inductive Reachable (m : Machine S A) : S → Prop
  | start {s : S} (h : m.start s) : Reachable m s
  | step {s t : S} {a : A} (h : Reachable m s) (hstep : m.step s a = some t) : Reachable m t

/-- A run leads from one state to another. -/
inductive Leads (m : Machine S A) (s : S) : S → Prop
  | refl : Leads m s s
  | step {t u : S} {a : A} (h : Leads m s t) (hstep : m.step t a = some u) : Leads m s u

/-- Do one action after the other. -/
def run (m : Machine S A) : S → List A → Option S
  | s, [] => some s
  | s, a :: as => (m.step s a).bind fun t => m.run t as

/-- Every state that the actions lead through has the property. -/
def Visits (m : Machine S A) (P : S → Prop) : S → List A → Prop
  | s, [] => P s
  | s, a :: as => P s ∧ ∀ t, m.step s a = some t → m.Visits P t as

/-- Every step that the actions make meets the condition. -/
def Makes (m : Machine S A) (ok : S → A → Prop) : S → List A → Prop
  | _, [] => True
  | s, a :: as => ∀ t, m.step s a = some t → ok s a ∧ m.Makes ok t as

/-- **The induction over runs.** -/
theorem invariant {I : S → Prop} (start : ∀ s, m.start s → I s)
    (step : ∀ s a t, I s → m.step s a = some t → I t) (h : m.Reachable s) : I s := by
  induction h with
  | start h => exact start _ h
  | step _ hstep ih => exact step _ _ _ ih hstep

theorem Reachable.leads (h : m.Reachable s) (hl : m.Leads s t) : m.Reachable t := by
  induction hl with
  | refl => exact h
  | step _ hstep ih => exact .step ih hstep

/-- What every step from a reachable state keeps, a run from a reachable state keeps. -/
theorem Leads.keeps {I : S → Prop} (hr : m.Reachable s) (hl : m.Leads s t) (hs : I s)
    (step : ∀ u a v, m.Reachable u → I u → m.step u a = some v → I v) : I t := by
  induction hl with
  | refl => exact hs
  | step hl hstep ih => exact step _ _ _ (hr.leads hl) ih hstep

theorem reachable_run : ∀ {as : List A} {s : S}, m.Reachable s → m.run s as = some t → m.Reachable t
  | [], _, h, hrun => by cases hrun; exact h
  | a :: as, s, h, hrun => by
    obtain ⟨u, hu, hrun⟩ := Option.bind_eq_some_iff.mp hrun
    exact reachable_run (.step h hu) hrun

/-- What holds behind an invariant that the steps of a run keep, holds in all of its states. -/
theorem visits_of_makes {I P : S → Prop} {ok : S → A → Prop} (holds : ∀ s, I s → P s)
    (keeps : ∀ s a t, I s → m.step s a = some t → ok s a → I t) :
    ∀ (as : List A) (s : S), I s → m.Makes ok s as → m.Visits P s as
  | [], s, hs, _ => holds s hs
  | a :: as, s, hs, h => ⟨holds s hs, fun t ht =>
    visits_of_makes holds keeps as t (keeps s a t hs ht (h t ht).1) (h t ht).2⟩

/-- **The exact condition on the steps of a run.** -/
theorem visits_iff_makes {I P : S → Prop} {ok : S → A → Prop} (holds : ∀ s, I s → P s)
    (keeps : ∀ s a t, I s → m.step s a = some t → ok s a → I t)
    (breaks : ∀ s a t, I s → m.step s a = some t → P t → ok s a) :
    ∀ (as : List A) (s : S), I s → (m.Visits P s as ↔ m.Makes ok s as)
  | [], s, hs => ⟨fun _ => trivial, fun _ => holds s hs⟩
  | a :: as, s, hs => by
    refine ⟨fun h t ht => ?_, visits_of_makes holds keeps (a :: as) s hs⟩
    have hvisits := h.2 t ht
    have hok : ok s a := breaks s a t hs ht (by cases as <;> first | exact hvisits | exact hvisits.1)
    exact ⟨hok, (visits_iff_makes holds keeps breaks as t (keeps s a t hs ht hok)).mp hvisits⟩

end Machine

end Lib
