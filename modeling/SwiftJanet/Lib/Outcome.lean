/-!
# Outcomes of a partial computation

- `Outcome E T α`: a call returns a value, throws an error, traps (the process ends), or has not finished with the
  fuel it was given;
- `Outcome` is a monad; `bind_eq_returns` and `bind_eq_traps` take a sequence apart by how it ends;
- `Computation S E T α` also changes a state, and what it changed stays however it ends. `bind_of_returns` and
  `bind_of_traps` run the rest of a computation whose first part has ended;
- `Keeps R x`: the states before and after `x` are related, which sequencing keeps (`Keeps.bind`).
-/

namespace Lib

/-- What a call comes to, for errors `E` and traps `T`. -/
inductive Outcome (E T α : Type) where
  | returns (a : α)
  | throws (e : E)
  | traps (t : T)
  | unfinished
deriving DecidableEq, Repr

namespace Outcome

variable {E T α β γ : Type}

/-- Run `f` on the result of a call that returns. -/
protected def bind : Outcome E T α → (α → Outcome E T β) → Outcome E T β
  | returns a, f => f a
  | throws e, _ => throws e
  | traps t, _ => traps t
  | unfinished, _ => unfinished

instance : Monad (Outcome E T) where
  pure := returns
  bind := Outcome.bind

@[simp] theorem pure_eq (a : α) : (pure a : Outcome E T α) = returns a := rfl

@[simp] theorem returns_bind (a : α) (f : α → Outcome E T β) : (returns a >>= f) = f a := rfl

@[simp] theorem throws_bind (e : E) (f : α → Outcome E T β) : (throws e >>= f) = throws e := rfl

@[simp] theorem traps_bind (t : T) (f : α → Outcome E T β) : (traps t >>= f) = traps t := rfl

@[simp] theorem unfinished_bind (f : α → Outcome E T β) : (unfinished >>= f) = unfinished := rfl

/-- Sequencing is associative. -/
theorem bind_assoc (x : Outcome E T α) (f : α → Outcome E T β) (g : β → Outcome E T γ) :
    (x >>= f >>= g) = (x >>= fun a => f a >>= g) := by
  cases x <;> rfl

/-- A sequence returns exactly when both of its parts do. -/
theorem bind_eq_returns {x : Outcome E T α} {f : α → Outcome E T β} {b : β} :
    (x >>= f) = returns b ↔ ∃ a, x = returns a ∧ f a = returns b := by
  cases x <;> simp

/-- A sequence traps in its first part, or in its second one when the first has returned. -/
theorem bind_eq_traps {x : Outcome E T α} {f : α → Outcome E T β} {t : T} :
    (x >>= f) = traps t ↔ x = traps t ∨ ∃ a, x = returns a ∧ f a = traps t := by
  cases x <;> simp

end Outcome

/-- A call that changes a state `S`. -/
def Computation (S E T α : Type) := S → Outcome E T α × S

namespace Computation

variable {S E T α β : Type}

/-- Run `f` on the result, from the state that is left. -/
protected def bind (x : Computation S E T α) (f : α → Computation S E T β) : Computation S E T β := fun s =>
  match x s with
  | (.returns a, s') => f a s'
  | (.throws e, s') => (.throws e, s')
  | (.traps t, s') => (.traps t, s')
  | (.unfinished, s') => (.unfinished, s')

instance : Monad (Computation S E T) where
  pure a := fun s => (.returns a, s)
  bind := Computation.bind

/-- An outcome that does not look at the state. -/
def lift (r : Outcome E T α) : Computation S E T α := fun s => (r, s)

/-- Trap unless the condition holds. -/
def require (b : S → Bool) (t : T) : Computation S E T Unit := fun s => (if b s then .returns () else .traps t, s)

/-- Change the state. -/
def modify (f : S → S) : Computation S E T Unit := fun s => (.returns (), f s)

/-- Go on after an error. -/
def attempt (x : Computation S E T Unit) : Computation S E T Unit := fun s =>
  match x s with
  | (.throws _, s') => (.returns (), s')
  | r => r

/-- Change the state once a computation has returned or thrown. -/
def after (x : Computation S E T α) (f : S → S) : Computation S E T α := fun s =>
  match x s with
  | (.returns a, s') => (.returns a, f s')
  | (.throws e, s') => (.throws e, f s')
  | r => r

@[simp] theorem pure_apply (a : α) (s : S) : (pure a : Computation S E T α) s = (.returns a, s) := rfl

@[simp] theorem lift_apply (r : Outcome E T α) (s : S) : (lift r : Computation S E T α) s = (r, s) := rfl

/-- An outcome that returns only hands its result on. -/
@[simp] theorem lift_returns_bind (a : α) (f : α → Computation S E T β) : (lift (.returns a) >>= f) = f a := rfl

/-- Once the first part has returned, the rest runs from the state it left. -/
theorem bind_of_returns {x : Computation S E T α} {f : α → Computation S E T β} {a : α} {s s' : S}
    (h : x s = (.returns a, s')) : (x >>= f) s = f a s' := by
  show Computation.bind x f s = f a s'
  simp only [Computation.bind, h]

/-- A sequence that has returned went through a result of its first part. -/
theorem returns_of_bind {x : Computation S E T α} {f : α → Computation S E T β} {b : β} {s s' : S}
    (h : (x >>= f) s = (.returns b, s')) : ∃ a s₁, x s = (.returns a, s₁) ∧ f a s₁ = (.returns b, s') := by
  rcases hx : x s with ⟨_ | _ | _ | _, s₁⟩
  · rw [bind_of_returns hx] at h
    exact ⟨_, s₁, rfl, h⟩
  all_goals
    simp only [Bind.bind, Computation.bind, hx] at h
    cases h

/-- A sequence that begins with an outcome has returned when that one did. -/
theorem returns_of_lift_bind {r : Outcome E T α} {f : α → Computation S E T β} {b : β} {s s' : S}
    (h : (lift r >>= f) s = (.returns b, s')) : ∃ a, r = .returns a ∧ f a s = (.returns b, s') := by
  obtain ⟨a, s₁, hr, hf⟩ := returns_of_bind h
  cases hr
  exact ⟨a, rfl, hf⟩

/-- Once the first part has trapped, nothing else runs. -/
theorem bind_of_traps {x : Computation S E T α} {f : α → Computation S E T β} {t : T} {s s' : S}
    (h : x s = (.traps t, s')) : (x >>= f) s = (.traps t, s') := by
  show Computation.bind x f s = _
  simp only [Computation.bind, h]

/-- Nor once it has thrown. -/
theorem bind_of_throws {x : Computation S E T α} {f : α → Computation S E T β} {e : E} {s s' : S}
    (h : x s = (.throws e, s')) : (x >>= f) s = (.throws e, s') := by
  show Computation.bind x f s = _
  simp only [Computation.bind, h]

/-- What a computation leaves does not depend on whether its error is caught. -/
@[simp] theorem attempt_state (x : Computation S E T Unit) (s : S) : (x.attempt s).2 = (x s).2 := by
  rcases hx : x s with ⟨_ | _ | _ | _, s'⟩ <;> simp [attempt, hx]

/-- The change at the end does not touch what `f` keeps. -/
theorem after_state {β : Type} {x : Computation S E T α} {f : S → S} {g : S → β} (hf : ∀ s, g (f s) = g s) (s : S) :
    g ((x.after f) s).2 = g (x s).2 := by
  rcases hx : x s with ⟨_ | _ | _ | _, s'⟩ <;> simp [after, hx, hf]

/-- What the first part has recorded stays if the second part keeps it. -/
theorem bind_state {x : Computation S E T α} {y : α → Computation S E T β} {R : S → S → Prop}
    (hrefl : ∀ s, R s s) (hy : ∀ a s, R s (y a s).2) (s : S) : R (x s).2 ((x >>= y) s).2 := by
  show R (x s).2 (Computation.bind x y s).2
  rcases hx : x s with ⟨_ | _ | _ | _, s'⟩ <;> simp only [Computation.bind, hx]
  · exact hy _ s'
  all_goals exact hrefl s'

/-! ## What a computation keeps -/

/-- However it ends, the computation leaves a state that is related to the first one. -/
def Keeps (R : S → S → Prop) (x : Computation S E T α) : Prop := ∀ s, R s (x s).2

variable {R : S → S → Prop}

theorem Keeps.pure (hrefl : ∀ s, R s s) (a : α) : Keeps R (pure a : Computation S E T α) := hrefl

theorem Keeps.lift (hrefl : ∀ s, R s s) (r : Outcome E T α) : Keeps R (lift r : Computation S E T α) := hrefl

theorem Keeps.bind {x : Computation S E T α} {y : α → Computation S E T β} (hrefl : ∀ s, R s s)
    (htrans : ∀ {s t u}, R s t → R t u → R s u) (hx : Keeps R x) (hy : ∀ a, Keeps R (y a)) : Keeps R (x >>= y) :=
  fun s => htrans (hx s) (bind_state hrefl hy s)

/-! ## What never throws -/

/-- The computation throws no error, in any state. -/
def NeverThrows (x : Computation S E T α) : Prop := ∀ s e, (x s).1 ≠ .throws e

theorem NeverThrows.pure (a : α) : NeverThrows (pure a : Computation S E T α) := fun _ _ h => (nomatch h)

theorem NeverThrows.bind {x : Computation S E T α} {y : α → Computation S E T β} (hx : NeverThrows x)
    (hy : ∀ a, NeverThrows (y a)) : NeverThrows (x >>= y) := by
  intro s e h
  rcases hr : x s with ⟨_ | e' | _ | _, s'⟩
  · rw [bind_of_returns hr] at h
    exact hy _ s' e h
  · exact hx s e' (by rw [hr])
  all_goals
    simp only [Bind.bind, Computation.bind, hr] at h
    cases h

/-- Only the first part of a sequence can have thrown when the rest never does. -/
theorem throws_of_bind {x : Computation S E T α} {y : α → Computation S E T β} {e : E} {s s' : S}
    (hy : ∀ a, NeverThrows (y a)) (h : (x >>= y) s = (.throws e, s')) : x s = (.throws e, s') := by
  rcases hr : x s with ⟨_ | _ | _ | _, s₁⟩
  · rw [bind_of_returns hr] at h
    exact absurd (congrArg Prod.fst h) (hy _ s₁ e)
  all_goals
    simp only [Bind.bind, Computation.bind, hr] at h
    cases h
  rfl

end Computation

end Lib
