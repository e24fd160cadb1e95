import SwiftJanet.Lib.Outcome

/-!
# Traces of calls

A family of functions that hand a path on, from call to call, leaves a trace: that a call was made, with the path it was
given, and that it returned, with the path it left (`Event`). `traced` puts a body between the two.

- `Tells good path x`: what `x` adds to the trace is good however it ends, and it gives `path` back when it returns;
- `Erases x r`: without the trace, `x` is `r`.

Both have a rule for each way of putting computations together.
-/

namespace Lib

/-- What a trace records: the call `c` was made on a path, or it returned. -/
inductive Event (C P : Type) where
  | called (c : C) (path : P)
  | returned (c : C) (before after : P)

/-- Computations that leave a trace. -/
abbrev Tracing (C P E T α : Type) := Computation (List (Event C P)) E T α

namespace Tracing

variable {C P E T α β : Type}

/-- Record one more event. -/
def record (e : Event C P) : Tracing C P E T Unit := Computation.modify fun events => events ++ [e]

/-- The call `c` with its body. -/
def traced (c : C) (path : P) (body : Tracing C P E T (α × P)) : Tracing C P E T (α × P) := do
  record (.called c path)
  let result ← body
  record (.returned c path result.2)
  pure result

/-! ## What a computation adds -/

section Tells

variable {good : Event C P → Prop} {path path' : P}

/-- The events that are added are good, and whoever returns satisfies `post`. -/
def Ensures (good : Event C P → Prop) (post : α → Prop) (x : Tracing C P E T α) : Prop :=
  ∀ events, (∃ new, (x events).2 = events ++ new ∧ ∀ e ∈ new, good e) ∧ ∀ a, (x events).1 = .returns a → post a

/-- The events that are added are good, and the path is given back. -/
def Tells (good : Event C P → Prop) (path : P) (x : Tracing C P E T (α × P)) : Prop :=
  x.Ensures good fun r => r.2 = path

variable {post : α → Prop} {next : β → Prop}

theorem Ensures.pure {a : α} (h : post a) : Ensures good post (pure a : Tracing C P E T α) := by
  intro events
  refine ⟨⟨[], by simp, by simp⟩, fun b hb => ?_⟩
  cases hb
  exact h

theorem Ensures.lift {r : Outcome E T α} (h : ∀ a, r = .returns a → post a) :
    Ensures good post (Computation.lift r : Tracing C P E T α) := by
  intro events
  exact ⟨⟨[], by simp, by simp⟩, fun a ha => h a ha⟩

theorem Ensures.record {e : Event C P} (h : good e) :
    Ensures good (fun _ => True) (record e : Tracing C P E T Unit) := by
  intro events
  exact ⟨⟨[e], rfl, by simpa using h⟩, fun _ _ => trivial⟩

/-- One after the other. -/
theorem Ensures.bind {x : Tracing C P E T α} {f : α → Tracing C P E T β} (hx : x.Ensures good post)
    (hf : ∀ a, post a → (f a).Ensures good next) : Ensures good next (x >>= f) := by
  intro events
  obtain ⟨⟨new, hnew, hgood⟩, hpost⟩ := hx events
  rcases hrun : x events with ⟨o, events'⟩
  rw [hrun] at hnew hpost
  obtain rfl : events' = events ++ new := hnew
  cases o with
  | returns a =>
    rw [Computation.bind_of_returns hrun]
    obtain ⟨⟨new', hnew', hgood'⟩, hnext⟩ := hf a (hpost a rfl) (events ++ new)
    refine ⟨⟨new ++ new', by rw [hnew', List.append_assoc], fun e he => ?_⟩, hnext⟩
    rcases List.mem_append.mp he with he | he
    · exact hgood e he
    · exact hgood' e he
  | _ =>
    -- what did not return is the end of the whole
    simp only [Bind.bind, Computation.bind, hrun]
    exact ⟨⟨new, rfl, hgood⟩, by simp⟩

/-- A call tells that it was made, and that it returned with the path it was given. -/
theorem Tells.traced {c : C} {body : Tracing C P E T (α × P)} (hcalled : good (.called c path))
    (hreturned : good (.returned c path path)) (hbody : body.Tells good path) : Tells good path (traced c path body) := by
  refine Ensures.bind (Ensures.record hcalled) fun _ _ => ?_
  refine Ensures.bind hbody fun result hresult => ?_
  refine Ensures.bind (Ensures.record (by rw [hresult]; exact hreturned)) fun _ _ => ?_
  exact Ensures.pure hresult

end Tells

/-! ## Forgetting the trace -/

section Erases

/-- Without the trace, `x` is `r`. -/
def Erases (x : Tracing C P E T α) (r : Outcome E T α) : Prop := ∀ events, (x events).1 = r

theorem Erases.pure (a : α) : Erases (pure a : Tracing C P E T α) (.returns a) := fun _ => rfl

theorem Erases.lift (r : Outcome E T α) : Erases (Computation.lift r : Tracing C P E T α) r := fun _ => rfl

theorem Erases.bind {x : Tracing C P E T α} {f : α → Tracing C P E T β} {r : Outcome E T α} {g : α → Outcome E T β}
    (hx : x.Erases r) (hf : ∀ a, (f a).Erases (g a)) : Erases (x >>= f) (r >>= g) := by
  intro events
  have hr := hx events
  rcases hrun : x events with ⟨o, events'⟩
  rw [hrun] at hr
  obtain rfl : o = r := hr
  cases o with
  | returns a =>
    rw [Computation.bind_of_returns hrun]
    exact hf a events'
  | _ =>
    simp only [Bind.bind, Computation.bind, hrun]
    rfl

theorem Erases.traced {c : C} {path : P} {body : Tracing C P E T (α × P)} {r : Outcome E T (α × P)}
    (h : body.Erases r) : Erases (traced c path body) r := by
  intro events
  have hr := h (events ++ [.called c path])
  show ((body >>= fun result => record (.returned c path result.2) >>= fun _ => Pure.pure result)
    (events ++ [.called c path])).1 = r
  rcases hrun : body (events ++ [.called c path]) with ⟨o, events'⟩
  rw [hrun] at hr
  obtain rfl : o = r := hr
  cases o with
  | returns a =>
    rw [Computation.bind_of_returns hrun]
    rfl
  | _ => simp only [Bind.bind, Computation.bind, hrun]

end Erases

end Tracing

end Lib
