import SwiftJanet.Executor.Invariant

/-!
# What an action of the executor leaves alone

- `step_stays`: an action that neither begins nor ends a job, nor touches the reference of an object, keeps the jobs,
  the running job and the object's reference, and does not forget an answer of `isCurrentThread` on the worker;
- `enqueueShared_spec`, `releaseObject_spec`, `isCurrentThread_worker`, `endJob_spec`: what the other actions do.
-/

namespace SwiftJanet.Executor

variable {C : Type} [DecidableEq C] {s s' : State C} {t : Thread C}

/-! ## Frames -/

/-- The call is about to find out which thread it is on. -/
def Call.Asks (call : Option (Call × Phase)) : Prop :=
  ∃ p, call = some (.isCurrentThread, p) ∧ (p = .lock ∨ p = .write)

/-- The worker is about to find out which thread it is on, or has been told. -/
def State.Asked (s : State C) : Prop := Call.Asks (s.call .worker) ∨ s.answer .worker ≠ none

/-- A call that moves on forgets no answer. -/
theorem asked_setCall {c : Option (Call × Phase)} (h : Call.Asks (s.call t) → Call.Asks c) (ha : s.Asked) :
    (s.setCall t c).Asked := by
  refine ha.imp (fun hasks => ?_) id
  rw [call_setCall]
  split
  · next ht => exact h (ht ▸ hasks)
  · exact hasks

/-- An action that neither begins nor ends a job and leaves the reference of an object alone. -/
def Action.isQuiet : Action C → Bool
  | .retain _ (.thread _) | .release _ | .onThreadExit _ _ | .isCurrentThread _ | .wake | .advance _ => true
  | _ => false

structure Stays (s s' : State C) : Prop where
  finished : s'.finished = s.finished
  nextJob : s'.nextJob = s.nextJob
  object : .object ∈ s'.handles ↔ .object ∈ s.handles
  current : ∀ job, s.run.current = some job → s'.run.current = some job
  asked : s.Asked → s'.Asked

omit [DecidableEq C] in
theorem Stays.trans {s'' : State C} (h : Stays s s') (h' : Stays s' s'') : Stays s s'' :=
  ⟨h'.finished.trans h.finished, h'.nextJob.trans h.nextJob, h'.object.trans h.object,
    fun job hjob => h'.current job (h.current job hjob), h'.asked ∘ h.asked⟩

theorem Run.current_signalled (r : Run) : r.signalled.current = r.current := by cases r <;> rfl

/-- Dropping references starts at most a call of `stop`. -/
theorem stays_drop (n : Nat) (hcall : s.call t = none) : Stays s (s.drop t n) := by
  unfold State.drop
  split
  · refine ⟨rfl, rfl, Iff.rfl, fun _ h => h, fun hasked => ?_⟩
    refine asked_setCall (s := { s with refs := s.refs - n }) ?_ hasked
    rintro ⟨p, hp, -⟩
    rw [show State.call _ t = s.call t from rfl, hcall] at hp
    cases hp
  · exact ⟨rfl, rfl, Iff.rfl, fun _ h => h, id⟩

/-- A call does its next statement. -/
theorem stays_callStep {c : Call} {p : Phase} (hc : s.call t = some (c, p)) (hs : s.callStep t c p = some s') :
    Stays s s' := by
  cases p with
  | lock =>
    simp only [State.callStep, Option.ite_none_right_eq_some, Option.some.injEq] at hs
    obtain ⟨_, rfl⟩ := hs
    refine ⟨rfl, rfl, Iff.rfl, fun _ h => h, asked_setCall (c := some (c, .write)) ?_⟩
    rintro ⟨q, hq, -⟩
    rw [hc] at hq
    cases hq
    exact ⟨.write, rfl, Or.inr rfl⟩
  | write =>
    cases c with
    | enqueue job | stop =>
      obtain rfl := Option.some.inj hs
      refine ⟨rfl, rfl, Iff.rfl, fun _ h => h, asked_setCall (s := s) ?_⟩
      rintro ⟨q, hq, -⟩
      rw [hc] at hq
      cases hq
    | isCurrentThread =>
      obtain rfl := Option.some.inj hs
      refine ⟨rfl, rfl, Iff.rfl, fun _ h => h, fun hasked => ?_⟩
      by_cases ht : t = .worker
      · subst ht
        refine Or.inr ?_
        show Function.update s.answer Thread.worker _ Thread.worker ≠ none
        rw [Function.update_self]
        simp
      · refine hasked.imp (fun hasks => ?_) fun ha => ?_
        · show Call.Asks ((s.setCall t _).call .worker)
          rw [call_setCall, if_neg (Ne.symm ht)]
          exact hasks
        · show Function.update s.answer t _ Thread.worker ≠ none
          rw [Function.update_of_ne (Ne.symm ht)]
          exact ha
  | signal =>
    obtain rfl := Option.some.inj hs
    refine ⟨rfl, rfl, Iff.rfl, fun job hjob => (Run.current_signalled s.run).trans hjob,
      asked_setCall (s := s) ?_⟩
    rintro ⟨q, hq, hphase⟩
    rw [hc] at hq
    cases hq
    rcases hphase with hphase | hphase <;> cases hphase
  | unlock =>
    obtain rfl := Option.some.inj hs
    refine ⟨rfl, rfl, Iff.rfl, fun _ h => h, asked_setCall (s := s) ?_⟩
    rintro ⟨q, hq, hphase⟩
    rw [hc] at hq
    cases hq
    rcases hphase with hphase | hphase <;> cases hphase

omit [DecidableEq C] in
/-- Outside the jobs the worker may change all the rest. -/
theorem stays_goto {l th : Option (Thread C)} {k : Nat} {js : List Job} {st : List (Job × Thread C)}
    {e : List (Handler × Thread C)} {r : Run} (h : s.run.current = none) :
    Stays s { s with lock := l, thread := th, refs := k, jobs := js, started := st, exits := e, run := r } :=
  ⟨rfl, rfl, Iff.rfl, fun _ hjob => (nomatch h.symm.trans hjob), id⟩

/-- The worker does its next statement; inside a job it has none. -/
theorem stays_runStep (hc : s.call .worker = none) (hs : s.runStep = some s') : Stays s s' := by
  rw [State.runStep] at hs
  cases hrun : s.run <;> rw [hrun] at hs
  case entering | locking | woken =>
    simp only [Option.ite_none_right_eq_some, Option.some.injEq] at hs
    obtain ⟨_, rfl⟩ := hs
    exact stays_goto (by rw [hrun]; rfl)
  case registering | checking =>
    dsimp only at hs
    split at hs <;> (cases hs; exact stays_goto (by rw [hrun]; rfl))
  case registered | copying | deciding | unlocking | handling => cases hs; exact stays_goto (by rw [hrun]; rfl)
  case emptying b =>
    cases hs
    exact (stays_goto (by rw [hrun]; rfl)).trans (stays_drop _ hc)
  case branching b e o =>
    cases e with
    | false => cases hs; exact stays_goto (by rw [hrun]; rfl)
    | true => cases o <;> (cases hs; exact stays_goto (by rw [hrun]; rfl))
  case next b rest => cases rest <;> (cases hs; exact stays_goto (by rw [hrun]; rfl))
  case dropping b =>
    cases b with
    | nil => cases hs; exact stays_goto (by rw [hrun]; rfl)
    | cons job b =>
      cases hs
      exact (stays_goto (by rw [hrun]; rfl)).trans (stays_drop _ hc)
  case waiting | running | returned | trapped => cases hs

theorem mem_erase_thread : Holder.object ∈ s.handles.erase (.thread t) ↔ Holder.object ∈ s.handles :=
  List.mem_erase_of_ne fun h => (nomatch h)

/-- **A quiet action stays with the jobs, the object and the answer.** -/
theorem step_stays {a : Action C} (ha : a.isQuiet = true) (hs : s.step a = some s') : Stays s s' := by
  cases a with
  | retain src dst =>
    simp only [State.step, Option.ite_none_right_eq_some, Option.some.injEq] at hs
    obtain ⟨_, rfl⟩ := hs
    cases dst with
    | thread t => exact ⟨rfl, rfl, by simp, fun _ h => h, id⟩
    | object => cases ha
  | release t =>
    simp only [State.step, Option.ite_none_right_eq_some, Option.some.injEq] at hs
    obtain ⟨⟨hfree, _⟩, rfl⟩ := hs
    have herase : Stays s { s with handles := s.handles.erase (.thread t) } :=
      ⟨rfl, rfl, mem_erase_thread, fun _ h => h, id⟩
    exact herase.trans (stays_drop _ hfree.1)
  | onThreadExit t h =>
    simp only [State.step, Option.ite_none_right_eq_some, Option.some.injEq] at hs
    obtain ⟨_, rfl⟩ := hs
    exact ⟨rfl, rfl, Iff.rfl, fun _ h => h, id⟩
  | isCurrentThread t =>
    simp only [State.step, Option.ite_none_right_eq_some, Option.some.injEq] at hs
    obtain ⟨⟨hfree, _⟩, rfl⟩ := hs
    refine ⟨rfl, rfl, Iff.rfl, fun _ h => h, fun hasked => ?_⟩
    by_cases ht : t = .worker
    · exact Or.inl ⟨.lock, (call_setCall s t .worker _).trans (if_pos ht.symm), Or.inl rfl⟩
    · refine hasked.imp (fun hasks => ?_) fun h => ?_
      · show Call.Asks ((s.setCall t _).call .worker)
        rw [call_setCall, if_neg (Ne.symm ht)]
        exact hasks
      · show Function.update s.answer t none Thread.worker ≠ none
        rw [Function.update_of_ne (Ne.symm ht)]
        exact h
  | wake =>
    rw [State.step] at hs
    split at hs
    · next hrun => cases hs; exact stays_goto (by rw [hrun]; rfl)
    · cases hs
  | advance t =>
    rw [State.step] at hs
    split at hs
    · next c p hc => exact stays_callStep hc hs
    · next hc =>
      simp only [Option.ite_none_right_eq_some] at hs
      obtain ⟨rfl, hs⟩ := hs
      exact stays_runStep hc hs
  | take | enqueue | endJob => cases ha

/-! ## Jobs and objects -/

theorem reachable_step {a : Action C} (h : (executor C).Reachable s) (hs : s.step a = some s') :
    (executor C).Reachable s' := .step (a := a) h hs

/-- Begin a call of `isCurrentThread` on the worker. -/
theorem isCurrentThread_worker (hs : s.step (.isCurrentThread .worker) = some s') : Stays s s' ∧ s'.Asked := by
  refine ⟨step_stays rfl hs, ?_⟩
  simp only [State.step, Option.ite_none_right_eq_some, Option.some.injEq] at hs
  obtain ⟨_, rfl⟩ := hs
  exact Or.inl ⟨.lock, (call_setCall s .worker .worker _).trans (if_pos rfl), Or.inl rfl⟩

/-- The worker ends its job. -/
theorem endJob_spec (hs : s.step .endJob = some s') :
    ∃ job, s.run.current = some job ∧ s'.finished = s.finished ++ [job] ∧ s'.run.current = none ∧
      s'.nextJob = s.nextJob ∧ s'.handles = s.handles := by
  rw [State.step] at hs
  split at hs
  · next b job rest hrun =>
    simp only [Option.ite_none_right_eq_some, Option.some.injEq] at hs
    obtain ⟨_, rfl⟩ := hs
    exact ⟨job, by rw [hrun]; rfl, rfl, rfl, rfl, rfl⟩
  · cases hs

/-- The actions by which a thread that can reach an object enqueues a job on the object's executor. -/
def enqueueShared (t : Thread C) : List (Action C) := [.retain .object (.thread t), .enqueue t]

/-- The actions by which an object goes away and releases its executor. -/
def releaseObject (t : Thread C) : List (Action C) := [.take t, .release t]

/-- The actions by which the creator of an executor stores it in an object. -/
def storeObject (t : Thread C) : List (Action C) := [.retain (.thread t) .object, .release t]

theorem enqueueShared_spec (hs : (executor C).run s (enqueueShared t) = some s') :
    s'.finished = s.finished ∧ s'.nextJob = s.nextJob + 1 ∧ (Holder.object ∈ s'.handles ↔ Holder.object ∈ s.handles) ∧
      s'.run = s.run ∧ (s.Asked → s'.Asked) := by
  obtain ⟨u, hu, hs⟩ := Option.bind_eq_some_iff.mp hs
  obtain ⟨w, hw, hs⟩ := Option.bind_eq_some_iff.mp hs
  obtain rfl := Option.some.inj hs
  have hu' : s.step (.retain .object (.thread t)) = some u := hu
  have hw' : u.step (.enqueue t) = some w := hw
  simp only [State.step, Option.ite_none_right_eq_some, Option.some.injEq] at hu' hw'
  obtain ⟨_, rfl⟩ := hu'
  obtain ⟨⟨hfree, _⟩, rfl⟩ := hw'
  refine ⟨rfl, rfl, by simp [State.setCall], rfl, fun hasked => ?_⟩
  refine asked_setCall (s := { s with handles := .thread t :: s.handles, refs := s.refs + 1 }) ?_ hasked
  rintro ⟨p, hp, -⟩
  rw [hfree.1] at hp
  cases hp

theorem releaseObject_spec (hs : (executor C).run s (releaseObject t) = some s') :
    s'.finished = s.finished ∧ s'.nextJob = s.nextJob ∧ ∀ job, s.run.current = some job → s'.run.current = some job := by
  obtain ⟨u, hu, hs⟩ := Option.bind_eq_some_iff.mp hs
  obtain ⟨w, hw, hs⟩ := Option.bind_eq_some_iff.mp hs
  obtain rfl := Option.some.inj hs
  have hu' : s.step (.take t) = some u := hu
  have hstays : Stays u w := step_stays (a := .release t) rfl hw
  simp only [State.step, Option.ite_none_right_eq_some, Option.some.injEq] at hu'
  obtain ⟨_, rfl⟩ := hu'
  exact ⟨hstays.finished, hstays.nextJob, hstays.current⟩

theorem storeObject_spec {c : C} (hs : (executor C).run (State.initial c) (storeObject (.client c)) = some s') :
    s'.finished = [] ∧ s'.nextJob = 0 ∧ Holder.object ∈ s'.handles := by
  obtain ⟨u, hu, hs⟩ := Option.bind_eq_some_iff.mp hs
  obtain ⟨w, hw, hs⟩ := Option.bind_eq_some_iff.mp hs
  obtain rfl := Option.some.inj hs
  have hu' : (State.initial c).step (.retain (.thread (.client c)) .object) = some u := hu
  have hstays : Stays u w := step_stays (a := .release (.client c)) rfl hw
  simp only [State.step, Option.ite_none_right_eq_some, Option.some.injEq] at hu'
  obtain ⟨_, rfl⟩ := hu'
  exact ⟨hstays.finished, hstays.nextJob, hstays.object.mpr List.mem_cons_self⟩

end SwiftJanet.Executor
