import SwiftJanet.Executor.Invariant

/-!
# What the executor guarantees

- `jobs_in_order`: jobs run in the order of their critical sections, each once, one at a time, on the worker;
- `no_lost_wakeup`: a parked worker has nothing to do, and no thread takes a lock that it holds;
- `teardown_in_order`: `stopped` comes after the last job, the worker returns after `stopped`, and the exit handler is
  called once in between.
-/

namespace SwiftJanet.Executor

variable {C : Type} [DecidableEq C] {s s' : State C} {t : Thread C}

/-! ## A run

The last reference is released inside a job: the thread that made the executor hands its reference over to the job, and
the job drops it. -/

private def advances (t : Thread Nat) (n : Nat) : List (Action Nat) := List.replicate n (.advance t)

/-- The worker starts and finds nothing to do. -/
def parked : List (Action Nat) := advances .worker 5

/-- The creator passes a handler, enqueues a job, and leaves its reference to the worker. -/
def handedOver : List (Action Nat) :=
  parked ++ [.onThreadExit (.client 0) 7, .enqueue (.client 0)] ++ advances (.client 0) 4 ++
    [.retain (.thread (.client 0)) (.thread .worker), .release (.client 0)]

/-- The worker runs the job, drops the last reference with the batch, calls `stop` and exits. -/
def lastReleaseInJob : List (Action Nat) :=
  handedOver ++ advances .worker 8 ++ [.release .worker, .endJob] ++ advances .worker 15

theorem reachable_actions {s : State Nat} (as : List (Action Nat))
    (h : (executor Nat).run (State.initial 0) as = some s) : (executor Nat).Reachable s :=
  Lib.Machine.reachable_run (.start ⟨0, rfl⟩) h

/-! ## What the reference count says -/

omit [DecidableEq C] in
/-- With the last reference gone nothing is queued and nothing of the batch is left. -/
theorem Inv.drained (h : Inv 0 s) (hr : s.refs = 0) : s.jobs = [] ∧ s.run.toRun = [] ∧ s.run.current = none := by
  have hrefs := h.refs
  have hroom := h.room
  refine ⟨List.length_eq_zero_iff.mp ?_, List.length_eq_zero_iff.mp ?_, Option.toList_eq_nil_iff.mp ?_⟩
  · omega
  · omega
  · apply List.length_eq_zero_iff.mp
    omega

omit [DecidableEq C] in
/-- Once `stopped` is set all jobs have run. -/
theorem Inv.finished_of_stopped (h : Inv 0 s) (hs : s.stopped = true) : s.finished = s.enqueued := by
  obtain ⟨hjobs, htoRun, hcurrent⟩ := h.drained (h.dead hs)
  have hfinished := h.finished
  rw [hcurrent, Option.toList_none, List.append_nil] at hfinished
  rw [h.order, hjobs, htoRun, List.append_nil, List.append_nil, hfinished]

omit [DecidableEq C] in
theorem Inv.stopped_of_returned (h : Inv 0 s) (hr : s.run = .returned) : s.stopped = true :=
  (h.exiting (by rw [hr]; rfl)).1

/-! ## Order -/

/-- **The jobs run in the order of their critical sections**, each at most once, one at a time and on the worker's
thread; when `run` has returned all of them have run. -/
theorem jobs_in_order (h : (executor C).Reachable s) :
    s.started.map Prod.fst <+: s.enqueued ∧ (s.started.map Prod.fst).Nodup ∧
      s.started.map Prod.fst = s.finished ++ s.run.current.toList ∧
      (∀ e ∈ s.started, e.2 = .worker) ∧ (s.run.current ≠ none → s.thread = some .worker) ∧
      (s.run = .returned → s.finished = s.enqueued) := by
  have hinv := reachable_inv h
  have horder : s.started.map Prod.fst <+: s.enqueued := by
    rw [hinv.order, List.append_assoc]
    exact List.prefix_append _ _
  refine ⟨horder, hinv.nodup.sublist horder.sublist, hinv.finished, hinv.onWorker, fun hc => ?_, fun hr =>
    hinv.finished_of_stopped (hinv.stopped_of_returned hr)⟩
  have hthread := hinv.thread
  cases hrun : s.run <;> rw [hrun] at hthread hc <;> first | exact hthread | exact absurd rfl hc

theorem jobs_in_order_lastReleaseInJob : ∃ s, (executor Nat).run (State.initial 0) lastReleaseInJob = some s ∧
    s.run = .returned ∧ s.enqueued = [0] ∧ s.finished = s.enqueued :=
  ⟨_, rfl, rfl, rfl, (jobs_in_order (reachable_actions lastReleaseInJob rfl)).2.2.2.2.2 rfl⟩

/-! ## The lock and the condition -/

/-- The thread is about to take the lock. -/
def State.TakesLock (s : State C) (t : Thread C) : Prop :=
  (∃ c, s.call t = some (c, .lock)) ∨ (t = .worker ∧ s.run.takesLock = true)

/-- **No lost wake-up and no self-deadlock.** A worker that is parked, with no thread about to signal, has nothing to
do; a thread that is about to take the lock does not hold it, whether it calls, drops a reference or loops. -/
theorem no_lost_wakeup (h : (executor C).Reachable s) :
    (s.run = .waiting ∧ ¬s.Signalling → s.jobs = [] ∧ s.stopped = false) ∧ ∀ t, s.TakesLock t → s.lock ≠ some t := by
  have hinv := reachable_inv h
  refine ⟨fun ⟨hwait, hsignal⟩ => (hinv.wake hwait).resolve_right hsignal, fun t ht hheld => ?_⟩
  rcases (hinv.lock t).mp hheld with ⟨c, p, hc, hp⟩ | ⟨rfl, hlocked⟩
  · rcases ht with ⟨c', hc'⟩ | ⟨rfl, htakes⟩
    · rw [hc] at hc'
      cases hc'
      exact hp rfl
    · -- a worker inside a call is inside a job, the handler, or a batch that it drops
      have hcode := hinv.inCode (by rw [hc]; exact fun h => (nomatch h))
      exact (nomatch (Run.not_inCode_of_takesLock htakes).symm.trans hcode)
  · rcases ht with ⟨c', hc'⟩ | ⟨_, htakes⟩
    · have hcode := hinv.inCode (by rw [hc']; exact fun h => (nomatch h))
      exact (nomatch (Run.not_locked_of_inCode hcode).symm.trans hlocked)
    · exact (nomatch (Run.not_locked_of_takesLock htakes).symm.trans hlocked)

theorem no_lost_wakeup_parked : ∃ s, (executor Nat).run (State.initial 0) (parked ++ [.enqueue (.client 0)]) = some s ∧
    s.run = .waiting ∧ s.jobs = [] ∧ s.stopped = false ∧ s.lock ≠ some (.client 0) := by
  have h := no_lost_wakeup (reachable_actions (parked ++ [.enqueue (.client 0)]) rfl)
  refine ⟨_, rfl, rfl, (h.1 ⟨rfl, ?_⟩).1, (h.1 ⟨rfl, ?_⟩).2, h.2 (.client 0) (Or.inl ⟨_, rfl⟩)⟩
  all_goals
    rintro ⟨t, c, hc⟩
    rw [show State.call _ t = _ from call_setCall _ _ t _] at hc
    split at hc <;> cases hc

/-! ## Teardown -/

section Drop

variable (s : State C) (t : Thread C) (n : Nat)

@[simp] theorem drop_enqueued : (s.drop t n).enqueued = s.enqueued := by unfold State.drop; split <;> rfl

@[simp] theorem drop_stopped : (s.drop t n).stopped = s.stopped := by unfold State.drop; split <;> rfl

end Drop

/-- A call adds to the queue only when it is an `enqueue` at its critical section, and never resets `stopped`. -/
theorem callStep_enqueued {c : Call} {p : Phase} (hs : s.callStep t c p = some s') :
    (s'.enqueued = s.enqueued ∨ ∃ job, c = .enqueue job) ∧ (s.stopped = true → s'.stopped = true) := by
  cases p with
  | lock =>
    simp only [State.callStep, Option.ite_none_right_eq_some, Option.some.injEq] at hs
    obtain ⟨_, rfl⟩ := hs
    exact ⟨Or.inl rfl, id⟩
  | write =>
    cases c with
    | enqueue job => obtain rfl := Option.some.inj hs; exact ⟨Or.inr ⟨job, rfl⟩, id⟩
    | stop => obtain rfl := Option.some.inj hs; exact ⟨Or.inl rfl, fun _ => rfl⟩
    | isCurrentThread => obtain rfl := Option.some.inj hs; exact ⟨Or.inl rfl, id⟩
  | signal => obtain rfl := Option.some.inj hs; exact ⟨Or.inl rfl, id⟩
  | unlock => obtain rfl := Option.some.inj hs; exact ⟨Or.inl rfl, id⟩

/-- The worker appends nothing and does not touch `stopped`. -/
theorem runStep_enqueued (hs : s.runStep = some s') : s'.enqueued = s.enqueued ∧ s'.stopped = s.stopped := by
  rw [State.runStep] at hs
  cases hrun : s.run <;> rw [hrun] at hs
  case entering | locking | woken =>
    simp only [Option.ite_none_right_eq_some, Option.some.injEq] at hs
    obtain ⟨_, rfl⟩ := hs
    exact ⟨rfl, rfl⟩
  case registering | checking =>
    dsimp only at hs
    split at hs <;> (cases hs; exact ⟨rfl, rfl⟩)
  case registered | copying | deciding | unlocking | handling => cases hs; exact ⟨rfl, rfl⟩
  case emptying => cases hs; exact ⟨drop_enqueued .., drop_stopped ..⟩
  case branching b e o =>
    cases e with
    | false => cases hs; exact ⟨rfl, rfl⟩
    | true => cases o <;> (cases hs; exact ⟨rfl, rfl⟩)
  case next b rest => cases rest <;> (cases hs; exact ⟨rfl, rfl⟩)
  case dropping b =>
    cases b with
    | nil => cases hs; exact ⟨rfl, rfl⟩
    | cons job b => cases hs; exact ⟨drop_enqueued .., drop_stopped ..⟩
  case waiting | running | returned | trapped => cases hs

/-- Once `stopped` is set it stays, and nothing is appended any more. -/
theorem step_stopped {a : Action C} (hinv : Inv 0 s) (hstopped : s.stopped = true) (hs : s.step a = some s') :
    s'.stopped = true ∧ s'.enqueued = s.enqueued := by
  cases a with
  | retain | take | onThreadExit | enqueue | isCurrentThread =>
    simp only [State.step, Option.ite_none_right_eq_some, Option.some.injEq] at hs
    obtain ⟨_, rfl⟩ := hs
    exact ⟨hstopped, rfl⟩
  | release =>
    simp only [State.step, Option.ite_none_right_eq_some, Option.some.injEq] at hs
    obtain ⟨_, rfl⟩ := hs
    exact ⟨(drop_stopped ..).trans hstopped, drop_enqueued ..⟩
  | endJob =>
    rw [State.step] at hs
    split at hs
    · simp only [Option.ite_none_right_eq_some, Option.some.injEq] at hs
      obtain ⟨_, rfl⟩ := hs
      exact ⟨hstopped, rfl⟩
    · cases hs
  | wake =>
    rw [State.step] at hs
    split at hs
    · cases hs
      exact ⟨hstopped, rfl⟩
    · cases hs
  | advance t =>
    rw [State.step] at hs
    split at hs
    · next c p hc =>
      obtain ⟨henq, hstop⟩ := callStep_enqueued hs
      refine ⟨hstop hstopped, henq.resolve_right ?_⟩
      -- whoever calls `enqueue` keeps the executor alive
      rintro ⟨job, rfl⟩
      have := hinv.refs_pos (hinv.referenced t _ p hc (by simp))
      have := hinv.dead hstopped
      omega
    · simp only [Option.ite_none_right_eq_some] at hs
      obtain ⟨henq, hstop⟩ := runStep_enqueued hs.2
      exact ⟨hstop.trans hstopped, henq⟩

/-- Nothing is appended once `stopped` is set. -/
theorem enqueued_of_stopped (h : (executor C).Reachable s) (hstopped : s.stopped = true) (hl : (executor C).Leads s s') :
    s'.enqueued = s.enqueued := by
  let Kept (u : State C) : Prop := u.stopped = true ∧ u.enqueued = s.enqueued
  have hkept : Kept s' := Lib.Machine.Leads.keeps h hl ⟨hstopped, rfl⟩ fun u a v hu ⟨hstop, henq⟩ hs =>
    have ⟨hstop', henq'⟩ := step_stopped (reachable_inv hu) hstop hs
    ⟨hstop', henq'.trans henq⟩
  exact hkept.2

omit [DecidableEq C] in
/-- When the exit handler has been called, the worker is exiting and outside its critical sections. -/
theorem Inv.exiting_of_exits (h : Inv 0 s) (he : s.exits ≠ []) : s.run.exiting = true ∧ s.run.locked = false := by
  have hlog := h.exits
  rw [State.ExitLog] at hlog
  cases hrun : s.run <;> rw [hrun] at hlog <;> first | exact ⟨rfl, rfl⟩ | exact absurd hlog he

omit [DecidableEq C] in
/-- With no call in progress the lock is free outside the worker's critical sections. -/
theorem Inv.unlocked (h : Inv 0 s) (hcall : ∀ t, s.call t = none) (hl : s.run.locked = false) : s.lock = none := by
  refine Option.eq_none_iff_forall_ne_some.mpr fun t ht => ?_
  rcases (h.lock t).mp ht with ⟨c, p, hc, _⟩ | ⟨_, hlocked⟩
  · rw [hcall t] at hc
    cases hc
  · rw [hl] at hlocked
    cases hlocked

/-- **Teardown.** `stopped` is set only when no job is left, and no job is appended after that; `run` returns only
after `stopped`, with all jobs done; the last exit handler passed is called at most once, on the worker, after the last
job and outside the lock, and has been called when `run` has returned. -/
theorem teardown_in_order (h : (executor C).Reachable s) :
    (s.stopped = true → s.jobs = [] ∧ s.run.toRun = [] ∧ s.run.current = none) ∧
      (s.stopped = true → ∀ s', (executor C).Leads s s' → s'.enqueued = s.enqueued) ∧
      (s.run = .returned → s.stopped = true ∧ s.finished = s.enqueued) ∧
      s.exits <+: (s.passed.getLast?.map fun f => (f, (Thread.worker : Thread C))).toList ∧
      (s.exits ≠ [] → s.finished = s.enqueued ∧ s.lock = none) ∧
      (s.run = .returned → s.exits = (s.passed.getLast?.map fun f => (f, (Thread.worker : Thread C))).toList) := by
  have hinv := reachable_inv h
  have hlog := hinv.exits
  rw [State.ExitLog, hinv.onExit] at hlog
  refine ⟨fun hs => hinv.drained (hinv.dead hs), fun hs s' hl => enqueued_of_stopped h hs hl, fun hr => ?_, ?_,
    fun he => ?_, fun hr => ?_⟩
  · have hs := hinv.stopped_of_returned hr
    exact ⟨hs, hinv.finished_of_stopped hs⟩
  · cases hrun : s.run <;> rw [hrun] at hlog
    case handling f =>
      rw [hlog.1]
      exact ⟨[], by rw [hlog.2]; rfl⟩
    case returned => exact ⟨[], by rw [hlog, List.append_nil]⟩
    all_goals
      rw [show s.exits = [] from hlog]
      exact List.nil_prefix
  · obtain ⟨hexit, hl⟩ := hinv.exiting_of_exits he
    obtain ⟨hstopped, hsilent⟩ := hinv.exiting hexit
    exact ⟨hinv.finished_of_stopped hstopped, hinv.unlocked hsilent hl⟩
  · rw [hr] at hlog
    exact hlog

theorem teardown_in_order_lastReleaseInJob : ∃ s, (executor Nat).run (State.initial 0) lastReleaseInJob = some s ∧
    s.run = .returned ∧ s.stopped = true ∧ s.exits = [(7, .worker)] :=
  have h := teardown_in_order (reachable_actions lastReleaseInJob rfl)
  ⟨_, rfl, rfl, (h.2.2.1 rfl).1, h.2.2.2.2.2 rfl⟩

end SwiftJanet.Executor
