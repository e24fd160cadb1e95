import SwiftJanet.Executor.Invariant
import SwiftJanet.Executor.ThreadExecutor

/-!
# An executor knows its thread

`ProcessInv` says what holds of a process in every reachable state: living threads are called differently, each
executor is a reachable state of the machine of `SwiftJanet.Executor`, its worker lives until `run` has returned, and
`SharedState.thread` is what the worker is called once it has registered.

- `ThreadExecutor.Known.advance`: a statement that compares values does what the machine does, which compares threads;
- `thread_identification`: an executor that somebody can ask tells its own worker from all other threads.
-/

namespace SwiftJanet.Executor

/-! ## Calls in progress -/

section Calls

variable {C : Type} [DecidableEq C] {s s' : State C} {t : Thread C}

/-- A call of `isCurrentThread` that has done its test has an answer, and on the worker only `stop` runs outside of jobs
and the handler. -/
structure State.Calling (s : State C) : Prop where
  told : ∀ t p, s.call t = some (.isCurrentThread, p) → p = .signal ∨ p = .unlock → s.answer t ≠ none
  body : ∀ c p, s.call .worker = some (c, p) → c ≠ .stop → s.run.inBody = true

/-- The worker says nothing about itself, and calls go on as they should. -/
structure Proceeds (s s' : State C) : Prop where
  thread : s'.thread = s.thread
  calling : s.Calling → s'.Calling

omit [DecidableEq C] in
theorem Proceeds.trans {s'' : State C} (h : Proceeds s s') (h' : Proceeds s' s'') : Proceeds s s'' :=
  ⟨h'.thread.trans h.thread, h'.calling ∘ h.calling⟩

/-- A thread begins a call, or ends one. -/
theorem calling_setCall {c : Option (Call × Phase)} (h : s.Calling) (hc : ∀ c' p, c = some (c', p) → p = .lock)
    (hbody : t = .worker → ∀ c' p, c = some (c', p) → c' ≠ .stop → s.run.inBody = true) :
    (s.setCall t c).Calling := by
  constructor
  · intro u p hu hp
    rw [call_setCall] at hu
    split at hu
    · obtain rfl := hc _ p hu
      rcases hp with hp | hp <;> cases hp
    · exact h.told u p hu hp
  · intro c' p hu hne
    rw [call_setCall] at hu
    split at hu
    · next ht => exact hbody ht.symm c' p hu hne
    · exact h.body c' p hu hne

/-- A call moves on, once its test has an answer. -/
theorem calling_move {c : Call} {p p' : Phase} (h : s.Calling) (hc : s.call t = some (c, p))
    (htold : c = .isCurrentThread → p' = .signal ∨ p' = .unlock → s.answer t ≠ none) :
    (s.setCall t (some (c, p'))).Calling := by
  constructor
  · intro u q hu hq
    rcases call_move hu with ⟨rfl, hcall, rfl⟩ | ⟨_, hu⟩
    · exact htold hcall.symm hq
    · exact h.told u q hu hq
  · intro c' q hu hne
    rcases call_move hu with ⟨rfl, rfl, _⟩ | ⟨_, hu⟩
    · exact h.body _ p hc hne
    · exact h.body c' q hu hne

theorem proceeds_drop (n : Nat) : Proceeds s (s.drop t n) := by
  unfold State.drop
  split
  · refine ⟨rfl, fun h => ?_⟩
    refine calling_setCall (s := { s with refs := s.refs - n }) ⟨h.told, h.body⟩ (fun c p hc => ?_) ?_
    · cases hc
      rfl
    · rintro - c p hc hne
      cases hc
      exact absurd rfl hne
  · exact ⟨rfl, fun h => ⟨h.told, h.body⟩⟩

theorem Run.inBody_signalled (r : Run) : r.signalled.inBody = r.inBody := by cases r <;> rfl

/-- A call does its next statement. -/
theorem proceeds_callStep {c : Call} {p : Phase} (hc : s.call t = some (c, p)) (hs : s.callStep t c p = some s') :
    Proceeds s s' := by
  cases p with
  | lock =>
    simp only [State.callStep, Option.ite_none_right_eq_some, Option.some.injEq] at hs
    obtain ⟨_, rfl⟩ := hs
    refine ⟨rfl, fun h => ?_⟩
    have hmove : (s.setCall t (some (c, .write))).Calling := calling_move h hc (by simp)
    exact ⟨hmove.told, hmove.body⟩
  | write =>
    cases c with
    | enqueue job =>
      obtain rfl := Option.some.inj hs
      refine ⟨rfl, fun h => ?_⟩
      have hmove : (s.setCall t (some (.enqueue job, .signal))).Calling := calling_move h hc (by simp)
      exact ⟨hmove.told, hmove.body⟩
    | stop =>
      obtain rfl := Option.some.inj hs
      refine ⟨rfl, fun h => ?_⟩
      have hmove : (s.setCall t (some (.stop, .signal))).Calling := calling_move h hc (by simp)
      exact ⟨hmove.told, hmove.body⟩
    | isCurrentThread =>
      obtain rfl := Option.some.inj hs
      refine ⟨rfl, fun h => ?_⟩
      let answer := Function.update s.answer t (some (s.thread == some t))
      have hanswer : State.Calling { s with answer } := by
        refine ⟨fun u p hu hp => ?_, h.body⟩
        show Function.update s.answer t _ u ≠ none
        rw [Function.update_apply]
        split
        · simp
        · exact h.told u p hu hp
      refine calling_move (s := { s with answer }) hanswer hc fun _ _ => ?_
      show Function.update s.answer t _ t ≠ none
      rw [Function.update_self]
      simp
  | signal =>
    obtain rfl := Option.some.inj hs
    refine ⟨rfl, fun h => ?_⟩
    have hmove : (s.setCall t (some (c, .unlock))).Calling := by
      refine calling_move h hc fun hask _ => h.told t .signal ?_ (Or.inl rfl)
      rw [hc, hask]
    exact ⟨hmove.told, fun c' q hu hne => (Run.inBody_signalled s.run).trans (hmove.body c' q hu hne)⟩
  | unlock =>
    obtain rfl := Option.some.inj hs
    refine ⟨rfl, fun h => ?_⟩
    have hend := calling_setCall (t := t) (c := none) h (by simp) (by simp)
    exact ⟨hend.told, hend.body⟩

omit [DecidableEq C] in
/-- Between its calls the worker may change all but what it has said about itself. -/
theorem proceeds_goto {l : Option (Thread C)} {k : Nat} {js : List Job} {st : List (Job × Thread C)}
    {f : List Job} {e : List (Handler × Thread C)} {r : Run} (hidle : s.call .worker = none) :
    Proceeds s { s with lock := l, refs := k, jobs := js, started := st, finished := f, exits := e, run := r } :=
  ⟨rfl, fun h => ⟨h.told, fun _ _ hc => (nomatch hidle.symm.trans hc)⟩⟩

/-- The worker does its next statement, which does not register it. -/
theorem proceeds_runStep (hc : s.call .worker = none) (hrun : s.run ≠ .registering) (hs : s.runStep = some s') :
    Proceeds s s' := by
  rw [State.runStep] at hs
  cases hr : s.run <;> rw [hr] at hs
  case entering | locking | woken =>
    simp only [Option.ite_none_right_eq_some, Option.some.injEq] at hs
    obtain ⟨_, rfl⟩ := hs
    exact proceeds_goto hc
  case registering => exact absurd hr hrun
  case checking =>
    dsimp only at hs
    split at hs <;> (cases hs; exact proceeds_goto hc)
  case registered | copying | deciding | unlocking | handling => cases hs; exact proceeds_goto hc
  case emptying b =>
    cases hs
    exact (proceeds_goto hc).trans (proceeds_drop _)
  case branching b e o =>
    cases e with
    | false => cases hs; exact proceeds_goto hc
    | true => cases o <;> (cases hs; exact proceeds_goto hc)
  case next b rest => cases rest <;> (cases hs; exact proceeds_goto hc)
  case dropping b =>
    cases b with
    | nil => cases hs; exact proceeds_goto hc
    | cons job b =>
      cases hs
      exact (proceeds_goto hc).trans (proceeds_drop _)
  case waiting | running | returned | trapped => cases hs

/-- The worker is about to register. -/
def State.Registers (s : State C) (a : Action C) : Prop :=
  a = .advance .worker ∧ s.call .worker = none ∧ s.run = .registering

/-- **An action that does not register the worker lets calls proceed.** -/
theorem proceeds_step {a : Action C} (ha : ¬s.Registers a) (hs : s.step a = some s') : Proceeds s s' := by
  cases a with
  | retain | take | onThreadExit =>
    simp only [State.step, Option.ite_none_right_eq_some, Option.some.injEq] at hs
    obtain ⟨_, rfl⟩ := hs
    exact ⟨rfl, fun h => ⟨h.told, h.body⟩⟩
  | release t =>
    simp only [State.step, Option.ite_none_right_eq_some, Option.some.injEq] at hs
    obtain ⟨_, rfl⟩ := hs
    have herase : Proceeds s { s with handles := s.handles.erase (.thread t) } := ⟨rfl, fun h => ⟨h.told, h.body⟩⟩
    exact herase.trans (proceeds_drop _)
  | enqueue t =>
    simp only [State.step, Option.ite_none_right_eq_some, Option.some.injEq] at hs
    obtain ⟨⟨hfree, _⟩, rfl⟩ := hs
    refine ⟨rfl, fun h => ?_⟩
    have hbegin := calling_setCall (t := t) (c := some (.enqueue s.nextJob, .lock)) h (by simp)
      fun ht _ _ _ _ => hfree.2 ht
    exact ⟨hbegin.told, hbegin.body⟩
  | isCurrentThread t =>
    simp only [State.step, Option.ite_none_right_eq_some, Option.some.injEq] at hs
    obtain ⟨⟨hfree, _⟩, rfl⟩ := hs
    refine ⟨rfl, fun h => ?_⟩
    have hbegin := calling_setCall (t := t) (c := some (.isCurrentThread, .lock)) h (by simp)
      fun ht _ _ _ _ => hfree.2 ht
    refine ⟨fun u p hu hp => ?_, hbegin.body⟩
    by_cases hut : u = t
    · subst hut
      rw [show State.call _ u = _ from call_setCall s u u _, if_pos rfl] at hu
      cases hu
      rcases hp with hp | hp <;> cases hp
    · show Function.update s.answer t none u ≠ none
      rw [Function.update_of_ne hut]
      exact hbegin.told u p hu hp
  | endJob =>
    rw [State.step] at hs
    split at hs
    · simp only [Option.ite_none_right_eq_some, Option.some.injEq] at hs
      obtain ⟨hc, rfl⟩ := hs
      exact proceeds_goto hc
    · cases hs
  | wake =>
    rw [State.step] at hs
    split at hs
    · next hrun =>
      obtain rfl := Option.some.inj hs
      refine ⟨rfl, fun h => ⟨h.told, fun c p hc hne => ?_⟩⟩
      have hbody := h.body c p hc hne
      rw [hrun] at hbody
      cases hbody
    · cases hs
  | advance t =>
    rw [State.step] at hs
    split at hs
    · next c p hc => exact proceeds_callStep hc hs
    · next hc =>
      simp only [Option.ite_none_right_eq_some] at hs
      obtain ⟨rfl, hs⟩ := hs
      exact proceeds_runStep hc (fun hrun => ha ⟨rfl, hc, hrun⟩) hs

omit [DecidableEq C] in
theorem not_registers_of_call {cp : Call × Phase} (hc : s.call t = some cp) : ¬s.Registers (.advance t) := by
  rintro ⟨ha, hnone, -⟩
  rw [← Action.advance.inj ha, hc] at hnone
  cases hnone

/-- When the worker is about to register, it does. -/
theorem step_registers {a : Action C} (hthread : s.thread = none) (ha : s.Registers a) :
    s.step a = some { s with thread := some .worker, run := .registered } := by
  obtain ⟨rfl, hc, hrun⟩ := ha
  simp only [State.step, hc, if_pos, State.runStep, hrun, hthread]

theorem reachable_calling (h : (executor C).Reachable s) : s.Calling := by
  have hboth : Inv 0 s ∧ s.Calling := by
    refine Lib.Machine.invariant (I := fun s => Inv 0 s ∧ s.Calling) ?_ ?_ h
    · rintro _ ⟨creator, rfl⟩
      exact ⟨inv_initial creator, ⟨fun _ _ hc => (nomatch hc), fun _ _ hc => (nomatch hc)⟩⟩
    · rintro s a s' ⟨hinv, hcalling⟩ (hs : s.step a = some s')
      refine ⟨inv_step hinv hs, ?_⟩
      by_cases ha : s.Registers a
      · have hthread : s.thread = none := by rw [hinv.thread, ha.2.2]; rfl
        rw [step_registers hthread ha] at hs
        cases hs
        exact ⟨hcalling.told, fun _ _ hc => (nomatch ha.2.1.symm.trans hc)⟩
      · exact (proceeds_step ha hs).calling hcalling
  exact hboth.2

/-- When `run` has returned nothing happens to the executor any more. -/
theorem Inv.not_returned {a : Action C} (h : Inv 0 s) (hs : s.step a = some s') : s.run ≠ .returned := by
  intro hrun
  obtain ⟨hstopped, hcall⟩ := h.exiting (by rw [hrun]; rfl)
  have hrefs := h.dead hstopped
  have unused : ∀ t, ¬s.Referenced t := fun t ht => by
    have := h.refs_pos ht
    omega
  have unheld : ∀ holder, holder ∉ s.handles := fun holder hm => by
    have := h.refs
    have := List.length_pos_of_mem hm
    omega
  cases a with
  | retain src dst =>
    simp only [State.step, Option.ite_none_right_eq_some] at hs
    have := h.refs_pos_of_shares hs.1
    omega
  | take t =>
    simp only [State.step, Option.ite_none_right_eq_some] at hs
    exact unheld _ hs.1.2
  | release t =>
    simp only [State.step, Option.ite_none_right_eq_some] at hs
    exact unheld _ hs.1.2
  | onThreadExit | enqueue | isCurrentThread =>
    simp only [State.step, Option.ite_none_right_eq_some] at hs
    exact unused _ hs.1.2
  | endJob | wake =>
    simp only [State.step, hrun] at hs
    cases hs
  | advance t =>
    simp only [State.step, hcall t, State.runStep, hrun] at hs
    split at hs <;> cases hs

end Calls

/-! ## What the threads are called -/

section Process

variable {T P : Type} [DecidableEq T] {name : T → Option P} {living : List T}
  {o o' : ThreadExecutor T P} {t : T} {p : P}

/-- Living threads are called differently. -/
structure Names (name : T → Option P) (living : List T) : Prop where
  called : ∀ t ∈ living, name t ≠ none
  apart : ∀ t ∈ living, ∀ u ∈ living, name t = name u → t = u

/-- What holds of an executor among the threads. -/
structure ThreadExecutor.Known (name : T → Option P) (living : List T) (o : ThreadExecutor T P) : Prop where
  reachable : (executor T).Reachable o.shared
  called : name o.worker ≠ none
  thread : o.thread = if o.shared.thread = none then none else name o.worker
  living : o.worker ∈ living ∨ o.shared.run = .returned

theorem ThreadExecutor.view_eq_worker : o.view t = .worker ↔ t = o.worker := by
  unfold view
  split <;> simp_all

/-- The values agree exactly when the threads do. -/
theorem ThreadExecutor.Known.isCurrentThread_iff [DecidableEq P] (h : o.Known name living) (hnames : Names name living)
    (hrun : o.shared.run ≠ .returned) (ht : t ∈ living) (hself : name t = some p) :
    o.isCurrentThread p = true ↔ o.shared.thread = some (o.view t) := by
  have hworker := h.living.resolve_right hrun
  have hthread := h.thread
  unfold isCurrentThread
  rcases ho : o.shared.thread with _ | thread
  · rw [hthread, if_pos ho]
    simp
  · obtain ⟨q, hq⟩ := Option.ne_none_iff_exists'.mp h.called
    have hinv := (reachable_inv h.reachable).thread
    obtain rfl : thread = .worker := by
      rw [ho] at hinv
      split at hinv
      · cases hinv
      · exact Option.some.inj hinv
    rw [hthread, if_neg (by simp [ho]), hq]
    simp only [beq_iff_eq, Option.some.injEq]
    rw [eq_comm (a := Thread.worker), view_eq_worker]
    constructor
    · rintro rfl
      exact hnames.apart t ht o.worker hworker (hself.trans hq.symm)
    · rintro rfl
      exact Option.some.inj (hq.symm.trans hself)

/-! ## One executor -/

/-- The executor is the same one. -/
structure ThreadExecutor.Is (o o' : ThreadExecutor T P) : Prop where
  worker : o'.worker = o.worker
  threadName : o'.threadName = o.threadName

namespace ThreadExecutor.Known

/-- **An action that compares no values.** -/
theorem act {a : Action T} (h : o.Known name living) (ha : ¬o.shared.Registers a) (hs : o.act a = some o') :
    o'.Known name living ∧ o.Is o' := by
  obtain ⟨s, hstep, rfl⟩ := Option.map_eq_some_iff.mp hs
  have hthread := (proceeds_step ha hstep).thread
  have hliving := h.living.resolve_right ((reachable_inv h.reachable).not_returned hstep)
  refine ⟨⟨h.reachable.step (a := a) hstep, h.called, ?_, Or.inl hliving⟩, rfl, rfl⟩
  show o.thread = if s.thread = none then none else name o.worker
  rw [hthread]
  exact h.thread

/-- **The test finds what the machine finds.** -/
theorem compare [DecidableEq P] (h : o.Known name living) (hnames : Names name living) (ht : t ∈ living) (hself : name t = some p)
    (hc : o.shared.call (o.view t) = some (.isCurrentThread, .write)) :
    o.shared.step (.advance (o.view t)) = some (o.compare (o.view t) p).shared := by
  have hrun : o.shared.run ≠ .returned := fun hr => by
    have := (reachable_inv h.reachable).not_exiting_of_call hc
    rw [hr] at this
    cases this
  have hsame : o.isCurrentThread p = (o.shared.thread == some (o.view t)) := by
    rw [Bool.eq_iff_iff, h.isCurrentThread_iff hnames hrun ht hself, beq_iff_eq]
  simp only [State.step, hc, State.callStep, ThreadExecutor.compare, hsame]

/-- **The precondition holds, and the worker registers.** -/
theorem register (h : o.Known name living) (hself : name o.worker = some p)
    (ha : o.shared.Registers (.advance .worker)) : (o.register p).Known name living ∧ o.Is (o.register p) := by
  have hinv := reachable_inv h.reachable
  have hthread : o.shared.thread = none := by rw [hinv.thread, ha.2.2]; rfl
  have hnone : o.thread = none := by rw [h.thread, if_pos hthread]
  have hstep := step_registers hthread ha
  have hliving := h.living.resolve_right (hinv.not_returned hstep)
  rw [ThreadExecutor.register, hnone]
  exact ⟨⟨h.reachable.step (a := .advance .worker) hstep, h.called, hself.symm, Or.inl hliving⟩, rfl, rfl⟩

/-- **A statement of a living thread does what the machine does.** -/
theorem advance [DecidableEq P] (h : o.Known name living) (hnames : Names name living) (ht : t ∈ living) (hself : name t = some p)
    (hs : o.advance (o.view t) p = some o') : o'.Known name living ∧ o.Is o' := by
  unfold ThreadExecutor.advance at hs
  split at hs
  · next hc =>
    obtain rfl := Option.some.inj hs
    have hstep := h.compare hnames ht hself hc
    exact h.act (not_registers_of_call hc) (by rw [ThreadExecutor.act, hstep]; rfl)
  · split at hs
    · next ha =>
      obtain rfl := Option.some.inj hs
      obtain rfl := view_eq_worker.mp ha.1
      exact h.register hself ⟨rfl, ha.1 ▸ ha.2⟩
    · next ha => exact h.act (fun hr => ha ⟨Action.advance.inj hr.1, Action.advance.inj hr.1 ▸ hr.2⟩) hs

end ThreadExecutor.Known

/-! ## Threads come and go -/

theorem Names.start (h : Names name living) (ht : name t = none) (hp : ∀ u ∈ living, name u ≠ some p) :
    Names (Function.update name t (some p)) (t :: living) := by
  have other : ∀ u ∈ living, u ≠ t := by
    rintro u hu rfl
    exact h.called u hu ht
  have called : ∀ u ∈ living, Function.update name t (some p) u = name u := fun u hu =>
    Function.update_of_ne (other u hu) ..
  constructor
  · intro u hu
    rcases List.mem_cons.mp hu with rfl | hu
    · rw [Function.update_self]
      simp
    · rw [called u hu]
      exact h.called u hu
  · intro u hu v hv heq
    rcases List.mem_cons.mp hu with rfl | hu' <;> rcases List.mem_cons.mp hv with rfl | hv'
    · rfl
    · rw [Function.update_self, called v hv'] at heq
      exact absurd heq.symm (hp v hv')
    · rw [Function.update_self, called u hu'] at heq
      exact absurd heq (hp u hu')
    · rw [called u hu', called v hv'] at heq
      exact h.apart u hu' v hv' heq

theorem Names.finish (h : Names name living) (t : T) : Names name (living.erase t) :=
  ⟨fun u hu => h.called u (List.mem_of_mem_erase hu), fun u hu v hv =>
    h.apart u (List.mem_of_mem_erase hu) v (List.mem_of_mem_erase hv)⟩

namespace ThreadExecutor.Known

theorem start (h : o.Known name living) (ht : name t = none) :
    o.Known (Function.update name t (some p)) (t :: living) := by
  have hworker : Function.update name t (some p) o.worker = name o.worker := by
    refine Function.update_of_ne ?_ ..
    rintro rfl
    exact h.called ht
  refine ⟨h.reachable, ?_, ?_, h.living.imp (List.mem_cons_of_mem t) id⟩
  · rw [hworker]
    exact h.called
  · rw [hworker]
    exact h.thread

/-- A worker ends only when `run` has returned. -/
theorem finish (h : o.Known name living) (ht : o.worker = t → o.shared.run = .returned) :
    o.Known name (living.erase t) := by
  refine ⟨h.reachable, h.called, h.thread, ?_⟩
  by_cases hworker : o.worker = t
  · exact Or.inr (ht hworker)
  · exact h.living.imp (List.mem_erase_of_ne hworker).mpr id

theorem init {threadName : String} {creator worker : T} (hname : name worker ≠ none) (hliving : worker ∈ living) :
    (ThreadExecutor.init threadName creator worker).Known name living :=
  ⟨.start ⟨creator, rfl⟩, hname, rfl, Or.inl hliving⟩

end ThreadExecutor.Known

/-! ## Answers -/

/-- The answer is the one for the executor's own worker, which asks inside its jobs, or for any other thread. -/
structure Reply.Exact (r : Reply T) (o : ThreadExecutor T P) : Prop where
  answer : r.answer = r.query.answer o.threadName (decide (r.caller = o.worker))
  inJob : r.caller = o.worker → r.run.inJob = true

theorem Reply.Exact.is {r : Reply T} (h : r.Exact o) (his : o.Is o') : r.Exact o' := by
  constructor
  · rw [his.worker, his.threadName]
    exact h.answer
  · rw [his.worker]
    exact h.inJob

theorem Run.inJob_of_inBody {r : Run} (h : r.inBody = true) (he : r.exiting = false) : r.inJob = true := by
  cases r with
  | running => rfl
  | handling => cases he
  | _ => cases h

theorem Run.registered_of_inJob {r : Run} (h : r.inJob = true) : r.unregistered = false := by
  cases r with
  | running => rfl
  | _ => cases h

/-- **A call of `isCurrentThread` returns the right answer.** -/
theorem reply_exact {w : Process T P} {e : Nat} (h : o.Known name living)
    (hc : o.shared.call (o.view t) = some (.isCurrentThread, .unlock)) : (w.reply e t o).Exact o := by
  have hinv := reachable_inv h.reachable
  have hcalling := reachable_calling h.reachable
  obtain ⟨b, hb⟩ := Option.ne_none_iff_exists'.mp (hcalling.told _ _ hc (Or.inr rfl))
  have hexact : (o.shared.answer (o.view t) == some true) = decide (t = o.worker) := by
    have hanswer := hinv.answered _ b hb
    rw [ThreadExecutor.view_eq_worker] at hanswer
    rw [hb, Bool.eq_iff_iff, beq_iff_eq, Option.some.injEq, decide_eq_true_iff]
    exact hanswer
  refine ⟨congrArg (Query.answer _ · _) hexact, fun hworker => ?_⟩
  rw [ThreadExecutor.view_eq_worker.mpr (show t = o.worker from hworker)] at hc
  exact Run.inJob_of_inBody (hcalling.body _ _ hc (by simp)) (hinv.not_exiting_of_call hc)

/-! ## The process -/

structure ProcessInv (w : Process T P) : Prop where
  names : Names w.self w.living
  known : ∀ o ∈ w.executors, o.Known w.self w.living
  replies : ∀ r ∈ w.replies, ∃ o, w.executors[r.executor]? = some o ∧ r.Exact o
  fatal : ∀ m, w.fatal = some m → ∃ r ∈ w.replies, r.answer = .trapped m

section Steps

variable {w w' : Process T P} {e : Nat}

/-- One executor changes. -/
theorem inv_setExecutor (h : ProcessInv w) (he : w.executors[e]? = some o)
    (ho : o'.Known w.self w.living ∧ o.Is o') : ProcessInv (w.setExecutor e o') := by
  obtain ⟨hknown, his⟩ := ho
  refine ⟨h.names, fun u hu => ?_, fun r hr => ?_, h.fatal⟩
  · rcases List.mem_or_eq_of_mem_set hu with hu | rfl
    · exact h.known u hu
    · exact hknown
  · obtain ⟨u, hu, hexact⟩ := h.replies r hr
    by_cases her : e = r.executor
    · subst her
      obtain rfl := Option.some.inj (he.symm.trans hu)
      exact ⟨o', by simp [Process.setExecutor, (List.getElem?_eq_some_iff.mp he).1],
        hexact.is his⟩
    · exact ⟨u, by simp [Process.setExecutor, her, hu], hexact⟩

/-- A thread gets the right answer. -/
theorem inv_answered {r : Reply T} (h : ProcessInv w) (he : w.executors[r.executor]? = some o) (hr : r.Exact o) :
    ProcessInv (w.answered r) := by
  refine ⟨h.names, h.known, fun u hu => ?_, fun m hm => ⟨r, List.mem_append_right _ (List.mem_singleton.mpr rfl), ?_⟩⟩
  · rcases List.mem_append.mp hu with hu | hu
    · exact h.replies u hu
    · obtain rfl := List.mem_singleton.mp hu
      exact ⟨o, he, hr⟩
  · have hmessage : r.answer.message = some m := hm
    cases ha : r.answer <;> rw [ha] at hmessage
    case trapped m' => rw [Option.some.inj hmessage]
    all_goals cases hmessage

theorem inv_started {u : T} (h : ProcessInv w) (hfresh : w.Fresh u p) : ProcessInv (w.started u p) :=
  ⟨h.names.start hfresh.1 hfresh.2, fun o ho => (h.known o ho).start hfresh.1, h.replies, h.fatal⟩

/-- A statement of a thread. -/
theorem inv_advance [DecidableEq P] (h : ProcessInv w) (hs : w.advance e t = some w') : ProcessInv w' := by
  unfold Process.advance at hs
  split at hs
  · next o p he hself =>
    simp only [Option.ite_none_right_eq_some, Option.map_eq_some_iff] at hs
    obtain ⟨⟨ht, _⟩, o', ho', rfl⟩ := hs
    have hknown := h.known o (List.mem_of_getElem? he)
    have hset := inv_setExecutor h he (hknown.advance h.names ht hself ho')
    have hnew : (w.setExecutor e o').executors[e]? = some o' := by
      simp [Process.setExecutor, (List.getElem?_eq_some_iff.mp he).1]
    obtain ⟨hknown', his⟩ := hknown.advance h.names ht hself ho'
    split
    · next hc => exact inv_answered hset hnew ((reply_exact hknown hc).is his)
    · rw [Process.checked, if_neg (reachable_inv hknown'.reachable).alive]
      exact hset
  · cases hs

/-- **Every action keeps the invariant.** -/
theorem process_step [DecidableEq P] {a : ProcessAction T P} (h : ProcessInv w) (hs : w.step a = some w') : ProcessInv w' := by
  simp only [Process.step, Option.ite_none_right_eq_some] at hs
  obtain ⟨_, hs⟩ := hs
  cases a with
  | start t self =>
    simp only [Process.act, Option.ite_none_right_eq_some, Option.some.injEq] at hs
    obtain ⟨hfresh, rfl⟩ := hs
    exact inv_started h hfresh
  | finish t =>
    simp only [Process.act, Option.ite_none_right_eq_some, Option.some.injEq] at hs
    obtain ⟨⟨_, _, hdone⟩, rfl⟩ := hs
    exact ⟨h.names.finish t, fun o ho => (h.known o ho).finish (hdone o ho), h.replies, h.fatal⟩
  | create t threadName worker self =>
    simp only [Process.act, Option.ite_none_right_eq_some, Option.some.injEq] at hs
    obtain ⟨⟨_, hfresh⟩, rfl⟩ := hs
    have hstart := inv_started h hfresh
    refine ⟨hstart.names, fun o ho => ?_, fun r hr => ?_, h.fatal⟩
    · rcases List.mem_append.mp ho with ho | ho
      · exact hstart.known o ho
      · obtain rfl := List.mem_singleton.mp ho
        refine .init ?_ List.mem_cons_self
        show Function.update w.self worker (some self) worker ≠ none
        rw [Function.update_self]
        simp
    · obtain ⟨o, ho, hexact⟩ := h.replies r hr
      exact ⟨o, List.getElem?_append_left (List.getElem?_eq_some_iff.mp ho).1 ▸ ho, hexact⟩
  | use e u =>
    simp only [Process.act] at hs
    split at hs
    · next o he =>
      simp only [Option.ite_none_right_eq_some, Option.map_eq_some_iff] at hs
      obtain ⟨_, o', ho', rfl⟩ := hs
      refine inv_setExecutor h he ((h.known o (List.mem_of_getElem? he)).act (fun ha => ?_) ho')
      cases u <;> cases ha.1
    · cases hs
  | ask e t query =>
    simp only [Process.act] at hs
    split at hs
    · next o he =>
      simp only [Option.ite_none_right_eq_some, Option.map_eq_some_iff] at hs
      obtain ⟨_, o', ho', rfl⟩ := hs
      have hset := inv_setExecutor h he ((h.known o (List.mem_of_getElem? he)).act (fun ha => by cases ha.1) ho')
      exact ⟨hset.names, hset.known, hset.replies, hset.fatal⟩
    · cases hs
  | wake e =>
    simp only [Process.act] at hs
    split at hs
    · next o he =>
      obtain ⟨o', ho', rfl⟩ := Option.map_eq_some_iff.mp hs
      exact inv_setExecutor h he ((h.known o (List.mem_of_getElem? he)).act (fun ha => by cases ha.1) ho')
    · cases hs
  | advance e t => exact inv_advance h hs

end Steps

/-- **The invariant holds in every reachable state of the process.** -/
theorem process_inv [DecidableEq P] {w : Process T P} (h : (process T P).Reachable w) : ProcessInv w := by
  refine Lib.Machine.invariant ?_ (fun w a w' h (hs : w.step a = some w') => process_step h hs) h
  rintro _ rfl
  exact ⟨⟨fun _ ht => (nomatch ht), fun _ ht => (nomatch ht)⟩, fun _ ho => (nomatch ho), fun _ hr => (nomatch hr),
    fun _ hm => (nomatch hm)⟩

/-- **An executor tells its own worker from all other threads.** While somebody has a reference, its worker lives, and
among the living threads, whatever ended ones were called, `isCurrentThread` is true of the worker alone, from when it
has registered. Each answer that a thread has got is the right one: `checkIsolated` returns inside the jobs of the
executor and traps everywhere else. No precondition of `run` fails, and nothing but such a trap ends the process. -/
theorem thread_identification [DecidableEq P] {w : Process T P} (h : (process T P).Reachable w) :
    (∀ o ∈ w.executors, 0 < o.shared.refs → o.worker ∈ w.living ∧ ∀ t ∈ w.living, ∀ self, w.self t = some self →
      (o.isCurrentThread self = true ↔ t = o.worker ∧ o.shared.run.unregistered = false)) ∧
    (∀ r ∈ w.replies, ∃ o, w.executors[r.executor]? = some o ∧
      r.answer = r.query.answer o.threadName (decide (r.caller = o.worker ∧ r.run.unregistered = false)) ∧
      (r.query = .checkIsolated → (r.answer = .returned ↔ r.caller = o.worker ∧ r.run.inJob = true))) ∧
    (∀ o ∈ w.executors, o.shared.run ≠ .trapped) ∧
    ∀ m, w.fatal = some m → ∃ r ∈ w.replies, r.answer = .trapped m := by
  have hinv := process_inv h
  refine ⟨fun o ho hrefs => ?_, fun r hr => ?_, fun o ho => (reachable_inv (hinv.known o ho).reachable).alive,
    hinv.fatal⟩
  · have hknown := hinv.known o ho
    have hexec := reachable_inv hknown.reachable
    have hrun : o.shared.run ≠ .returned := fun hr => by
      have := hexec.not_exiting hrefs
      rw [hr] at this
      cases this
    refine ⟨hknown.living.resolve_right hrun, fun t ht self hself => ?_⟩
    rw [hknown.isCurrentThread_iff hinv.names hrun ht hself, hexec.thread, ← ThreadExecutor.view_eq_worker (o := o)]
    cases o.shared.run.unregistered
    · simp [eq_comm]
    · simp
  · obtain ⟨o, ho, hexact⟩ := hinv.replies r hr
    have hregistered : r.caller = o.worker ∧ r.run.unregistered = false ↔ r.caller = o.worker :=
      and_iff_left_of_imp fun hc => Run.registered_of_inJob (hexact.inJob hc)
    have hinJob : r.caller = o.worker ∧ r.run.inJob = true ↔ r.caller = o.worker :=
      and_iff_left_of_imp hexact.inJob
    refine ⟨o, ho, ?_, fun hq => ?_⟩
    · rw [hexact.answer, decide_eq_decide.mpr hregistered]
    · rw [hexact.answer, hq, hinJob]
      by_cases hc : r.caller = o.worker <;> simp [Query.answer, hc]

private def statements (e : Nat) (t : Nat) (n : Nat) : List (ProcessAction Nat Nat) := List.replicate n (.advance e t)

/-- A thread asks, and gets its answer. -/
private def question (e : Nat) (t : Nat) (query : Query) : List (ProcessAction Nat Nat) :=
  .ask e t query :: statements e t 3

/-- The worker of the first executor is called like a thread that has ended. It is asked about before it runs; inside
a job it asks about itself and about the second executor; at last another thread claims to be the second worker. -/
def reusedName : List (ProcessAction Nat Nat) :=
  [.start 0 100, .start 1 200, .finish 1, .create 0 "first" 2 200, .create 0 "second" 3 300] ++
    question 0 0 .isCurrentThread ++ statements 0 2 5 ++ [.use 0 (.enqueue 0)] ++ statements 0 0 4 ++
    statements 0 2 8 ++ question 0 2 .checkIsolated ++ [.use 1 (.retain (some 0) (some 2))] ++
    question 1 2 .isIsolatingCurrentContext ++ question 1 0 .checkIsolated

theorem thread_identification_reusedName : ∃ w, (process Nat Nat).run .initial reusedName = some w ∧
    w.replies.map (fun r => (r.executor, r.caller, r.answer)) = [(0, 0, .bool false), (0, 2, .returned),
      (1, 2, .optional (some false)), (1, 0, .trapped "Expected to run on thread second")] ∧
    ∀ r ∈ w.replies, ∃ o, w.executors[r.executor]? = some o ∧
      (r.query = .checkIsolated → (r.answer = .returned ↔ r.caller = o.worker ∧ r.run.inJob = true)) := by
  have hrun : (((process Nat Nat).run .initial reusedName).map fun w =>
      w.replies.map fun r => (r.executor, r.caller, r.answer)) = some [(0, 0, .bool false), (0, 2, .returned),
        (1, 2, .optional (some false)), (1, 0, .trapped "Expected to run on thread second")] := by
    decide +kernel
  obtain ⟨w, hw, hreplies⟩ := Option.map_eq_some_iff.mp hrun
  refine ⟨w, hw, hreplies, fun r hr => ?_⟩
  obtain ⟨o, ho, -, hchecked⟩ := (thread_identification (Lib.Machine.reachable_run (.start rfl) hw)).2.1 r hr
  exact ⟨o, ho, hchecked⟩

end Process

end SwiftJanet.Executor
