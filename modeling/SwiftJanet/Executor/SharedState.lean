import Mathlib.Logic.Function.Basic
import SwiftJanet.Lib.Machine

/-!
# `ThreadExecutor`

One executor with its `SharedState`, its worker thread and any number of client threads, statement by statement. A
thread inside `enqueue`, `stop` or `isCurrentThread` is at one of four phases (`Phase`); the worker is at a point of
`run` (`Run`), and runs such calls from inside a job, from the exit handler, and while it drops a batch.

- `refs` counts the strong references to the executor: those held outside (`handles`, by a thread or by an object that
  threads share), one for each queued job, and one for each job of a batch until the batch is done. Whoever drops the
  last one runs `deinit`, and with it `stop`, on its own thread (`State.drop`);
- `enqueued`, `started`, `finished`, `passed` and `exits` record what has happened; no step reads them.
-/

namespace SwiftJanet.Executor

/-! ## Threads, calls and the run loop -/

/-- The executor's own thread, or one of the others, `C`. -/
inductive Thread (C : Type) where
  | worker
  | client (c : C)
deriving DecidableEq, Repr

/-- What holds a reference from outside: a thread, or an object such as an actor. -/
inductive Holder (C : Type) where
  | thread (t : Thread C)
  | object
deriving DecidableEq, Repr

abbrev Job := Nat
abbrev Handler := Nat

/-- The calls that take the lock. -/
inductive Call where
  | enqueue (job : Job)
  | stop
  | isCurrentThread
deriving DecidableEq, Repr

/-- The next statement of a call: `condition.lock()`, the change or the test, `condition.signal()`,
`condition.unlock()`. -/
inductive Phase where
  | lock | write | signal | unlock
deriving DecidableEq, Repr

/-- The next statement of `SharedState.run`. -/
inductive Run where
  /-- the first `condition.lock()` -/
  | entering
  /-- the precondition, and `thread = pthread_self()` -/
  | registering
  | registered
  /-- `condition.lock()` at the head of the loop -/
  | locking
  /-- `while jobs.isEmpty && !stopped` -/
  | checking
  /-- parked in `condition.wait()` -/
  | waiting
  /-- woken inside `condition.wait()`, without the lock -/
  | woken
  /-- `let batch = jobs` -/
  | copying
  /-- `jobs.removeAll()` -/
  | emptying (batch : List Job)
  /-- `let shouldExit = …`, `let onExit = …` -/
  | deciding (batch : List Job)
  /-- `condition.unlock()` -/
  | unlocking (batch : List Job) (shouldExit : Bool) (onExit : Option Handler)
  /-- `if shouldExit` -/
  | branching (batch : List Job) (shouldExit : Bool) (onExit : Option Handler)
  /-- inside the exit handler -/
  | handling (handler : Handler)
  /-- the head of the loop over the batch -/
  | next (batch rest : List Job)
  /-- inside a job -/
  | running (batch : List Job) (job : Job) (rest : List Job)
  /-- the batch is released, element by element -/
  | dropping (batch : List Job)
  | returned
  | trapped
deriving DecidableEq, Repr

namespace Run

/-- The worker is between `condition.lock()` and `condition.unlock()`. -/
def locked : Run → Bool
  | registering | registered | checking | copying | emptying _ | deciding _ | unlocking _ _ _ => true
  | _ => false

/-- The worker is in code that may call the executor. -/
def inBody : Run → Bool
  | running _ _ _ | handling _ => true
  | _ => false

/-- The worker is inside a job. -/
def inJob : Run → Bool
  | running _ _ _ => true
  | _ => false

/-- The worker is where a call may be in progress. -/
def inCode : Run → Bool
  | running _ _ _ | handling _ | dropping _ => true
  | _ => false

/-- The worker is about to take the lock. -/
def takesLock : Run → Bool
  | entering | locking | woken => true
  | _ => false

/-- The worker has not yet said which thread it is. -/
def unregistered : Run → Bool
  | entering | registering => true
  | _ => false

/-- How many references the batch holds. -/
def held : Run → Nat
  | emptying batch | deciding batch | unlocking batch _ _ | branching batch _ _ | next batch _ | running batch _ _
  | dropping batch => batch.length
  | _ => 0

/-- The jobs of the batch that have not started; until the queue is emptied they are still in it. -/
def toRun : Run → List Job
  | deciding batch | unlocking batch _ _ | branching batch _ _ => batch
  | next _ rest | running _ _ rest => rest
  | _ => []

/-- The job that is running. -/
def current : Run → Option Job
  | running _ job _ => some job
  | _ => none

/-- The worker has decided to exit. -/
def exiting : Run → Bool
  | unlocking _ shouldExit _ | branching _ shouldExit _ => shouldExit
  | handling _ | returned => true
  | _ => false

/-- A signal wakes the worker if it waits. -/
def signalled : Run → Run
  | waiting => woken
  | run => run

end Run

/-! ## States -/

structure State (C : Type) where
  lock : Option (Thread C)
  jobs : List Job
  stopped : Bool
  thread : Option (Thread C)
  onExit : Option Handler
  refs : Nat
  handles : List (Holder C)
  call : Thread C → Option (Call × Phase)
  run : Run
  nextJob : Job
  enqueued : List Job
  started : List (Job × Thread C)
  finished : List Job
  passed : List Handler
  exits : List (Handler × Thread C)
  /-- what each thread was told last by `isCurrentThread` -/
  answer : Thread C → Option Bool

namespace State

variable {C : Type}

/-- `ThreadExecutor.init` on the thread `creator`, which holds the first reference. -/
def initial (creator : C) : State C where
  lock := none
  jobs := []
  stopped := false
  thread := none
  onExit := none
  refs := 1
  handles := [.thread (.client creator)]
  call := fun _ => none
  run := .entering
  nextJob := 0
  enqueued := []
  started := []
  finished := []
  passed := []
  exits := []
  answer := fun _ => none

variable [DecidableEq C] (s : State C)

/-- The thread can begin a call. -/
def Free (t : Thread C) : Prop := s.call t = none ∧ (t = .worker → s.run.inBody = true)

/-- The thread can use the executor: it holds a reference, or runs a job, whose batch holds one. -/
def Referenced (t : Thread C) : Prop := .thread t ∈ s.handles ∨ (t = .worker ∧ s.run.inJob = true)

/-- The holder can hand on what it holds. -/
def Shares : Holder C → Prop
  | .thread t => s.Free t ∧ s.Referenced t
  | .object => .object ∈ s.handles

instance (t : Thread C) : Decidable (s.Free t) := inferInstanceAs (Decidable (_ ∧ _))
instance (t : Thread C) : Decidable (s.Referenced t) := inferInstanceAs (Decidable (_ ∨ _))

instance : (h : Holder C) → Decidable (s.Shares h)
  | .thread _ => inferInstanceAs (Decidable (_ ∧ _))
  | .object => inferInstanceAs (Decidable (_ ∈ _))

/-- Move the call of a thread on. -/
def setCall (t : Thread C) (c : Option (Call × Phase)) : State C := { s with call := Function.update s.call t c }

/-- Drop `n` references on the thread `t`; the last one runs `deinit`, which calls `stop`. -/
def drop (t : Thread C) (n : Nat) : State C :=
  if 0 < n ∧ s.refs - n = 0 then setCall { s with refs := s.refs - n } t (some (.stop, .lock))
  else { s with refs := s.refs - n }

/-! ## Statements -/

/-- The next statement of a call on the thread `t`. -/
def callStep (t : Thread C) (c : Call) : Phase → Option (State C)
  | .lock => if s.lock = none then some { s.setCall t (some (c, .write)) with lock := some t } else none
  | .write =>
    match c with
    | .enqueue job =>
      some { s.setCall t (some (c, .signal)) with
        jobs := s.jobs ++ [job], refs := s.refs + 1, enqueued := s.enqueued ++ [job] }
    | .stop => some { s.setCall t (some (c, .signal)) with stopped := true }
    | .isCurrentThread =>
      some { s.setCall t (some (c, .unlock)) with answer := Function.update s.answer t (some (s.thread == some t)) }
  | .signal => some { s.setCall t (some (c, .unlock)) with run := s.run.signalled }
  | .unlock => some { s.setCall t none with lock := none }

/-- The next statement of `run`, on the worker; inside a job or the handler the code there goes on. -/
def runStep : Option (State C) :=
  match s.run with
  | .entering => if s.lock = none then some { s with lock := some .worker, run := .registering } else none
  | .registering =>
    if s.thread = none then some { s with thread := some .worker, run := .registered } else some { s with run := .trapped }
  | .registered => some { s with lock := none, run := .locking }
  | .locking => if s.lock = none then some { s with lock := some .worker, run := .checking } else none
  | .checking =>
    if s.jobs = [] ∧ s.stopped = false then some { s with lock := none, run := .waiting }
    else some { s with run := .copying }
  | .waiting => none
  | .woken => if s.lock = none then some { s with lock := some .worker, run := .checking } else none
  | .copying => some { s with refs := s.refs + s.jobs.length, run := .emptying s.jobs }
  | .emptying batch => some ({ s with jobs := [], run := .deciding batch }.drop .worker s.jobs.length)
  | .deciding batch =>
    let shouldExit := batch.isEmpty && s.stopped
    some { s with run := .unlocking batch shouldExit (if shouldExit then s.onExit else none) }
  | .unlocking batch shouldExit onExit => some { s with lock := none, run := .branching batch shouldExit onExit }
  | .branching batch shouldExit onExit =>
    if shouldExit then
      match onExit with
      | some h => some { s with exits := s.exits ++ [(h, .worker)], run := .handling h }
      | none => some { s with run := .returned }
    else some { s with run := .next batch batch }
  | .handling _ => some { s with run := .returned }
  | .next batch (job :: rest) => some { s with started := s.started ++ [(job, .worker)], run := .running batch job rest }
  | .next batch [] => some { s with run := .dropping batch }
  | .running _ _ _ => none
  | .dropping (_ :: batch) => some ({ s with run := .dropping batch }.drop .worker 1)
  | .dropping [] => some { s with run := .locking }
  | .returned => none
  | .trapped => none

end State

/-! ## Actions -/

/-- What can happen next. -/
inductive Action (C : Type) where
  /-- `src` hands a reference to `dst` -/
  | retain (src dst : Holder C)
  /-- the object goes away on the thread, which is left with its reference -/
  | take (t : Thread C)
  | release (t : Thread C)
  | onThreadExit (t : Thread C) (handler : Handler)
  /-- a call of `enqueue` with a new job begins -/
  | enqueue (t : Thread C)
  | isCurrentThread (t : Thread C)
  /-- the running job ends -/
  | endJob
  /-- a spurious wake-up -/
  | wake
  /-- a thread does its next statement -/
  | advance (t : Thread C)
deriving DecidableEq, Repr

variable {C : Type} [DecidableEq C]

/-- One action. -/
def State.step (s : State C) : Action C → Option (State C)
  | .retain src dst =>
    if s.Shares src then some { s with handles := dst :: s.handles, refs := s.refs + 1 } else none
  | .take t =>
    if s.Free t ∧ .object ∈ s.handles then some { s with handles := .thread t :: s.handles.erase .object } else none
  | .release t =>
    if s.Free t ∧ .thread t ∈ s.handles then some ({ s with handles := s.handles.erase (.thread t) }.drop t 1)
    else none
  | .onThreadExit t h =>
    if s.Free t ∧ s.Referenced t then some { s with onExit := some h, passed := s.passed ++ [h] } else none
  | .enqueue t =>
    if s.Free t ∧ s.Referenced t then
      some { s.setCall t (some (.enqueue s.nextJob, .lock)) with nextJob := s.nextJob + 1 }
    else none
  | .isCurrentThread t =>
    if s.Free t ∧ s.Referenced t then
      some { s.setCall t (some (.isCurrentThread, .lock)) with answer := Function.update s.answer t none }
    else none
  | .endJob =>
    match s.run with
    | .running batch job rest =>
      if s.call .worker = none then some { s with finished := s.finished ++ [job], run := .next batch rest } else none
    | _ => none
  | .wake => match s.run with
    | .waiting => some { s with run := .woken }
    | _ => none
  | .advance t =>
    match s.call t with
    | some (c, phase) => s.callStep t c phase
    | none => if t = .worker then s.runStep else none

/-- The executor as a machine: it starts when a client creates it. -/
def executor (C : Type) [DecidableEq C] : Lib.Machine (State C) (Action C) where
  start s := ∃ creator, s = State.initial creator
  step := State.step

end SwiftJanet.Executor
