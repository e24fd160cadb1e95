import SwiftJanet.Executor.SharedState

/-!
# Threads and what they are called

A process with any number of threads and of executors. The operating system gives each thread that it starts a
`pthread_t` that no other living thread has; when a thread has ended, its value may be given out again. An executor
(`ThreadExecutor`) is the machine of `SwiftJanet.Executor`, but it knows its worker by that value alone: what
`isCurrentThread` says is a comparison of two values.

A thread uses an executor only between its calls, and the worker of one executor is a client of the others. `replies`
records the answers; no step reads them.
-/

namespace SwiftJanet.Executor

/-! ## Questions -/

/-- The three ways to ask which thread one is on. -/
inductive Query where
  | isCurrentThread
  | isIsolatingCurrentContext
  | checkIsolated
deriving DecidableEq, Repr

/-- What a question comes to. -/
inductive Answer where
  | bool (b : Bool)
  | optional (b : Option Bool)
  | returned
  | trapped (message : String)
deriving DecidableEq, Repr

/-- What is made of `SharedState.isCurrentThread`. -/
def Query.answer (threadName : String) (isCurrentThread : Bool) : Query → Answer
  | .isCurrentThread => .bool isCurrentThread
  | .isIsolatingCurrentContext => .optional (some isCurrentThread)
  | .checkIsolated => if isCurrentThread then .returned else .trapped ("Expected to run on thread " ++ threadName)

/-- The message that a precondition ends the process with. -/
def Answer.message : Answer → Option String
  | .trapped message => some message
  | _ => none

/-! ## One executor -/

/-- An executor with the values that it compares: `T` are threads, `P` is `pthread_t`. -/
structure ThreadExecutor (T P : Type) where
  threadName : String
  /-- the thread that `init` starts -/
  worker : T
  shared : State T
  /-- `SharedState.thread` -/
  thread : Option P

namespace ThreadExecutor

variable {T P : Type} [DecidableEq T] [DecidableEq P] (o : ThreadExecutor T P)

/-- `ThreadExecutor.init` on the thread `creator`. -/
def init (threadName : String) (creator worker : T) : ThreadExecutor T P where
  threadName := threadName
  worker := worker
  shared := .initial creator
  thread := none

/-- What a thread is to the executor. -/
def view (t : T) : Thread T := if t = o.worker then .worker else .client t

/-- `SharedState.isCurrentThread` under the lock, on the thread that is called `self`. -/
def isCurrentThread (self : P) : Bool :=
  match o.thread with
  | none => false
  | some thread => thread == self

/-- The test, and what it found. -/
def compare (t : Thread T) (self : P) : ThreadExecutor T P :=
  { o with shared := { o.shared.setCall t (some (.isCurrentThread, .unlock)) with
    answer := Function.update o.shared.answer t (some (o.isCurrentThread self)) } }

/-- The precondition at the head of `run`, and `thread = pthread_self()`. -/
def register (self : P) : ThreadExecutor T P :=
  match o.thread with
  | none => { o with shared := { o.shared with thread := some .worker, run := .registered }, thread := some self }
  | some _ => { o with shared := { o.shared with run := .trapped } }

/-- An action that compares no values. -/
def act (a : Action T) : Option (ThreadExecutor T P) := (o.shared.step a).map fun s => { o with shared := s }

/-- The next statement of the thread that is called `self`. -/
def advance (t : Thread T) (self : P) : Option (ThreadExecutor T P) :=
  if o.shared.call t = some (.isCurrentThread, .write) then some (o.compare t self)
  else if t = .worker ∧ o.shared.call t = none ∧ o.shared.run = .registering then some (o.register self)
  else o.act (.advance t)

end ThreadExecutor

/-! ## The process -/

/-- An answer that a thread has got. -/
structure Reply (T : Type) where
  executor : Nat
  caller : T
  query : Query
  answer : Answer
  /-- where the worker of the executor was -/
  run : Run
deriving DecidableEq, Repr

structure Process (T P : Type) where
  /-- `pthread_self()` on each thread that has been started -/
  self : T → Option P
  living : List T
  executors : List (ThreadExecutor T P)
  /-- what each thread has asked last -/
  asking : T → Query
  replies : List (Reply T)
  /-- the message that the process has ended with -/
  fatal : Option String

/-- What a thread does with an executor between its calls; an object that threads share is `none`. -/
inductive Use (T : Type) where
  | retain (src dst : Option T)
  | take (t : T)
  | release (t : T)
  | onThreadExit (t : T) (handler : Handler)
  | enqueue (t : T)
  | endJob
deriving DecidableEq, Repr

namespace Use

variable {T P : Type} [DecidableEq T] (o : ThreadExecutor T P)

/-- The thread that does it, if one has to. -/
def user : Use T → Option T
  | retain src _ => src
  | take t | release t | onThreadExit t _ | enqueue t => some t
  | endJob => some o.worker

/-- The thread that gets a reference. -/
def receiver : Use T → Option T
  | retain _ dst => dst
  | _ => none

/-- What holds a reference. -/
def holder : Option T → Holder T
  | some t => .thread (o.view t)
  | none => .object

/-- The action of the executor. -/
def action : Use T → Action T
  | retain src dst => .retain (holder o src) (holder o dst)
  | take t => .take (o.view t)
  | release t => .release (o.view t)
  | onThreadExit t handler => .onThreadExit (o.view t) handler
  | enqueue t => .enqueue (o.view t)
  | endJob => .endJob

end Use

/-- What can happen next in the process; `e` is the number of an executor. -/
inductive ProcessAction (T P : Type) where
  /-- the operating system starts a thread -/
  | start (t : T) (self : P)
  | finish (t : T)
  /-- `ThreadExecutor.init` on the thread `t` -/
  | create (t : T) (threadName : String) (worker : T) (self : P)
  | use (e : Nat) (u : Use T)
  | ask (e : Nat) (t : T) (query : Query)
  /-- a spurious wake-up -/
  | wake (e : Nat)
  /-- a thread does its next statement on the executor -/
  | advance (e : Nat) (t : T)
deriving DecidableEq, Repr

namespace Process

variable {T P : Type} [DecidableEq T] [DecidableEq P] (w : Process T P)

def initial : Process T P where
  self := fun _ => none
  living := []
  executors := []
  asking := fun _ => .isCurrentThread
  replies := []
  fatal := none

/-- The thread is inside no call. -/
def Idle (t : T) : Prop := ∀ o ∈ w.executors, o.shared.call (o.view t) = none

/-- The thread is in code that can use executors. -/
def Free (t : T) : Prop := t ∈ w.living ∧ ∀ o ∈ w.executors, o.shared.Free (o.view t)

/-- The thread is about to end; a worker does so when `run` has returned. -/
def Done (t : T) : Prop := w.Idle t ∧ ∀ o ∈ w.executors, o.worker = t → o.shared.run = .returned

/-- The operating system can start the thread and call it `self`. -/
def Fresh (t : T) (self : P) : Prop := w.self t = none ∧ ∀ u ∈ w.living, w.self u ≠ some self

instance (t : T) : Decidable (w.Idle t) := inferInstanceAs (Decidable (∀ _ ∈ _, _))
instance (t : T) : Decidable (w.Free t) := inferInstanceAs (Decidable (_ ∧ ∀ _ ∈ _, _))
instance (t : T) : Decidable (w.Done t) := inferInstanceAs (Decidable (_ ∧ ∀ _ ∈ _, _))
instance (t : T) (self : P) : Decidable (w.Fresh t self) := inferInstanceAs (Decidable (_ ∧ ∀ _ ∈ _, _))

/-- A thread that is called `self` lives from here on. -/
def started (t : T) (self : P) : Process T P :=
  { w with self := Function.update w.self t (some self), living := t :: w.living }

/-- The executor has changed. -/
def setExecutor (e : Nat) (o : ThreadExecutor T P) : Process T P := { w with executors := w.executors.set e o }

/-- `isCurrentThread` of the executor `o` returns on the thread `t`. -/
def reply (e : Nat) (t : T) (o : ThreadExecutor T P) : Reply T where
  executor := e
  caller := t
  query := w.asking t
  answer := (w.asking t).answer o.threadName (o.shared.answer (o.view t) == some true)
  run := o.shared.run

/-- The thread has its answer; a precondition that fails ends the process. -/
def answered (r : Reply T) : Process T P := { w with replies := w.replies ++ [r], fatal := r.answer.message }

/-- A failed precondition at the head of `run` ends the process. -/
def checked (run : Run) : Process T P :=
  if run = .trapped then { w with fatal := some "ThreadExecutor's queue is already drained by another thread" } else w

/-- The next statement of the thread on the executor. -/
def advance (e : Nat) (t : T) : Option (Process T P) :=
  match w.executors[e]?, w.self t with
  | some o, some self =>
    if t ∈ w.living ∧ (o.shared.call (o.view t) ≠ none ∨ w.Idle t) then
      (o.advance (o.view t) self).map fun o' =>
        if o.shared.call (o.view t) = some (.isCurrentThread, .unlock) then
          (w.setExecutor e o').answered (w.reply e t o)
        else (w.setExecutor e o').checked o'.shared.run
    else none
  | _, _ => none

/-- One action of a process that has not ended. -/
def act : ProcessAction T P → Option (Process T P)
  | .start t self => if w.Fresh t self then some (w.started t self) else none
  | .finish t => if t ∈ w.living ∧ w.Done t then some { w with living := w.living.erase t } else none
  | .create t threadName worker self =>
    if w.Free t ∧ w.Fresh worker self then
      some { w.started worker self with executors := w.executors ++ [.init threadName t worker] }
    else none
  | .use e u =>
    match w.executors[e]? with
    | some o =>
      if (∀ t ∈ u.user o, w.Free t) ∧ ∀ t ∈ u.receiver, t ∈ w.living then (o.act (u.action o)).map (w.setExecutor e)
      else none
    | none => none
  | .ask e t query =>
    match w.executors[e]? with
    | some o =>
      if w.Free t then
        (o.act (.isCurrentThread (o.view t))).map fun o' =>
          { w.setExecutor e o' with asking := Function.update w.asking t query }
      else none
    | none => none
  | .wake e =>
    match w.executors[e]? with
    | some o => (o.act .wake).map (w.setExecutor e)
    | none => none
  | .advance e t => w.advance e t

/-- One action. -/
def step (a : ProcessAction T P) : Option (Process T P) := if w.fatal = none then w.act a else none

end Process

/-- The process as a machine. -/
def process (T P : Type) [DecidableEq T] [DecidableEq P] : Lib.Machine (Process T P) (ProcessAction T P) where
  start w := w = Process.initial
  step := Process.step

end SwiftJanet.Executor
