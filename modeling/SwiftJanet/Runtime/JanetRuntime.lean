import SwiftJanet.Executor.Frame
import SwiftJanet.Runtime.MainJanetRuntime
import SwiftJanet.Runtime.Threads

/-!
# `JanetRuntime`

A process with any number of `JanetRuntime` actors and `JanetRuntime.main`. Each actor has a `ThreadExecutor` of its
own, which is the machine of `SwiftJanet.Executor`; what its jobs do, and when the actor enqueues them, is added here.

- A call of `eval` or `define` is a job, enqueued by the thread that makes it, and holds a reference to the actor. The
  job makes the VM first if there is none, and runs the method;
- whoever drops the last reference enqueues the job of `deinit`: it checks its thread, releases the executor, and
  releases the VM if there is one;
- calls of the main runtime run on the main thread, to their end or nested in each other.

What a method calls in the library touches nothing but its own thread, so it is one step here.
-/

namespace SwiftJanet.Runtime

open Lib

/-! ## Threads and owners -/

/-- The main thread, the thread of the `r`-th runtime, or another one. -/
inductive OSThread where
  | main
  | worker (r : Nat)
  | other (n : Nat)
deriving DecidableEq, Repr

/-- The runtime that a VM belongs to. -/
inductive Owner where
  | main
  | runtime (r : Nat)
deriving DecidableEq, Repr

/-- The runtime's own thread. -/
def Owner.thread : Owner → OSThread
  | main => .main
  | runtime r => .worker r

/-- A thread, as the executor of the `r`-th runtime sees it. -/
def OSThread.view (r : Nat) (t : OSThread) : Executor.Thread OSThread := if t = .worker r then .worker else .client t

/-! ## State -/

/-- How far the job has come. -/
inductive Body where
  | start
  /-- the method has run -/
  | performed
  /-- `deinit` is inside `checkIsolated` -/
  | checking
  /-- `deinit` has released the executor -/
  | releasing
  | ended
deriving DecidableEq, Repr

/-- An actor: `refs` counts the references to it but for those that its pending calls hold. -/
structure JanetRuntime (P : Type) where
  executor : Executor.State OSThread
  refs : Nat
  pending : List (Executor.Job × Method)
  deinitJob : Option Executor.Job
  vm : Option (JanetVM P)
  body : Body

structure World (P : Type) where
  process : Process OSThread Owner
  runtimes : Nat → Option (JanetRuntime P)
  main : Option (MainJanetRuntime P)
  /-- the evaluations in progress on the main thread -/
  frames : Nat
  trapped : Option Misuse

/-- Nothing has been made. -/
def World.initial {P : Type} : World P := ⟨.initial, fun _ => none, none, 0, none⟩

/-! ## Steps -/

/-- A step of one actor. -/
inductive RuntimeAction where
  /-- another reference to the actor -/
  | retain
  /-- a reference is dropped on the thread `t` -/
  | drop (t : OSThread)
  /-- a call of `eval` or `define` begins on the thread `t` -/
  | call (t : OSThread) (m : Method)
  /-- the job of a call runs its method -/
  | perform
  /-- the job gives the reference of the call back -/
  | giveBack
  /-- `deinit` begins `checkIsolated` -/
  | checkIsolated
  /-- `deinit` is told the answer, and releases the executor -/
  | releaseExecutor
  /-- `deinit` releases the VM -/
  | releaseVM
  | endJob
  /-- a step of the executor -/
  | executor (a : Executor.Action OSThread)

inductive WorldAction where
  /-- `JanetRuntime.init` on the thread `t` -/
  | create (r : Nat) (t : OSThread)
  | runtime (r : Nat) (a : RuntimeAction)
  /-- the first use of `JanetRuntime.main` -/
  | makeMain
  | beginEval
  | endEval (copies : Nat) (throws : Bool)
  | define (makes : Nat) (throws : Bool)
  /-- `reset` outside evaluations -/
  | reset

/-- The methods of the actor. -/
def Method.isCall : Method → Bool
  | eval _ _ | define _ _ => true
  | reset | deinit => false

variable {P : Type} [DecidableEq P] (pthread : OSThread → P)

/-- The job of a call: `vm` is made on its first use. -/
def JanetRuntime.perform (r : Nat) (vm : Option (JanetVM P)) (m : Method) :
    Effect OSThread Owner (JanetVM P) := do
  let vm ← match vm with
    | some vm => pure vm
    | none => JanetVM.init (.worker r) (pthread (.worker r)) (.runtime r)
  (m.run vm (.worker r) (pthread (.worker r)) (.runtime r)).attempt
  return vm

namespace World

variable (w : World P)

def setRuntime (r : Nat) (rt : JanetRuntime P) : World P :=
  { w with runtimes := Function.update w.runtimes r (some rt) }

/-- Go on with the result of a computation, unless it traps. -/
def after {α : Type} (x : Outcome Unit Misuse α × Process OSThread Owner) (k : α → World P → World P) :
    Option (World P) :=
  match x with
  | (.returns a, p) => some (k a { w with process := p })
  | (.traps m, p) => some { w with process := p, trapped := some m }
  | _ => none

/-- A step of the main runtime; an error is thrown to whoever called it. -/
def onMain (x : MainStep OSThread Owner P Unit) : Option (World P) :=
  match w.main with
  | some rt =>
    match x ⟨rt, w.process, w.frames, []⟩ with
    | (.returns _, s) => some { w with main := some s.runtime, process := s.process, frames := s.frames }
    | (.throws _, s) => some { w with main := some s.runtime, process := s.process, frames := s.frames }
    | (.traps m, s) => some { w with process := s.process, trapped := some m }
    | (.unfinished, _) => none
  | none => none

/-- A step of one runtime. -/
def stepRuntime (r : Nat) (rt : JanetRuntime P) : RuntimeAction → Option (World P)
  | .retain => if 0 < rt.refs ∨ rt.pending ≠ [] then some (w.setRuntime r { rt with refs := rt.refs + 1 }) else none
  | .drop t =>
    if rt.refs = 1 ∧ rt.pending = [] then
      match (Executor.executor OSThread).run rt.executor (Executor.enqueueShared (t.view r)) with
      | some e =>
        some (w.setRuntime r { rt with executor := e, refs := 0, deinitJob := some rt.executor.nextJob })
      | none => none
    else if 0 < rt.refs then some (w.setRuntime r { rt with refs := rt.refs - 1 })
    else none
  | .call t m =>
    if 0 < rt.refs ∧ m.isCall = true then
      match (Executor.executor OSThread).run rt.executor (Executor.enqueueShared (t.view r)) with
      | some e =>
        some (w.setRuntime r { rt with
          executor := e, refs := rt.refs - 1, pending := (rt.executor.nextJob, m) :: rt.pending })
      | none => none
    else none
  | .perform =>
    match rt.executor.run.current with
    | some job =>
      match rt.pending.find? fun e => e.1 = job with
      | some (_, m) =>
        if rt.body = .start ∧ rt.executor.call .worker = none then
          w.after (JanetRuntime.perform pthread r rt.vm m w.process) fun vm w =>
            w.setRuntime r { rt with vm := some vm, body := .performed }
        else none
      | none => none
    | none => none
  | .giveBack =>
    match rt.executor.run.current with
    | some job =>
      if rt.body = .performed then
        some (w.setRuntime r { rt with
          body := .ended, refs := rt.refs + 1, pending := rt.pending.filter fun e => e.1 ≠ job })
      else none
    | none => none
  | .checkIsolated =>
    if rt.body = .start ∧ rt.deinitJob ≠ none ∧ rt.executor.run.current = rt.deinitJob then
      match rt.executor.step (.isCurrentThread .worker) with
      | some e => some (w.setRuntime r { rt with executor := e, body := .checking })
      | none => none
    else none
  | .releaseExecutor =>
    if rt.body = .checking ∧ rt.executor.call .worker = none then
      if rt.executor.answer .worker = some true then
        match (Executor.executor OSThread).run rt.executor (Executor.releaseObject .worker) with
        | some e => some (w.setRuntime r { rt with executor := e, body := .releasing })
        | none => none
      else some { w with trapped := some .notIsolated }
    else none
  | .releaseVM =>
    if rt.body = .releasing ∧ rt.executor.call .worker = none then
      match rt.vm with
      | some vm =>
        w.after (vm.deinit (.worker r) (pthread (.worker r)) (.runtime r) w.process) fun _ w =>
          w.setRuntime r { rt with vm := none, body := .ended }
      | none => some (w.setRuntime r { rt with body := .ended })
    else none
  | .endJob =>
    if rt.body = .ended then
      match rt.executor.step .endJob with
      | some e => some (w.setRuntime r { rt with executor := e, body := .start })
      | none => none
    else none
  | .executor a =>
    if a.isQuiet then
      match rt.executor.step a with
      | some e => some (w.setRuntime r { rt with executor := e })
      | none => none
    else none

/-- `JanetRuntime.init`: the actor holds the executor that the thread made. -/
def create (r : Nat) (t : OSThread) : Option (World P) :=
  if w.runtimes r = none ∧ t ≠ .worker r then
    match (Executor.executor OSThread).run (.initial t) (Executor.storeObject (.client t)) with
    | some e => some (w.setRuntime r ⟨e, 1, [], none, none, .start⟩)
    | none => none
  else none

/-- `static let main`, on its first use. -/
def makeMain : Option (World P) :=
  match w.main with
  | none =>
    w.after (MainJanetRuntime.init .main (pthread .main) .main w.process) fun rt w =>
      { w with main := some rt, frames := 0 }
  | some _ => none

/-- One action. -/
def stepLive : WorldAction → Option (World P)
  | .create r t => w.create r t
  | .runtime r a =>
    match w.runtimes r with
    | some rt => w.stepRuntime pthread r rt a
    | none => none
  | .makeMain => w.makeMain pthread
  | .beginEval => w.onMain (MainJanetRuntime.beginEval .main (pthread .main) .main)
  | .endEval copies throws =>
    if 0 < w.frames then w.onMain (MainJanetRuntime.endEval .main .main copies throws) else none
  | .define makes throws => w.onMain (MainJanetRuntime.define .main (pthread .main) .main makes throws)
  | .reset => if w.frames = 0 then w.onMain (MainJanetRuntime.reset .main (pthread .main) .main) else none

/-- After a precondition has failed there is nothing. -/
def step (a : WorldAction) : Option (World P) := if w.trapped = none then w.stepLive pthread a else none

end World

/-- The process as a machine. -/
def world : Lib.Machine (World P) WorldAction where
  start w := w = .initial
  step w a := w.step pthread a

end SwiftJanet.Runtime
