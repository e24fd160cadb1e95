import Mathlib.Logic.Function.Basic
import SwiftJanet.Lib.Outcome

/-!
# `JanetVM`

The Swift side of a VM: what it checks before it calls into the library, and which calls it makes.

- `Process T V`: the marker that each thread has, and the calls into the library that were made so far, each with the
  thread that made it and the VM that it was made for;
- `JanetVM P` records the `pthread_t` value of the thread that made it. Threads `T` are never the same twice; their
  `pthread_t` values `P` may be.
-/

namespace SwiftJanet.Runtime

open Lib

/-! ## The process -/

/-- A precondition that does not hold; it ends the process. -/
inductive Misuse where
  /-- `JanetVM.init`: a `JanetVM` is live on the thread -/
  | alreadyLive
  /-- `JanetVM.deinit` on another thread -/
  | released
  /-- `JanetVM.reset` on another thread -/
  | reset
  /-- `JanetVM.eval` on another thread -/
  | evaluated
  /-- `JanetVM.define` on another thread -/
  | defined
  /-- `MainJanetRuntime.reset` during an evaluation -/
  | resetDuringEval
  /-- `ThreadExecutor.checkIsolated` on another thread -/
  | notIsolated
deriving DecidableEq, Repr

/-- The calls into the library; `janetAccess` stands for those that make and copy values. -/
inductive JanetCall where
  | janetInit | janetCoreEnv | janetDostring | janetDef | janetAccess | janetDeinit
deriving DecidableEq, Repr

structure Process (T V : Type) where
  threadHasLiveVM : T → Bool
  log : List (T × V × JanetCall)

/-- Calls that change the process; an error only says that one was thrown. -/
abbrev Effect (T V α : Type) := Computation (Process T V) Unit Misuse α

namespace Process

variable {T V : Type}

/-- No thread has a VM yet. -/
def initial : Process T V := ⟨fun _ => false, []⟩

/-- The process after calls for the VM `v` on the thread `t`. -/
def record (p : Process T V) (t : T) (v : V) (calls : List JanetCall) : Process T V :=
  { p with log := p.log ++ calls.map fun c => (t, v, c) }

/-- The calls made on the thread `t`. -/
def callsOn [DecidableEq T] (p : Process T V) (t : T) : List (V × JanetCall) :=
  (p.log.filter fun e => e.1 = t).map Prod.snd

@[simp] theorem record_record (p : Process T V) (t : T) (v : V) (cs cs' : List JanetCall) :
    (p.record t v cs).record t v cs' = p.record t v (cs ++ cs') := by
  simp [record]

@[simp] theorem record_nil (p : Process T V) (t : T) (v : V) : p.record t v [] = p := by
  simp [record]

@[simp] theorem threadHasLiveVM_record (p : Process T V) (t : T) (v : V) (cs : List JanetCall) :
    (p.record t v cs).threadHasLiveVM = p.threadHasLiveVM := rfl

variable [DecidableEq T] {p : Process T V} {t u : T} {v : V} {cs : List JanetCall}

@[simp] theorem callsOn_record : (p.record t v cs).callsOn t = p.callsOn t ++ cs.map fun c => (v, c) := by
  have hall : ∀ cs : List JanetCall,
      ((cs.map fun c => (t, v, c)).filter fun e => decide (e.1 = t)) = cs.map fun c => (t, v, c) := fun cs =>
    List.filter_eq_self.mpr fun e he => by
      obtain ⟨c, _, rfl⟩ := List.mem_map.mp he
      exact decide_eq_true rfl
  simp only [callsOn, record, List.filter_append, List.map_append, hall, List.map_map]
  rfl

theorem callsOn_record_of_ne (h : u ≠ t) : (p.record t v cs).callsOn u = p.callsOn u := by
  have hnone : ((cs.map fun c => (t, v, c)).filter fun e => decide (e.1 = u)) = [] :=
    List.filter_eq_nil_iff.mpr fun e he => by
      obtain ⟨c, _, rfl⟩ := List.mem_map.mp he
      simpa using Ne.symm h
  simp only [callsOn, record, List.filter_append, hnone, List.append_nil]

end Process

/-! ## Initialised VMs -/

section Scan

variable {V : Type} [DecidableEq V]

/-- The VM of a thread after one more call; none if the call is not for the VM that was initialised there. -/
def scanCall (vm : Option V) (e : V × JanetCall) : Option (Option V) :=
  match e.2 with
  | .janetInit => if vm = none then some (some e.1) else none
  | .janetDeinit => if vm = some e.1 then some none else none
  | _ => if vm = some e.1 then some vm else none

/-- The VM of a thread after its calls. -/
def scan (calls : List (V × JanetCall)) : Option (Option V) := calls.foldlM scanCall none

theorem scan_append (cs cs' : List (V × JanetCall)) :
    scan (cs ++ cs') = (scan cs).bind fun vm => cs'.foldlM scanCall vm := by
  rw [scan, List.foldlM_append]
  rfl

end Scan

/-! ## Methods -/

structure JanetVM (P : Type) where
  thread : P
deriving DecidableEq, Repr

namespace JanetVM

variable {T V P : Type}

/-- One call into the library, for the VM `v` on the thread `t`. -/
def janet (t : T) (v : V) (c : JanetCall) : Effect T V Unit :=
  Computation.modify fun p => { p with log := p.log ++ [(t, v, c)] }

/-- Set the marker of the thread `t`. -/
def setLive [DecidableEq T] (t : T) (live : Bool) : Effect T V Unit :=
  Computation.modify fun p => { p with threadHasLiveVM := Function.update p.threadHasLiveVM t live }

/-- Calls that make or copy values. -/
def accesses (t : T) (v : V) : Nat → Effect T V Unit
  | 0 => pure ()
  | n + 1 => do
    janet t v .janetAccess
    accesses t v n

/-- `JanetVM.init` on the thread `t`, whose `pthread_t` value is `self`. -/
def init [DecidableEq T] (t : T) (self : P) (v : V) : Effect T V (JanetVM P) := do
  Computation.require (fun p => !p.threadHasLiveVM t) .alreadyLive
  setLive t true
  janet t v .janetInit
  janet t v .janetCoreEnv
  return ⟨self⟩

variable [DecidableEq P] (vm : JanetVM P)

def isOnOwnThread (self : P) : Bool := vm.thread = self

/-- The precondition of the other methods. -/
def check (self : P) (m : Misuse) : Effect T V Unit := Computation.require (fun _ => vm.isOnOwnThread self) m

/-- `JanetVM.deinit`. -/
def deinit [DecidableEq T] (t : T) (self : P) (v : V) : Effect T V Unit := do
  vm.check self .released
  janet t v .janetDeinit
  setLive t false

/-- `JanetVM.reset`. -/
def reset (t : T) (self : P) (v : V) : Effect T V Unit := do
  vm.check self .reset
  janet t v .janetDeinit
  janet t v .janetInit
  janet t v .janetCoreEnv

/-- `JanetVM.eval` up to the interpreter. -/
def beginEval (t : T) (self : P) (v : V) : Effect T V Unit := do
  vm.check self .evaluated
  janet t v .janetDostring

/-- `JanetVM.eval` after the interpreter: `copies` calls make the result, or the message of the error. -/
def endEval (t : T) (v : V) (copies : Nat) (throws : Bool) : Effect T V Unit := do
  accesses t v copies
  if throws then Computation.lift (.throws ())

/-- `JanetVM.eval`, when the interpreter does not call back. -/
def eval (t : T) (self : P) (v : V) (copies : Nat) (throws : Bool) : Effect T V Unit := do
  vm.beginEval t self v
  endEval t v copies throws

/-- `JanetVM.define`: `makes` calls make the value, unless it is nested too deeply. -/
def define (t : T) (self : P) (v : V) (makes : Nat) (throws : Bool) : Effect T V Unit := do
  vm.check self .defined
  accesses t v makes
  if throws then Computation.lift (.throws ())
  janet t v .janetDef

/-! ## What the methods come to -/

section Laws

variable {vm} {t : T} {self : P} {v : V} {p : Process T V} {m : Misuse}

theorem check_own (h : vm.thread = self) : (vm.check self m : Effect T V Unit) p = (.returns (), p) := by
  simp [check, Computation.require, isOnOwnThread, h]

theorem check_other (h : vm.thread ≠ self) : (vm.check self m : Effect T V Unit) p = (.traps m, p) := by
  simp [check, Computation.require, isOnOwnThread, h]

omit [DecidableEq P] in
theorem janet_apply (c : JanetCall) : janet t v c p = (.returns (), p.record t v [c]) := rfl

omit [DecidableEq P] in
theorem accesses_apply (n : Nat) (p : Process T V) :
    accesses t v n p = (.returns (), p.record t v (List.replicate n .janetAccess)) := by
  induction n generalizing p with
  | zero => exact Prod.ext rfl (Process.record_nil p t v).symm
  | succ n ih =>
    rw [accesses, Computation.bind_of_returns (janet_apply _), ih, Process.record_record]
    rfl

omit [DecidableEq P] in
/-- A thread without a VM gets one. -/
theorem init_free [DecidableEq T] (h : p.threadHasLiveVM t = false) :
    init t self v p = (.returns ⟨self⟩,
      ({ p with threadHasLiveVM := Function.update p.threadHasLiveVM t true } : Process T V).record t v
        [.janetInit, .janetCoreEnv]) := by
  have hrequire : (Computation.require (fun p => !p.threadHasLiveVM t) Misuse.alreadyLive : Effect T V Unit) p =
      (.returns (), p) := by
    simp [Computation.require, h]
  rw [init, Computation.bind_of_returns hrequire]
  simp only [Process.record, List.map_cons, List.map_nil]
  rw [show ∀ l : List (T × V × JanetCall), ∀ a b, l ++ [a, b] = l ++ [a] ++ [b] from by simp]
  rfl

omit [DecidableEq P] in
theorem init_live [DecidableEq T] (h : p.threadHasLiveVM t = true) :
    init t self v p = (.traps .alreadyLive, p) := by
  have hrequire : (Computation.require (fun p => !p.threadHasLiveVM t) Misuse.alreadyLive : Effect T V Unit) p =
      (.traps .alreadyLive, p) := by
    simp [Computation.require, h]
  exact Computation.bind_of_traps hrequire

theorem beginEval_own (h : vm.thread = self) (p : Process T V) :
    vm.beginEval t self v p = (.returns (), p.record t v [.janetDostring]) := by
  rw [beginEval, Computation.bind_of_returns (check_own h), janet_apply]

omit [DecidableEq P] in
theorem endEval_apply (copies : Nat) (throws : Bool) (p : Process T V) :
    endEval t v copies throws p =
      (if throws then .throws () else .returns (), p.record t v (List.replicate copies .janetAccess)) := by
  rw [endEval, Computation.bind_of_returns (accesses_apply copies p)]
  cases throws <;> rfl

theorem eval_own (h : vm.thread = self) (copies : Nat) (throws : Bool) (p : Process T V) :
    vm.eval t self v copies throws p =
      (if throws then .throws () else .returns (),
        p.record t v (.janetDostring :: List.replicate copies .janetAccess)) := by
  rw [eval, Computation.bind_of_returns (beginEval_own h p), endEval_apply, Process.record_record]
  rfl

theorem define_own (h : vm.thread = self) (makes : Nat) (throws : Bool) (p : Process T V) :
    vm.define t self v makes throws p =
      (if throws then .throws () else .returns (),
        p.record t v (List.replicate makes .janetAccess ++ if throws then [] else [.janetDef])) := by
  rw [define, Computation.bind_of_returns (check_own h), Computation.bind_of_returns (accesses_apply makes p)]
  cases throws
  · rw [← Process.record_record]
    rfl
  · simp only [if_true, List.append_nil]
    rfl

theorem reset_own (h : vm.thread = self) (p : Process T V) :
    vm.reset t self v p = (.returns (), p.record t v [.janetDeinit, .janetInit, .janetCoreEnv]) := by
  rw [reset, Computation.bind_of_returns (check_own h), Computation.bind_of_returns (janet_apply _),
    Computation.bind_of_returns (janet_apply _), janet_apply, Process.record_record, Process.record_record]
  rfl

theorem deinit_own [DecidableEq T] (h : vm.thread = self) (p : Process T V) :
    vm.deinit t self v p = (.returns (),
      { p.record t v [.janetDeinit] with threadHasLiveVM := Function.update p.threadHasLiveVM t false }) := by
  rw [deinit, Computation.bind_of_returns (check_own h), Computation.bind_of_returns (janet_apply _)]
  rfl

end Laws

end JanetVM

end SwiftJanet.Runtime
