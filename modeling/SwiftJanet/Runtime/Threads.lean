import SwiftJanet.Lib.Machine
import SwiftJanet.Runtime.JanetVM

/-!
# `JanetVM` on threads that come and go

Threads start and end in any order, make VMs and call the methods of any of them. A thread that starts gets a
`pthread_t` value that no living thread has, which may be that of a thread that has ended.

- `Safe`: a method called on a thread other than the one that made the VM traps before it calls into the library, so
  does a second `init` on a thread with a live VM, and every call into the library finds the VM that was initialised
  for it;
- `safe_iff_notReused`: a run is safe throughout exactly when no thread is given the value of an ended thread whose VM
  is still live.
-/

namespace SwiftJanet.Runtime

open Lib

variable {T V P : Type}

/-! ## Methods -/

/-- The methods that check their thread. -/
inductive Method where
  | eval (copies : Nat) (throws : Bool)
  | define (makes : Nat) (throws : Bool)
  | reset
  | deinit
deriving DecidableEq, Repr

namespace Method

/-- The precondition of the method. -/
def misuse : Method → Misuse
  | eval _ _ => .evaluated
  | define _ _ => .defined
  | reset => .reset
  | deinit => .released

/-- What the method calls. -/
def calls : Method → List JanetCall
  | eval copies _ => .janetDostring :: List.replicate copies .janetAccess
  | define makes throws => List.replicate makes .janetAccess ++ if throws then [] else [.janetDef]
  | reset => [.janetDeinit, .janetInit, .janetCoreEnv]
  | deinit => [.janetDeinit]

variable [DecidableEq T] [DecidableEq P] (vm : JanetVM P) (t : T) (self : P) (v : V)

def run : Method → Effect T V Unit
  | eval copies throws => vm.eval t self v copies throws
  | define makes throws => vm.define t self v makes throws
  | reset => vm.reset t self v
  | deinit => vm.deinit t self v

variable {vm t self v} {m : Method} {p : Process T V}

/-- On another thread nothing is called. -/
theorem run_other (h : vm.thread ≠ self) : m.run vm t self v p = (.traps m.misuse, p) := by
  cases m
  · rw [run, JanetVM.eval, JanetVM.beginEval]
    exact Computation.bind_of_traps (Computation.bind_of_traps (JanetVM.check_other h))
  all_goals exact Computation.bind_of_traps (JanetVM.check_other h)

/-- On the own thread the method ends. -/
theorem run_own (h : vm.thread = self) : ∃ r, (r = .returns () ∨ r = .throws ()) ∧
    m.run vm t self v p = (r, { p.record t v m.calls with
      threadHasLiveVM :=
        if m = .deinit then Function.update p.threadHasLiveVM t false else p.threadHasLiveVM }) := by
  cases m with
  | eval copies throws =>
    refine ⟨_, ?_, (JanetVM.eval_own h copies throws p).trans rfl⟩
    cases throws <;> decide
  | define makes throws =>
    refine ⟨_, ?_, (JanetVM.define_own h makes throws p).trans rfl⟩
    cases throws <;> decide
  | reset => exact ⟨_, Or.inl rfl, JanetVM.reset_own h p⟩
  | deinit => exact ⟨_, Or.inl rfl, JanetVM.deinit_own h p⟩

end Method

/-! ## Threads -/

/-- A `JanetVM` object that has not been released, with the thread that made it. -/
structure LiveVM (T P : Type) where
  creator : T
  vm : JanetVM P

structure Threads (T V P : Type) where
  /-- the `pthread_t` values of the threads that have started -/
  self : T → Option P
  living : List T
  vms : V → Option (LiveVM T P)
  made : List V
  process : Process T V

namespace Threads

/-- Nothing has started. -/
def initial : Threads T V P := ⟨fun _ => none, [], fun _ => none, [], .initial⟩

end Threads

inductive ThreadAction (T V P : Type) where
  | start (t : T) (self : P)
  | finish (t : T)
  | init (t : T) (v : V)
  | call (t : T) (v : V) (m : Method)

variable [DecidableEq T] [DecidableEq V]

section Step

variable [DecidableEq P]

/-- One action; a precondition that fails ends the process. -/
def Threads.step (s : Threads T V P) : ThreadAction T V P → Option (Threads T V P)
  | .start t self =>
    if s.self t = none ∧ ∀ u ∈ s.living, s.self u ≠ some self then
      some { s with self := Function.update s.self t (some self), living := t :: s.living }
    else none
  | .finish t => if t ∈ s.living then some { s with living := s.living.filter (· ≠ t) } else none
  | .init t v =>
    match s.self t with
    | some self =>
      if t ∈ s.living ∧ v ∉ s.made then
        match JanetVM.init t self v s.process with
        | (.returns vm, p) =>
          some { s with vms := Function.update s.vms v (some ⟨t, vm⟩), made := v :: s.made, process := p }
        | _ => none
      else none
    | none => none
  | .call t v m =>
    match s.self t, s.vms v with
    | some self, some o =>
      if t ∈ s.living then
        let vms := if m = .deinit then Function.update s.vms v none else s.vms
        match m.run o.vm t self v s.process with
        | (.returns _, p) => some { s with vms := vms, process := p }
        | (.throws _, p) => some { s with vms := vms, process := p }
        | _ => none
      else none
    | _, _ => none

def threads (T V P : Type) [DecidableEq T] [DecidableEq V] [DecidableEq P] :
    Lib.Machine (Threads T V P) (ThreadAction T V P) where
  start s := s = .initial
  step := Threads.step

/-! ## Safety -/

/-- Misuse traps before it reaches the library, and each call into the library finds the VM initialised for it. -/
structure Threads.Safe (s : Threads T V P) : Prop where
  elsewhere : ∀ t self v o, t ∈ s.living → s.self t = some self → s.vms v = some o → t ≠ o.creator →
    ∀ m : Method, m.run o.vm t self v s.process = (.traps m.misuse, s.process)
  second : ∀ t self v v' o, t ∈ s.living → s.self t = some self → s.vms v = some o → o.creator = t →
    JanetVM.init t self v' s.process = (.traps .alreadyLive, s.process)
  calls : ∀ t, scan (s.process.callsOn t) ≠ none

end Step

/-- A thread that starts is not given the value of an ended thread whose VM is live. -/
def Threads.NotReused (s : Threads T V P) : ThreadAction T V P → Prop
  | .start _ self => ∀ v o, s.vms v = some o → o.creator ∉ s.living → s.self o.creator ≠ some self
  | _ => True

/-! ## The invariant -/

/-- The thread made the VM, which is live. -/
def Threads.Owns (s : Threads T V P) (t : T) (v : V) : Prop := ∃ o, s.vms v = some o ∧ o.creator = t

structure Threads.Inv (s : Threads T V P) : Prop where
  distinct : ∀ t u, t ∈ s.living → u ∈ s.living → s.self t = s.self u → t = u
  self : ∀ v o, s.vms v = some o → s.self o.creator = some o.vm.thread
  made : ∀ v o, s.vms v = some o → v ∈ s.made
  unique : ∀ t v o, t ∈ s.living → s.vms v = some o → s.self t = some o.vm.thread → t = o.creator
  marker : ∀ t, s.process.threadHasLiveVM t = true ↔ ∃ v, s.Owns t v
  owned : ∀ t v, s.Owns t v → scan (s.process.callsOn t) = some (some v)
  unowned : ∀ t, (∀ v, ¬s.Owns t v) → scan (s.process.callsOn t) = some none

namespace Threads

variable {s s' : Threads T V P} {t : T} {v : V}

theorem inv_initial : (initial : Threads T V P).Inv where
  distinct _ _ h := by cases h
  self _ _ h := by cases h
  made _ _ h := by cases h
  unique _ _ _ h := by cases h
  marker t := ⟨fun h => (nomatch h), fun ⟨_, _, h, _⟩ => (nomatch h)⟩
  owned _ _ := fun ⟨_, h, _⟩ => (nomatch h)
  unowned _ _ := rfl

/-- A thread owns at most one VM. -/
theorem Inv.owns_unique (h : s.Inv) {v' : V} (hv : s.Owns t v) (hv' : s.Owns t v') : v = v' := by
  have := (h.owned t v hv).symm.trans (h.owned t v' hv')
  simpa using this

/-- A thread starts with a value of its own. -/
theorem inv_start {self : P} (h : s.Inv) (hnew : s.self t = none) (hfree : ∀ u ∈ s.living, s.self u ≠ some self)
    (hok : s.NotReused (.start t self : ThreadAction T V P)) :
    Inv { s with self := Function.update s.self t (some self), living := t :: s.living } := by
  have hcreator : ∀ v o, s.vms v = some o → o.creator ≠ t := fun v o hv heq => by
    have := h.self v o hv
    rw [heq, hnew] at this
    cases this
  have hself : ∀ v o, s.vms v = some o → o.vm.thread ≠ self := fun v o hv heq => by
    have hthread := h.self v o hv
    rw [heq] at hthread
    by_cases hl : o.creator ∈ s.living
    · exact hfree _ hl hthread
    · exact hok v o hv hl hthread
  have hothers : ∀ u, u ≠ t → Function.update s.self t (some self) u = s.self u := fun u hu =>
    Function.update_of_ne hu ..
  have hsame : Function.update s.self t (some self) t = some self := Function.update_self ..
  exact
    { h with
      distinct := fun u w hu hw heq => by
        have heq' : Function.update s.self t (some self) u = Function.update s.self t (some self) w := heq
        by_cases hut : u = t <;> by_cases hwt : w = t
        · rw [hut, hwt]
        · rw [hut, hsame, hothers w hwt] at heq'
          exact absurd heq'.symm (hfree w ((List.mem_cons.mp hw).resolve_left hwt))
        · rw [hwt, hsame, hothers u hut] at heq'
          exact absurd heq' (hfree u ((List.mem_cons.mp hu).resolve_left hut))
        · rw [hothers u hut, hothers w hwt] at heq'
          exact h.distinct u w ((List.mem_cons.mp hu).resolve_left hut) ((List.mem_cons.mp hw).resolve_left hwt) heq'
      self := fun v o hv => (Function.update_of_ne (hcreator v o hv) ..).trans (h.self v o hv)
      unique := fun u v o hu hv hs => by
        have hs' : Function.update s.self t (some self) u = some o.vm.thread := hs
        by_cases hut : u = t
        · rw [hut, hsame] at hs'
          exact absurd (Option.some.inj hs').symm (hself v o hv)
        · rw [hothers u hut] at hs'
          exact h.unique u v o ((List.mem_cons.mp hu).resolve_left hut) hv hs' }

theorem inv_finish (h : s.Inv) : Inv { s with living := s.living.filter (· ≠ t) } :=
  { h with
    distinct := fun u w hu hw => h.distinct u w (List.mem_filter.mp hu).1 (List.mem_filter.mp hw).1
    unique := fun u v o hu hv hs => h.unique u v o (List.mem_filter.mp hu).1 hv hs }

/-! ## Making, using and releasing a VM -/

/-- The VM of a thread after more of its calls. -/
theorem scan_record (p : Process T V) (t : T) (v : V) (cs : List JanetCall) :
    scan ((p.record t v cs).callsOn t) = (scan (p.callsOn t)).bind fun vm =>
      (cs.map fun c => (v, c)).foldlM scanCall vm := by
  rw [Process.callsOn_record, scan_append]

theorem foldlM_accesses (v : V) (n : Nat) :
    ((List.replicate n JanetCall.janetAccess).map fun c => (v, c)).foldlM scanCall (some v) = some (some v) := by
  induction n with
  | zero => rfl
  | succ n ih =>
    rw [List.replicate_succ, List.map_cons, List.foldlM_cons]
    simpa [scanCall] using ih

/-- A method that does not release its VM leaves it initialised. -/
theorem foldlM_calls {m : Method} (hm : m ≠ .deinit) (v : V) :
    (m.calls.map fun c => (v, c)).foldlM scanCall (some v) = some (some v) := by
  cases m with
  | eval copies throws =>
    rw [Method.calls, List.map_cons, List.foldlM_cons]
    simpa [scanCall] using foldlM_accesses v copies
  | define makes throws =>
    rw [Method.calls, List.map_append, List.foldlM_append, foldlM_accesses]
    cases throws <;> simp [scanCall]
  | reset => simp [Method.calls, scanCall]
  | deinit => exact absurd rfl hm

/-- A thread without a VM makes one. -/
theorem inv_init {self : P} (h : s.Inv) (ht : t ∈ s.living) (hself : s.self t = some self) (hv : v ∉ s.made)
    (hfree : s.process.threadHasLiveVM t = false) :
    Inv { s with
      vms := Function.update s.vms v (some ⟨t, ⟨self⟩⟩)
      made := v :: s.made
      process := ({ s.process with
        threadHasLiveVM := Function.update s.process.threadHasLiveVM t true } : Process T V).record t v
          [.janetInit, .janetCoreEnv] } := by
  have hnone : ∀ w, ¬s.Owns t w := fun w hw => by
    rw [(h.marker t).mpr ⟨w, hw⟩] at hfree
    cases hfree
  have hcases : ∀ {w o}, Function.update s.vms v (some ⟨t, ⟨self⟩⟩) w = some o →
      (w = v ∧ o = ⟨t, ⟨self⟩⟩) ∨ (w ≠ v ∧ s.vms w = some o) := by
    intro w o hw
    rw [Function.update_apply] at hw
    split at hw
    · next hwv => exact Or.inl ⟨hwv, (Option.some.inj hw).symm⟩
    · next hwv => exact Or.inr ⟨hwv, hw⟩
  have hkeep : ∀ {w o}, s.vms w = some o → Function.update s.vms v (some ⟨t, ⟨self⟩⟩) w = some o := fun {w o} hw => by
    refine (Function.update_of_ne ?_ ..).trans hw
    rintro rfl
    exact hv (h.made w o hw)
  have hscan := h.unowned t hnone
  exact
    { h with
      self := fun w o hw => by
        rcases hcases hw with ⟨_, rfl⟩ | ⟨_, hw⟩
        · exact hself
        · exact h.self w o hw
      made := fun w o hw => by
        rcases hcases hw with ⟨rfl, _⟩ | ⟨_, hw⟩
        · exact List.mem_cons_self
        · exact List.mem_cons_of_mem _ (h.made w o hw)
      unique := fun u w o hu hw hs => by
        rcases hcases hw with ⟨_, rfl⟩ | ⟨_, hw⟩
        · exact h.distinct u t hu ht (hs.trans hself.symm)
        · exact h.unique u w o hu hw hs
      marker := fun u => by
        show Function.update s.process.threadHasLiveVM t true u = true ↔ _
        by_cases hut : u = t
        · rw [hut, Function.update_self]
          exact ⟨fun _ => ⟨v, _, Function.update_self .., rfl⟩, fun _ => rfl⟩
        · rw [Function.update_of_ne hut, h.marker u]
          constructor
          · rintro ⟨w, o, hw, ho⟩
            exact ⟨w, o, hkeep hw, ho⟩
          · rintro ⟨w, o, hw, ho⟩
            rcases hcases hw with ⟨_, rfl⟩ | ⟨_, hw⟩
            · exact absurd ho.symm hut
            · exact ⟨w, o, hw, ho⟩
      owned := by
        rintro u w ⟨o, hw, ho⟩
        rcases hcases hw with ⟨rfl, rfl⟩ | ⟨_, hw⟩
        · obtain rfl : t = u := ho
          refine (scan_record ..).trans ?_
          show (scan (s.process.callsOn t)).bind _ = _
          rw [hscan]
          simp [scanCall]
        · have hut : u ≠ t := fun heq => hnone w ⟨o, hw, ho.trans heq⟩
          exact (congrArg scan (Process.callsOn_record_of_ne hut)).trans (h.owned u w ⟨o, hw, ho⟩)
      unowned := fun u hu => by
        have hut : u ≠ t := fun heq => hu v ⟨_, Function.update_self .., heq.symm⟩
        refine (congrArg scan (Process.callsOn_record_of_ne hut)).trans (h.unowned u fun w hw => ?_)
        obtain ⟨o, hw, ho⟩ := hw
        exact hu w ⟨o, hkeep hw, ho⟩ }

/-- A thread calls a method of its VM. -/
theorem inv_use {m : Method} {o : LiveVM T P} (hm : m ≠ .deinit) (h : s.Inv) (hv : s.vms v = some o) :
    Inv { s with process := s.process.record o.creator v m.calls } := by
  have howner := h.owned o.creator v ⟨o, hv, rfl⟩
  exact
    { h with
      owned := fun u w hw => by
        by_cases hu : u = o.creator
        · subst hu
          rw [← h.owns_unique ⟨o, hv, rfl⟩ hw]
          exact (scan_record ..).trans (by rw [howner, Option.bind_some, foldlM_calls hm])
        · exact (congrArg scan (Process.callsOn_record_of_ne hu)).trans (h.owned u w hw)
      unowned := fun u hu => by
        have hne : u ≠ o.creator := fun heq => hu v ⟨o, hv, heq.symm⟩
        exact (congrArg scan (Process.callsOn_record_of_ne hne)).trans (h.unowned u hu) }

/-- A thread releases its VM. -/
theorem inv_deinit {o : LiveVM T P} (h : s.Inv) (hv : s.vms v = some o) :
    Inv { s with
      vms := Function.update s.vms v none
      process := { s.process.record o.creator v [.janetDeinit] with
        threadHasLiveVM := Function.update s.process.threadHasLiveVM o.creator false } } := by
  have howner := h.owned o.creator v ⟨o, hv, rfl⟩
  have hback : ∀ {w o'}, Function.update s.vms v none w = some o' → w ≠ v ∧ s.vms w = some o' := by
    intro w o' hw
    rw [Function.update_apply] at hw
    split at hw
    · cases hw
    · next hwv => exact ⟨hwv, hw⟩
  have hcreator : ∀ {u w}, s.Owns u w → w ≠ v → u ≠ o.creator := fun hu hw heq =>
    hw (h.owns_unique (heq ▸ hu) ⟨o, hv, rfl⟩)
  exact
    { h with
      self := fun w o' hw => h.self w o' (hback hw).2
      made := fun w o' hw => h.made w o' (hback hw).2
      unique := fun u w o' hu hw => h.unique u w o' hu (hback hw).2
      marker := fun u => by
        show Function.update s.process.threadHasLiveVM o.creator false u = true ↔ _
        by_cases hu : u = o.creator
        · rw [hu, Function.update_self]
          simp only [Bool.false_eq_true, false_iff]
          rintro ⟨w, o', hw, ho⟩
          exact absurd rfl (hcreator ⟨o', (hback hw).2, ho⟩ (hback hw).1)
        · rw [Function.update_of_ne hu, h.marker u]
          constructor
          · rintro ⟨w, o', hw, ho⟩
            refine ⟨w, o', (Function.update_of_ne ?_ ..).trans hw, ho⟩
            rintro rfl
            rw [hv] at hw
            exact hu (ho ▸ congrArg LiveVM.creator (Option.some.inj hw).symm)
          · rintro ⟨w, o', hw, ho⟩
            exact ⟨w, o', (hback hw).2, ho⟩
      owned := by
        rintro u w ⟨o', hw, ho⟩
        have hu := hcreator ⟨o', (hback hw).2, ho⟩ (hback hw).1
        exact (congrArg scan (Process.callsOn_record_of_ne hu)).trans (h.owned u w ⟨o', (hback hw).2, ho⟩)
      unowned := fun u hu => by
        by_cases hne : u = o.creator
        · subst hne
          exact (scan_record ..).trans (by rw [howner]; simp [scanCall])
        · refine (congrArg scan (Process.callsOn_record_of_ne hne)).trans (h.unowned u fun w hw => ?_)
          obtain ⟨o', hw, ho⟩ := hw
          refine hu w ⟨o', (Function.update_of_ne ?_ ..).trans hw, ho⟩
          rintro rfl
          rw [hv] at hw
          exact hne (ho ▸ congrArg LiveVM.creator (Option.some.inj hw).symm) }

/-! ## Runs -/

variable [DecidableEq P]

/-- The invariant is safe. -/
theorem Inv.safe (h : s.Inv) : s.Safe where
  elsewhere t self v o ht hself hv hne m :=
    Method.run_other fun heq => hne (h.unique t v o ht hv (heq ▸ hself))
  second t self v v' o _ _ hv ho := JanetVM.init_live ((h.marker t).mpr ⟨v, o, hv, ho⟩)
  calls t hnone := by
    by_cases howns : ∃ v, s.Owns t v
    · obtain ⟨v, hv⟩ := howns
      rw [h.owned t v hv] at hnone
      cases hnone
    · rw [h.unowned t (not_exists.mp howns)] at hnone
      cases hnone

/-- **Every step that reuses no value keeps the invariant.** -/
theorem inv_step {a : ThreadAction T V P} (h : s.Inv) (hs : s.step a = some s') (hok : s.NotReused a) : s'.Inv := by
  cases a with
  | start t self =>
    simp only [step, Option.ite_none_right_eq_some, Option.some.injEq] at hs
    obtain ⟨⟨hnew, hfree⟩, rfl⟩ := hs
    exact inv_start h hnew hfree hok
  | finish t =>
    simp only [step, Option.ite_none_right_eq_some, Option.some.injEq] at hs
    obtain ⟨_, rfl⟩ := hs
    exact inv_finish h
  | init t v =>
    rw [step] at hs
    cases hself : s.self t with
    | none => rw [hself] at hs; cases hs
    | some self =>
      rw [hself] at hs
      simp only [Option.ite_none_right_eq_some] at hs
      obtain ⟨⟨ht, hmade⟩, hs⟩ := hs
      cases hfree : s.process.threadHasLiveVM t with
      | true => rw [JanetVM.init_live hfree] at hs; cases hs
      | false =>
        rw [JanetVM.init_free hfree] at hs
        obtain rfl := Option.some.inj hs
        exact inv_init h ht hself hmade hfree
  | call t v m =>
    rw [step] at hs
    cases hself : s.self t with
    | none => rw [hself] at hs; cases hs
    | some self =>
      cases hv : s.vms v with
      | none => rw [hself, hv] at hs; cases hs
      | some o =>
        rw [hself, hv] at hs
        simp only [Option.ite_none_right_eq_some] at hs
        obtain ⟨ht, hs⟩ := hs
        by_cases hown : o.vm.thread = self
        · have hcreator := h.unique t v o ht hv (hown ▸ hself)
          subst hcreator
          obtain ⟨r, hr, hrun⟩ := Method.run_own (t := o.creator) (v := v) (p := s.process) (m := m) hown
          rw [hrun] at hs
          rcases hr with rfl | rfl
          all_goals
            obtain rfl := Option.some.inj hs
            by_cases hm : m = .deinit
            · subst hm
              exact inv_deinit h hv
            · simp only [if_neg hm]
              exact inv_use hm h hv
        · rw [Method.run_other hown] at hs
          cases hs

/-- A step that reuses a value is not safe any more. -/
theorem notReused_of_safe {a : ThreadAction T V P} (h : s.Inv) (hs : s.step a = some s') (hsafe : s'.Safe) :
    s.NotReused a := by
  cases a with
  | start t self =>
    simp only [step, Option.ite_none_right_eq_some, Option.some.injEq] at hs
    obtain ⟨⟨hnew, _⟩, rfl⟩ := hs
    intro v o hv hended hreused
    have hthread : o.vm.thread = self := Option.some.inj ((h.self v o hv).symm.trans hreused)
    have hne : t ≠ o.creator := by
      rintro rfl
      rw [hnew] at hreused
      cases hreused
    have htrap := hsafe.elsewhere t self v o List.mem_cons_self (Function.update_self ..) hv hne .reset
    rw [Method.run, JanetVM.reset_own hthread] at htrap
    cases htrap
  | _ => trivial

/-- **The exact condition**: a run is safe in every state exactly when no step gives a thread the value of an ended
thread whose VM is still live. -/
theorem safe_iff_notReused (as : List (ThreadAction T V P)) :
    (threads T V P).Visits Safe initial as ↔ (threads T V P).Makes NotReused initial as :=
  Lib.Machine.visits_iff_makes (m := threads T V P) (I := Inv) (fun _ h => h.safe)
    (fun _ _ _ h hs hok => inv_step h hs hok) (fun _ _ _ h hs hsafe => notReused_of_safe h hs hsafe) as initial
    inv_initial

/-- A thread makes a VM and ends; the next thread gets its `pthread_t` value and evaluates with that VM. -/
theorem not_safe_reused : ¬(threads Nat Nat Nat).Visits Safe initial
    [.start 0 7, .init 0 0, .finish 0, .start 1 7, .call 1 0 (.eval 0 false)] := fun h =>
  (((((h.2 _ rfl).2 _ rfl).2 _ rfl).2 _ rfl).2 _ rfl).calls 1 rfl

end Threads

end SwiftJanet.Runtime
