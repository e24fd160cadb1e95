import SwiftJanet.Runtime.JanetVM

/-!
# `MainJanetRuntime`

The runtime of the main thread, under trees of calls: an evaluation may call back, and a callback may evaluate, define
and reset in turn (`MainCall`).

The guard of `reset` is one Boolean, which every evaluation clears when it ends. `nestedResets` lists the calls of
`reset` that are made inside an evaluation, each with the answer to one question: has another evaluation ended in the
same evaluation before? `resetsOutside_iff`: no VM is reset under an evaluation exactly when the first of them, if
there is one, has the answer no.
-/

namespace SwiftJanet.Runtime

open Lib

variable {T V P : Type}

/-! ## The runtime -/

structure MainJanetRuntime (P : Type) where
  vm : JanetVM P
  isEvaluating : Bool

/-- `MainJanetRuntime.init`. -/
def MainJanetRuntime.init [DecidableEq T] (t : T) (self : P) (v : V) : Effect T V (MainJanetRuntime P) := do
  let vm ← JanetVM.init t self v
  return ⟨vm, false⟩

/-- What the main thread sees; `frames` counts the evaluations in progress, and `resets` has, for each time that the VM
was reset, how many there were then. -/
structure Main (T V P : Type) where
  runtime : MainJanetRuntime P
  process : Process T V
  frames : Nat
  resets : List Nat

/-- The main thread once it has made `JanetRuntime.main`, whatever the process has done before. -/
def Main.made (self : P) (p : Process T V) : Main T V P := ⟨⟨⟨self⟩, false⟩, p, 0, []⟩

abbrev MainStep (T V P α : Type) := Computation (Main T V P) Unit Misuse α

namespace MainJanetRuntime

/-- A method of the VM. -/
def onVM (x : JanetVM P → Effect T V Unit) : MainStep T V P Unit := fun s =>
  let (r, p) := x s.runtime.vm s.process
  (r, { s with process := p })

/-- `isEvaluating = true`, on entry. -/
def enter : MainStep T V P Unit :=
  Computation.modify fun s =>
    { s with runtime := { s.runtime with isEvaluating := true }, frames := s.frames + 1 }

/-- `defer { isEvaluating = false }`, after the rest has returned or thrown. -/
def leaving (x : MainStep T V P Unit) : MainStep T V P Unit :=
  Computation.after x fun s =>
    { s with runtime := { s.runtime with isEvaluating := false }, frames := s.frames - 1 }

variable [DecidableEq P] (t : T) (self : P) (v : V)

/-- `MainJanetRuntime.eval`, where the interpreter runs `callbacks`. -/
def eval (callbacks : MainStep T V P Unit) (copies : Nat) (throws : Bool) : MainStep T V P Unit := do
  enter
  leaving do
    onVM fun vm => vm.beginEval t self v
    callbacks
    onVM fun _ => JanetVM.endEval t v copies throws

/-- `MainJanetRuntime.eval` up to the interpreter. -/
def beginEval : MainStep T V P Unit := do
  enter
  onVM fun vm => vm.beginEval t self v

/-- `MainJanetRuntime.eval` after the interpreter. -/
def endEval (copies : Nat) (throws : Bool) : MainStep T V P Unit :=
  leaving (onVM fun _ => JanetVM.endEval t v copies throws)

/-- `MainJanetRuntime.reset`. -/
def reset : MainStep T V P Unit := do
  Computation.require (fun s => !s.runtime.isEvaluating) .resetDuringEval
  Computation.modify fun s => { s with resets := s.resets ++ [s.frames] }
  onVM fun vm => vm.reset t self v

/-- `MainJanetRuntime.define`. -/
def define (makes : Nat) (throws : Bool) : MainStep T V P Unit := onVM fun vm => vm.define t self v makes throws

end MainJanetRuntime

/-! ## Trees of calls -/

/-- A call on the main thread; a callback makes any number of them. -/
inductive MainCall where
  | eval (callbacks : List (List MainCall)) (copies : Nat) (throws : Bool)
  | define (makes : Nat) (throws : Bool)
  | reset

/-! ## What the methods come to -/

namespace MainJanetRuntime

variable [DecidableEq P] {t : T} {self : P} {v : V} {callbacks : MainStep T V P Unit} {copies : Nat} {throws : Bool}
  {s s' : Main T V P}

/-- The state in which the interpreter starts. -/
def started (t : T) (v : V) (s : Main T V P) : Main T V P :=
  { s with
    runtime := { s.runtime with isEvaluating := true }
    frames := s.frames + 1
    process := s.process.record t v [.janetDostring] }

/-- Up to the interpreter. -/
theorem beginEval_own (h : s.runtime.vm.thread = self) : beginEval t self v s = (.returns (), started t v s) := by
  have henter : (enter : MainStep T V P Unit) s = (.returns (), { s with
      runtime := { s.runtime with isEvaluating := true }, frames := s.frames + 1 }) := rfl
  rw [beginEval, Computation.bind_of_returns henter]
  simp only [onVM, JanetVM.beginEval_own h]
  rfl

theorem eval_apply (h : s.runtime.vm.thread = self) :
    eval t self v callbacks copies throws s =
      leaving (callbacks >>= fun _ => onVM fun _ => JanetVM.endEval t v copies throws) (started t v s) := by
  have henter : (enter : MainStep T V P Unit) s = (.returns (), { s with
      runtime := { s.runtime with isEvaluating := true }, frames := s.frames + 1 }) := rfl
  have hbegin := beginEval_own (t := t) (v := v) h
  rw [beginEval, Computation.bind_of_returns henter] at hbegin
  rw [eval, Computation.bind_of_returns henter, leaving, leaving, Computation.after, Computation.after,
    Computation.bind_of_returns hbegin]

/-- An evaluation is its two halves around the callbacks. -/
theorem eval_eq_halves (h : s.runtime.vm.thread = self) (hc : callbacks (started t v s) = (.returns (), s')) :
    eval t self v callbacks copies throws s = endEval t v copies throws s' := by
  rw [eval_apply h, endEval, leaving, leaving, Computation.after, Computation.after, Computation.bind_of_returns hc]

/-- An evaluation whose callbacks return ends, and clears the guard. -/
theorem eval_of_returns (copies : Nat) (throws : Bool) (h : s.runtime.vm.thread = self)
    (hc : callbacks (started t v s) = (.returns (), s')) :
    ∃ p, eval t self v callbacks copies throws s =
      (if throws then .throws () else .returns (),
        { s' with
          runtime := { s'.runtime with isEvaluating := false }, frames := s'.frames - 1, process := p }) := by
  refine ⟨s'.process.record t v (List.replicate copies .janetAccess), ?_⟩
  rw [eval_eq_halves h hc, endEval, leaving, Computation.after]
  cases throws <;> simp [onVM, JanetVM.endEval_apply]

/-- An evaluation whose callbacks trap stops there. -/
theorem eval_of_traps {m : Misuse} (h : s.runtime.vm.thread = self)
    (hc : callbacks (started t v s) = (.traps m, s')) : eval t self v callbacks copies throws s = (.traps m, s') := by
  rw [eval_apply h, leaving, Computation.after, Computation.bind_of_traps hc]

omit [DecidableEq P] in
/-- Clearing the guard records no reset. -/
theorem leaving_resets (x : MainStep T V P Unit) (s : Main T V P) : (leaving x s).2.resets = (x s).2.resets := by
  refine Computation.after_state (g := Main.resets) ?_ s
  intro s
  rfl

omit [DecidableEq P] in
/-- What follows on a method of the VM keeps what it has recorded. -/
theorem prefix_bind {x : MainStep T V P Unit} {y : Unit → MainStep T V P Unit}
    (hy : ∀ s, s.resets <+: (y () s).2.resets) (s : Main T V P) : (x s).2.resets <+: ((x >>= y) s).2.resets :=
  Computation.bind_state (R := fun s s' => s.resets <+: s'.resets) (fun _ => List.prefix_rfl) (fun _ => hy) s

/-- An evaluation records what its callbacks record. -/
theorem eval_resets (hcallbacks : ∀ s, s.resets <+: (callbacks s).2.resets) (s : Main T V P) :
    s.resets <+: (eval t self v callbacks copies throws s).2.resets ∧
      (s.runtime.vm.thread = self →
        (callbacks (started t v s)).2.resets <+: (eval t self v callbacks copies throws s).2.resets) := by
  have hend : ∀ s, (callbacks s).2.resets <+:
      ((callbacks >>= fun _ => onVM fun _ => JanetVM.endEval t v copies throws) s).2.resets :=
    prefix_bind fun _ => List.prefix_rfl
  refine ⟨?_, fun h => ?_⟩
  · refine (prefix_bind (x := enter) (fun s => ?_) s)
    rw [leaving_resets]
    exact prefix_bind (x := onVM _) (fun s => (hcallbacks s).trans (hend s)) s
  · rw [eval_apply h, leaving_resets]
    exact hend _

end MainJanetRuntime

namespace MainCall

def isEval : MainCall → Bool
  | eval _ _ _ => true
  | _ => false

section Run

variable [DecidableEq P] (t : T) (self : P) (v : V)

mutual

/-- Make the call; whoever made it goes on after an error. -/
def run : MainCall → MainStep T V P Unit
  | eval callbacks copies throws => (MainJanetRuntime.eval t self v (runCallbacks callbacks) copies throws).attempt
  | define makes throws => (MainJanetRuntime.define t self v makes throws).attempt
  | reset => MainJanetRuntime.reset t self v

/-- The calls of one callback, or of the main thread outside evaluations. -/
def runCalls : List MainCall → MainStep T V P Unit
  | [] => pure ()
  | call :: calls => do
    call.run
    runCalls calls

/-- The callbacks of one evaluation. -/
def runCallbacks : List (List MainCall) → MainStep T V P Unit
  | [] => pure ()
  | callback :: callbacks => do
    runCalls callback
    runCallbacks callbacks

end

end Run

/-- An evaluation ends among these calls, or had ended before them. -/
def endsEval (ended : Bool) (calls : List MainCall) : Bool := ended || calls.any isEval

mutual

/-- The resets inside evaluations, in the order in which they are made: has an evaluation ended in the evaluation that
they are made in? -/
def nestedResets (inEval ended : Bool) : MainCall → List Bool
  | eval callbacks _ _ => nestedResetsOfCallbacks false callbacks
  | define _ _ => []
  | reset => if inEval then [ended] else []

def nestedResetsOfCalls (inEval ended : Bool) : List MainCall → List Bool
  | [] => []
  | call :: calls => call.nestedResets inEval ended ++ nestedResetsOfCalls inEval (ended || call.isEval) calls

def nestedResetsOfCallbacks (ended : Bool) : List (List MainCall) → List Bool
  | [] => []
  | callback :: callbacks =>
    nestedResetsOfCalls true ended callback ++ nestedResetsOfCallbacks (endsEval ended callback) callbacks

end

/-! ## The guard

`Tracks`: the guard says that no evaluation has ended in the evaluation in progress. -/

/-- Every reset so far was made outside evaluations. -/
def ResetsOutside (s : Main T V P) : Prop := ∀ n ∈ s.resets, n = 0

structure Tracks (me : P) (inEval ended : Bool) (s : Main T V P) : Prop where
  thread : s.runtime.vm.thread = me
  frames : s.frames = 0 ↔ inEval = false
  flag : s.runtime.isEvaluating = (inEval && !ended)

/-- What a computation comes to, by the first of the nested resets that it makes. -/
structure Follows (me : P) (inEval ended ended' : Bool) (resets : List Bool) (x : MainStep T V P Unit) : Prop where
  /-- what has been recorded stays -/
  records : ∀ s, s.resets <+: (x s).2.resets
  /-- with no nested reset it ends -/
  ends : resets.head? = none → ∀ s, Tracks me inEval ended s →
    ∃ s', x s = (.returns (), s') ∧ Tracks me inEval ended' s' ∧ s'.frames = s.frames ∧
      (ResetsOutside s → ResetsOutside s')
  /-- the guard stops the first one -/
  stops : resets.head? = some false → ∀ s, Tracks me inEval ended s →
    (x s).1 = .traps .resetDuringEval ∧ (ResetsOutside s → ResetsOutside (x s).2)
  /-- the guard has forgotten the evaluation -/
  fails : resets.head? = some true → ∀ s, Tracks me inEval ended s → ¬ResetsOutside (x s).2

section Guard

variable {me : P} {inEval ended ended' ended'' : Bool} {rs rs' : List Bool} {x y : MainStep T V P Unit}

/-- Nothing happens. -/
theorem follows_pure : Follows me inEval ended ended [] (pure () : MainStep T V P Unit) where
  records _ := List.prefix_rfl
  ends _ s hs := ⟨s, rfl, hs, rfl, id⟩
  stops h := by cases h
  fails h := by cases h

/-- One after the other. -/
theorem follows_bind (hx : Follows me inEval ended ended' rs x) (hy : Follows me inEval ended' ended'' rs' y) :
    Follows me inEval ended ended'' (rs ++ rs') (x >>= fun _ => y) := by
  have hrecords : ∀ s, (x s).2.resets <+: ((x >>= fun _ => y) s).2.resets := by
    intro s
    show (x s).2.resets <+: (Lib.Computation.bind x (fun _ => y) s).2.resets
    rcases hr : x s with ⟨_ | _ | _ | _, s'⟩ <;> simp only [Lib.Computation.bind, hr]
    · exact hy.records s'
    all_goals exact List.prefix_rfl
  have hhead : (rs ++ rs').head? = rs.head?.or rs'.head? := List.head?_append
  cases hfirst : rs.head? with
  | none =>
    rw [hfirst, Option.none_or] at hhead
    refine ⟨fun s => (hx.records s).trans (hrecords s), fun h s hs => ?_, fun h s hs => ?_, fun h s hs => ?_⟩
    all_goals obtain ⟨s', hx', htracks, hframes, hout⟩ := hx.ends hfirst s hs
    · obtain ⟨s'', hy', htracks', hframes', hout'⟩ := hy.ends (hhead ▸ h) s' htracks
      exact ⟨s'', (Computation.bind_of_returns hx').trans hy', htracks', hframes'.trans hframes, hout' ∘ hout⟩
    · rw [Computation.bind_of_returns hx']
      obtain ⟨htraps, hout'⟩ := hy.stops (hhead ▸ h) s' htracks
      exact ⟨htraps, hout' ∘ hout⟩
    · rw [Computation.bind_of_returns hx']
      exact hy.fails (hhead ▸ h) s' htracks
  | some b =>
    rw [hfirst, Option.some_or] at hhead
    refine ⟨fun s => (hx.records s).trans (hrecords s), fun h => ?_, fun h s hs => ?_, fun h s hs => ?_⟩
    · rw [hhead] at h
      cases h
    · obtain ⟨htraps, hout⟩ := hx.stops (hfirst.trans (hhead ▸ h)) s hs
      rw [Computation.bind_of_traps (Prod.ext htraps rfl)]
      exact ⟨rfl, hout⟩
    · intro hout
      exact hx.fails (hfirst.trans (hhead ▸ h)) s hs fun n hn => hout n ((hrecords s).subset hn)

/-! ## The calls -/

variable [DecidableEq P] {t : T} {v : V}

theorem follows_define (makes : Nat) (throws : Bool) :
    Follows me inEval ended ended [] (run t me v (.define makes throws)) where
  records s := by
    rw [run, Computation.attempt_state]
    exact List.prefix_rfl
  ends _ s hs := by
    let calls : List JanetCall := List.replicate makes .janetAccess ++ if throws then [] else [.janetDef]
    refine ⟨{ s with process := s.process.record t v calls }, ?_, ⟨hs.thread, hs.frames, hs.flag⟩, rfl, id⟩
    rw [run, Computation.attempt, MainJanetRuntime.define, MainJanetRuntime.onVM, JanetVM.define_own hs.thread]
    cases throws <;> rfl
  stops h := by cases h
  fails h := by cases h

/-- A reset that the guard lets pass. -/
theorem reset_of_false {s : Main T V P} (h : s.runtime.vm.thread = me) (hflag : s.runtime.isEvaluating = false) :
    MainJanetRuntime.reset t me v s =
      (.returns (), { s with
        resets := s.resets ++ [s.frames]
        process := s.process.record t v [.janetDeinit, .janetInit, .janetCoreEnv] }) := by
  have hp := JanetVM.reset_own (t := t) (v := v) h s.process
  have hrequire : (Computation.require (fun s : Main T V P => !s.runtime.isEvaluating) Misuse.resetDuringEval :
      MainStep T V P Unit) s = (.returns (), s) := by
    simp [Computation.require, hflag]
  rw [MainJanetRuntime.reset, Computation.bind_of_returns hrequire]
  have hmodify : (Computation.modify fun s : Main T V P => { s with resets := s.resets ++ [s.frames] } :
      MainStep T V P Unit) s = (.returns (), { s with resets := s.resets ++ [s.frames] }) := rfl
  rw [Computation.bind_of_returns hmodify]
  simp only [MainJanetRuntime.onVM, hp]

/-- A reset that the guard stops. -/
theorem reset_of_true {s : Main T V P} (hflag : s.runtime.isEvaluating = true) :
    MainJanetRuntime.reset t me v s = (.traps .resetDuringEval, s) := by
  have hrequire : (Computation.require (fun s : Main T V P => !s.runtime.isEvaluating) Misuse.resetDuringEval :
      MainStep T V P Unit) s = (.traps .resetDuringEval, s) := by
    simp [Computation.require, hflag]
  exact Computation.bind_of_traps hrequire

theorem reset_resets (s : Main T V P) : s.resets <+: (MainJanetRuntime.reset t me v s).2.resets := by
  refine MainJanetRuntime.prefix_bind (x := Computation.require _ _) (fun s => ?_) s
  exact List.prefix_append s.resets [s.frames]

omit [DecidableEq P] in
/-- A reset records how many evaluations are in progress. -/
theorem resetsOutside_append {s : Main T V P} (p : Process T V) :
    ResetsOutside { s with resets := s.resets ++ [s.frames], process := p } ↔ ResetsOutside s ∧ s.frames = 0 := by
  simp only [ResetsOutside, List.mem_append, List.mem_singleton]
  exact ⟨fun h => ⟨fun n hn => h n (Or.inl hn), h _ (Or.inr rfl)⟩, fun h n hn => hn.elim (h.1 n) fun hn => hn ▸ h.2⟩

theorem follows_reset : Follows me inEval ended ended (if inEval then [ended] else []) (run t me v .reset) where
  records := reset_resets
  ends h s hs := by
    cases inEval with
    | true => cases h
    | false =>
      exact ⟨_, reset_of_false hs.thread hs.flag, ⟨hs.thread, hs.frames, hs.flag⟩, rfl, fun hout =>
        (resetsOutside_append _).mpr ⟨hout, hs.frames.mpr rfl⟩⟩
  stops h s hs := by
    cases inEval with
    | true =>
      obtain rfl : ended = false := Option.some.inj h
      rw [run, reset_of_true hs.flag]
      exact ⟨rfl, id⟩
    | false => cases h
  fails h s hs := by
    cases inEval with
    | true =>
      obtain rfl : ended = true := Option.some.inj h
      rw [run, reset_of_false hs.thread hs.flag]
      exact fun hout => (nomatch hs.frames.mp ((resetsOutside_append _).mp hout).2)
    | false => cases h

theorem follows_eval {callbacks : List (List MainCall)} {rs : List Bool} (copies : Nat) (throws : Bool)
    (h : Follows me true false ended' rs (runCallbacks t me v callbacks)) :
    Follows me inEval ended true rs (run t me v (.eval callbacks copies throws)) := by
  have hstarted : ∀ {s : Main T V P}, Tracks me inEval ended s →
      Tracks me true false (MainJanetRuntime.started t v s) := fun hs =>
    ⟨hs.thread, ⟨fun h => (nomatch h), fun h => (nomatch h)⟩, rfl⟩
  refine ⟨fun s => ?_, fun hhead s hs => ?_, fun hhead s hs => ?_, fun hhead s hs hout => ?_⟩
  · rw [run, Computation.attempt_state]
    exact (MainJanetRuntime.eval_resets h.records s).1
  · obtain ⟨s', hs', htracks, hframes, hkeep⟩ := h.ends hhead _ (hstarted hs)
    obtain ⟨p, hp⟩ := MainJanetRuntime.eval_of_returns copies throws hs.thread hs'
    have hback : s'.frames - 1 = s.frames := by rw [hframes]; rfl
    refine ⟨{ s' with
      runtime := { s'.runtime with isEvaluating := false }, frames := s'.frames - 1, process := p }, ?_,
      ⟨htracks.thread, ?_, ?_⟩, hback, hkeep⟩
    · rw [run, Computation.attempt, hp]
      cases throws <;> rfl
    · rw [hback]
      exact hs.frames
    · cases inEval <;> rfl
  · have hstop := h.stops hhead _ (hstarted hs)
    rw [run, Computation.attempt, MainJanetRuntime.eval_of_traps hs.thread (Prod.ext hstop.1 rfl)]
    exact ⟨rfl, hstop.2⟩
  · refine h.fails hhead _ (hstarted hs) fun n hn => hout n ?_
    rw [run, Computation.attempt_state]
    exact ((MainJanetRuntime.eval_resets h.records s).2 hs.thread).subset hn

mutual

/-- **Every call follows its nested resets.** -/
theorem follows_run (inEval ended : Bool) : ∀ call : MainCall,
    Follows me inEval ended (ended || call.isEval) (call.nestedResets inEval ended) (run t me v call)
  | .eval callbacks copies throws => by
    rw [show (ended || isEval (.eval callbacks copies throws)) = true from Bool.or_true _]
    exact follows_eval copies throws (follows_runCallbacks false callbacks)
  | .define makes throws => by
    rw [show (ended || isEval (.define makes throws)) = ended from Bool.or_false _]
    exact follows_define makes throws
  | .reset => by
    rw [show (ended || isEval .reset) = ended from Bool.or_false _]
    exact follows_reset

theorem follows_runCalls (inEval ended : Bool) : ∀ calls : List MainCall,
    Follows me inEval ended (endsEval ended calls) (nestedResetsOfCalls inEval ended calls) (runCalls t me v calls)
  | [] => by
    rw [show endsEval ended [] = ended from Bool.or_false _]
    exact follows_pure
  | call :: calls => by
    rw [show endsEval ended (call :: calls) = endsEval (ended || call.isEval) calls by
      rw [endsEval, endsEval, List.any_cons, Bool.or_assoc]]
    exact follows_bind (follows_run inEval ended call) (follows_runCalls inEval (ended || call.isEval) calls)

theorem follows_runCallbacks (ended : Bool) : ∀ callbacks : List (List MainCall),
    Follows me true ended (endsEval ended callbacks.flatten) (nestedResetsOfCallbacks ended callbacks)
      (runCallbacks t me v callbacks)
  | [] => by
    rw [show endsEval ended [].flatten = ended from Bool.or_false _]
    exact follows_pure
  | callback :: callbacks => by
    rw [show endsEval ended (callback :: callbacks).flatten = endsEval (endsEval ended callback) callbacks.flatten by
      rw [endsEval, endsEval, endsEval, List.flatten_cons, List.any_append, Bool.or_assoc]]
    exact follows_bind (follows_runCalls true ended callback) (follows_runCallbacks (endsEval ended callback) callbacks)

end

end Guard

/-! ## Resets under evaluations -/

variable [DecidableEq P] (t : T) (self : P) (v : V)

/-- **Where the guard holds**: in a session of the main thread no VM is reset under an evaluation exactly when no
evaluation has ended before the first nested reset, in the evaluation that it is made in. -/
theorem resetsOutside_iff (p : Process T V) (calls : List MainCall) :
    ResetsOutside (runCalls t self v calls (Main.made self p)).2 ↔
      (nestedResetsOfCalls false false calls).head? ≠ some true := by
  have hmade : Tracks self false false (Main.made self p : Main T V P) := ⟨rfl, ⟨fun _ => rfl, fun _ => rfl⟩, rfl⟩
  have hnone : ResetsOutside (Main.made self p : Main T V P) := fun _ hn => (nomatch hn)
  have hfollows : Follows self false false _ _ (runCalls t self v calls) := follows_runCalls false false calls
  cases hhead : (nestedResetsOfCalls false false calls).head? with
  | none =>
    obtain ⟨s', hs', _, _, hkeep⟩ := hfollows.ends hhead _ hmade
    rw [hs']
    exact ⟨fun _ h => (nomatch h), fun _ => hkeep hnone⟩
  | some b =>
    cases b with
    | false => exact ⟨fun _ h => (nomatch h), fun _ => (hfollows.stops hhead _ hmade).2 hnone⟩
    | true => exact ⟨fun h => absurd h (hfollows.fails hhead _ hmade), fun h => absurd rfl h⟩

/-- An evaluation whose callback evaluates and then resets: the VM is reset under the evaluation. -/
theorem not_resetsOutside_nested : ¬ResetsOutside
    (runCalls () () () [.eval [[.eval [] 0 false, .reset]] 0 false]
      (Main.made () (Process.initial : Process Unit Unit))).2 := by
  intro h
  exact absurd (h 1 (by decide)) (by decide)

end MainCall

end SwiftJanet.Runtime
