import SwiftJanet.Copy.Trap
import SwiftJanet.Copy.Rejection
import SwiftJanet.Eval.Dobytes

/-!
# What `eval` reports

A source is a sequence of forms (`JanetParser.forms`), and the loop stops at the first one that fails at once
(`stopsAt`). `eval_reports_iff`: what `eval` returns or throws tells the fate of all forms, exactly when no failure goes
unheard (`Unheard`): an error that a fiber raises after it was suspended leaves no flag.
-/

namespace SwiftJanet.Eval

open Lib

/-! ## Fates -/

/-- What has become of a fiber, with the value it handed out last. -/
inductive Fate where
  | finished (value : Janet)
  | raised (value : Janet)
  | suspended (value : Janet)
deriving DecidableEq

def Fate.value : Fate → Janet
  | finished v | raised v | suspended v => v

def JanetFiber.now : JanetFiber → Fate
  | ok v => .finished v
  | error e => .raised e.value
  | event v _ => .suspended v

/-- What becomes of a fiber in the end. -/
def Run.fate : Run → Fate
  | finishes _ v => .finished v
  | raises _ e => .raised e.value
  | suspends _ _ rest => rest.fate

def JanetFiber.fate : JanetFiber → Fate
  | event _ rest => rest.fate
  | fiber => fiber.now

/-- The fiber after its first stretch. -/
def Run.started : Run → JanetFiber
  | finishes _ v => .ok v
  | raises _ e => .error e
  | suspends _ v rest => .event v rest

theorem janetContinue_fst (run : Run) (heap : Heap) : (janetContinue run heap).1 = run.started := by
  cases run <;> rfl

theorem fate_started (run : Run) : run.started.fate = run.fate := by cases run <;> rfl

theorem value_now (fiber : JanetFiber) : fiber.now.value = fiber.lastValue := by cases fiber <;> rfl

/-! ## The event loop -/

section Loop

variable {fibers : List JanetFiber} {heap : Heap} {n : Nat}

@[simp] theorem waiting_nil : waiting [] = 0 := rfl

@[simp] theorem waiting_event {v : Janet} {rest : Run} : waiting (.event v rest :: fibers) = waiting fibers + 1 :=
  List.countP_cons_of_pos rfl

@[simp] theorem waiting_ok {v : Janet} : waiting (.ok v :: fibers) = waiting fibers :=
  List.countP_cons_of_neg (by simp [JanetFiber.waits])

@[simp] theorem waiting_error {e : Thrown} : waiting (.error e :: fibers) = waiting fibers :=
  List.countP_cons_of_neg (by simp [JanetFiber.waits])

theorem length_pos (run : Run) : 0 < run.length := by cases run <;> simp [Run.length]

theorem left_started (run : Run) : run.started.left + 1 = run.length := by cases run <;> rfl

/-- Continuing a fiber does not change what becomes of it. -/
theorem fates_resumeNth : ∀ (n : Nat) (fibers : List JanetFiber) (heap : Heap),
    (resumeNth n fibers heap).1.map JanetFiber.fate = fibers.map JanetFiber.fate
  | _, [], _ => rfl
  | 0, .event v rest :: fibers, heap => by
    simp only [resumeNth, janetContinue_fst, List.map_cons, fate_started]
    rfl
  | n + 1, .event v rest :: fibers, heap => by
    simp only [resumeNth, List.map_cons, fates_resumeNth n fibers heap]
  | n, .ok v :: fibers, heap => by simp only [resumeNth, List.map_cons, fates_resumeNth n fibers heap]
  | n, .error e :: fibers, heap => by simp only [resumeNth, List.map_cons, fates_resumeNth n fibers heap]

/-- Continuing a fiber uses up one stretch. -/
theorem left_resumeNth : ∀ {n : Nat} {fibers : List JanetFiber} (heap : Heap), n < waiting fibers →
    ((resumeNth n fibers heap).1.map JanetFiber.left).sum + 1 = (fibers.map JanetFiber.left).sum
  | n, [], _, h => by simp at h
  | 0, .event v rest :: fibers, heap, _ => by
    have hrest := left_started rest
    have hevent : (JanetFiber.event v rest).left = rest.length := rfl
    simp only [resumeNth, janetContinue_fst, List.map_cons, List.sum_cons, hevent]
    omega
  | n + 1, .event v rest :: fibers, heap, h => by
    have ih := left_resumeNth heap (show n < waiting fibers by simpa using h)
    simp only [resumeNth, List.map_cons, List.sum_cons]
    omega
  | n, .ok v :: fibers, heap, h => by
    have ih := left_resumeNth heap (show n < waiting fibers by simpa using h)
    simp only [resumeNth, List.map_cons, List.sum_cons]
    omega
  | n, .error e :: fibers, heap, h => by
    have ih := left_resumeNth heap (show n < waiting fibers by simpa using h)
    simp only [resumeNth, List.map_cons, List.sum_cons]
    omega

/-- A waiting fiber has a stretch left. -/
theorem waiting_le_left : ∀ fibers : List JanetFiber, waiting fibers ≤ (fibers.map JanetFiber.left).sum
  | [] => Nat.le_refl 0
  | .event v rest :: fibers => by
    have ih := waiting_le_left fibers
    have hpos := length_pos rest
    simp only [waiting_event, List.map_cons, List.sum_cons, JanetFiber.left]
    omega
  | .ok v :: fibers => by
    have ih := waiting_le_left fibers
    simp only [waiting_ok, List.map_cons, List.sum_cons]
    omega
  | .error e :: fibers => by
    have ih := waiting_le_left fibers
    simp only [waiting_error, List.map_cons, List.sum_cons]
    omega

variable (pick : Heap → List JanetFiber → Nat)

theorem fates_janetLoopFor : ∀ (n : Nat) (fibers : List JanetFiber) (heap : Heap),
    (janetLoopFor pick n fibers heap).1.map JanetFiber.fate = fibers.map JanetFiber.fate
  | 0, _, _ => rfl
  | n + 1, fibers, heap => by
    rw [janetLoopFor]
    split
    · rfl
    · simp only [fates_janetLoopFor n, janetLoop1, fates_resumeNth]

/-- With a turn for every stretch, no fiber waits in the end. -/
theorem waiting_janetLoopFor : ∀ {n : Nat} {fibers : List JanetFiber} {heap : Heap},
    (fibers.map JanetFiber.left).sum ≤ n → waiting (janetLoopFor pick n fibers heap).1 = 0
  | 0, fibers, _, h => by
    have := waiting_le_left fibers
    show waiting fibers = 0
    omega
  | n + 1, fibers, heap, h => by
    rw [janetLoopFor]
    split
    · next h0 => exact h0
    · next h0 =>
      have hlt : pick heap fibers % waiting fibers < waiting fibers := Nat.mod_lt _ (Nat.pos_of_ne_zero h0)
      have hleft := left_resumeNth heap hlt
      apply waiting_janetLoopFor
      show ((resumeNth _ fibers heap).1.map JanetFiber.left).sum ≤ n
      omega

/-- A fiber that does not wait has come to its fate. -/
theorem now_of_not_waiting (h : waiting fibers = 0) : fibers.map JanetFiber.now = fibers.map JanetFiber.fate := by
  refine List.map_congr_left fun fiber hf => ?_
  have hw : fiber.waits = false := by
    have := List.countP_eq_zero.mp h fiber hf
    simpa using this
  cases fiber with
  | event v rest => cases hw
  | ok v => rfl
  | error e => rfl

/-- **The event loop brings every fiber to its fate.** -/
theorem now_janetLoop (fibers : List JanetFiber) (heap : Heap) :
    (janetLoop pick fibers heap).1.map JanetFiber.now = fibers.map JanetFiber.fate := by
  rw [janetLoop, now_of_not_waiting (waiting_janetLoopFor pick (Nat.le_refl _)), fates_janetLoopFor]

end Loop

/-! ## Sources as sequences of forms -/

/-- The forms of a source, from a state of the parser and the value it has completed; and whether the parser stops at
an error behind them. -/
def JanetParser.forms {Q : Type} (parser : JanetParser Q) : List UInt8 → Q → Option Form → List Form × Bool
  | [], q, form =>
    if (parser.error q).isSome then (form.toList, true)
    else
      let (q, last) := parser.eof q
      (form.toList ++ last.toList, (parser.error q).isSome)
  | byte :: bytes, q, form =>
    if (parser.error q).isSome then (form.toList, true)
    else
      let (q, next) := parser.consume q byte
      let (forms, failed) := parser.forms bytes q next
      (form.toList ++ forms, failed)

/-- The fiber raises an error before it is suspended. -/
def Run.raisesAtOnce : Run → Bool
  | raises _ _ => true
  | _ => false

/-- The phase of the first failure that stops the loop. -/
def stopsAt : List Form → Bool → Option Phase
  | [], failed => if failed then some .parse else none
  | .fails _ _ _ _ :: _, _ => some .compile
  | .starts run :: forms, failed => if run.raisesAtOnce then some .runtime else stopsAt forms failed

/-- The fibers that forms start. -/
def runs : List Form → List Run
  | [] => []
  | .fails _ _ _ _ :: forms => runs forms
  | .starts run :: forms => run :: runs forms

/-- What has become of a fiber when `eval` returns: only an `eval` that drives the event loop brings it to its end. -/
def Run.fateIn (drives : Bool) (run : Run) : Fate := if drives then run.fate else run.started.now

/-- Some fiber has raised an error, or the last one has not finished. -/
def failed (fates : List Fate) : Prop :=
  (∃ v, Fate.raised v ∈ fates) ∨ ∃ fate ∈ fates.getLast?, ∀ v, fate ≠ .finished v

/-- The result of the last fiber; nil without one. -/
def lastValue (fates : List Fate) : Janet := (fates.getLast?.map Fate.value).getD janetWrapNil

open Classical in
/-- `outcome` tells what became of the forms: the failure that stopped the loop, a runtime error if some fiber failed
otherwise, and else the copy of the last fiber's result. -/
def Reports [CanonicalForm] (drives : Bool) (forms : List Form) (parseFails : Bool) (heap : Heap)
    (outcome : Result JanetValue) : Prop :=
  match stopsAt forms parseFails with
  | some phase => ∃ message, outcome = .throws ⟨phase, message⟩
  | none =>
    if failed ((runs forms).map (Run.fateIn drives)) then ∃ message, outcome = .throws ⟨.runtime, message⟩
    else outcome = copyOut heap (lastValue ((runs forms).map (Run.fateIn drives))) ∧
      ((∃ value, outcome = .returns value) ∨ ∃ message, outcome = .throws ⟨.copy, message⟩)

/-- The heap after the first stretches of some fibers. -/
def heapAfter (runs : List Run) (heap : Heap) : Heap := runs.foldl (fun heap run => (janetContinue run heap).2) heap

/-- The heap that the fibers of forms leave behind, when nothing stops the loop. -/
def heapLeft (pick : Heap → List JanetFiber → Nat) (drives : Bool) (forms : List Form) (heap : Heap) : Heap :=
  if drives then (janetLoop pick ((runs forms).map Run.started) (heapAfter (runs forms) heap)).2
  else heapAfter (runs forms) heap

/-- Nothing has failed, and what is to be copied leads to a `NULL` pointer first: to an array without a block, in heaps
that are sound (`exposed_iff`). -/
def MeetsNull [CanonicalForm] (drives : Bool) (forms : List Form) (parseFails : Bool) (heap : Heap) : Prop :=
  stopsAt forms parseFails = none ∧ ¬failed ((runs forms).map (Run.fateIn drives)) ∧
    Exposed copyRules heap.view .empty (lastValue ((runs forms).map (Run.fateIn drives)))

/-- The fiber raises an error after it was suspended. -/
def Run.raisesLater : Run → Prop
  | suspends _ _ rest => ∃ v, rest.fate = .raised v
  | _ => False

def Run.isSuspended : Run → Prop
  | suspends _ _ _ => True
  | _ => False

/-- A failure that leaves no flag: nothing stops the loop, and a fiber raises an error after it was suspended, or `eval`
does not drive the event loop and the last fiber is left suspended. -/
def Unheard (drives : Bool) (forms : List Form) (parseFails : Bool) : Prop :=
  stopsAt forms parseFails = none ∧
    if drives then ∃ run ∈ runs forms, run.raisesLater else ∃ run ∈ (runs forms).getLast?, run.isSuspended

/-! ## The loop over the bytes -/

section Bytes

variable {Q : Type} (parser : JanetParser Q) (sourcePath : List UInt8) {heap₀ : Heap} {st : Dobytes} {rs : List Run}

theorem stopsAt_append : ∀ (fs gs : List Form) (b : Bool),
    stopsAt (fs ++ gs) b = (stopsAt fs false).or (stopsAt gs b)
  | [], gs, b => rfl
  | .fails _ _ _ _ :: fs, gs, b => rfl
  | .starts run :: fs, gs, b => by
    rw [List.cons_append, stopsAt, stopsAt]
    split
    · rfl
    · exact stopsAt_append fs gs b

theorem runs_append : ∀ fs gs : List Form, runs (fs ++ gs) = runs fs ++ runs gs
  | [], _ => rfl
  | .fails _ _ _ _ :: fs, gs => runs_append fs gs
  | .starts run :: fs, gs => congrArg (run :: ·) (runs_append fs gs)

/-- Nothing has failed so far: the fibers are those of `rs` after their first stretch, and the heap is as they left it. -/
structure Going (heap₀ : Heap) (st : Dobytes) (rs : List Run) : Prop where
  heap : st.heap = heapAfter rs heap₀
  flags : st.errflags = 0#32
  fibers : st.fibers = rs.map Run.started
  ret : st.ret = (st.fibers.getLast?.map JanetFiber.lastValue).getD janetWrapNil

/-- The loop has stopped at a failure, with an error that can be read. -/
structure Stopped (st : Dobytes) (phase : Phase) : Prop where
  flags : st.errflags ≠ 0#32
  phase : phaseOfFlags st.errflags = phase
  there : janetChecktype st.ret .string = true → (janetUnwrapString st.ret).isSome

/-- Where the loop is. -/
def At (heap₀ : Heap) (st : Dobytes) (rs : List Run) : Option Phase → Prop
  | some phase => st.done = true ∧ Stopped st phase
  | none => st.done = false ∧ Going heap₀ st rs

theorem stopped_fail {flag : BitVec 32} {errstr : List UInt8} (h : st.errflags = 0#32) (hflag : flag ≠ 0#32) :
    Stopped (st.fail flag errstr) (phaseOfFlags flag) := by
  have hflags : (st.fail flag errstr).errflags = flag := by
    rw [Dobytes.fail, h]
    exact BitVec.zero_or
  refine ⟨by rw [hflags]; exact hflag, by rw [hflags], fun _ => ?_⟩
  show (pointer st.heap.strings.next).isSome
  rw [pointer_pos st.heap.strings.pos]
  rfl

/-- One form. -/
theorem at_evaluate (line column : Int) (h : Going heap₀ st rs) (hd : st.done = false) (form : Form) :
    At heap₀ (st.evaluate sourcePath line column form) (rs ++ runs [form]) (stopsAt [form] false) := by
  cases form with
  | fails effect error errorLine errorColumn =>
    exact ⟨rfl, @stopped_fail { st with heap := effect st.heap } _ _ h.flags (by decide)⟩
  | starts run =>
    have hgoing : ∀ v, run.started.lastValue = v → Going heap₀ { st with
        heap := (janetContinue run st.heap).2, fibers := st.fibers ++ [run.started], ret := v } (rs ++ [run]) := by
      rintro v rfl
      refine ⟨?_, h.flags, ?_, ?_⟩
      · rw [h.heap, heapAfter, heapAfter, List.foldl_append]
        rfl
      · simp [h.fibers]
      · simp
    rw [Dobytes.evaluate]
    simp only [janetContinue_fst]
    cases run with
    | finishes effect v => exact ⟨hd, hgoing v rfl⟩
    | suspends effect v rest => exact ⟨hd, hgoing v rfl⟩
    | raises effect e =>
      refine ⟨rfl, ?_, ?_, e.there⟩
      · show st.errflags ||| janetDoErrorRuntime ≠ 0#32
        rw [h.flags]; decide
      · show phaseOfFlags (st.errflags ||| janetDoErrorRuntime) = .runtime
        rw [h.flags]; decide

/-- The parser's status after a form. -/
theorem at_status (q : Q) (h : Going heap₀ st rs) (hd : st.done = false) :
    At heap₀ (match parser.error q with
      | some error => st.fail janetDoErrorParse
          (errorBytes sourcePath (parser.line q) (parser.column q) "parse error".toList error)
      | none => st) rs (stopsAt [] (parser.error q).isSome) := by
  cases parser.error q with
  | some error => exact ⟨rfl, stopped_fail h.flags (by decide)⟩
  | none => exact ⟨hd, h⟩

/-- One turn of the loop. -/
theorem at_turn (q : Q) (h : Going heap₀ st rs) (hd : st.done = false) (form : Option Form) :
    At heap₀ (st.turn parser sourcePath q form) (rs ++ runs form.toList) (stopsAt form.toList (parser.error q).isSome) := by
  cases form with
  | none =>
    rw [Dobytes.turn, show rs ++ runs (Option.toList none) = rs from List.append_nil rs]
    simp only [hd]
    exact at_status parser sourcePath q h hd
  | some form =>
    have hform := at_evaluate sourcePath (parser.line q) (parser.column q) h hd form
    have happend : stopsAt [form] (parser.error q).isSome = (stopsAt [form] false).or (stopsAt [] (parser.error q).isSome) :=
      stopsAt_append [form] [] _
    rw [Dobytes.turn, Option.toList_some, happend]
    cases hs : stopsAt [form] false with
    | some phase =>
      rw [hs] at hform
      simp only [hform.1, if_true]
      exact hform
    | none =>
      rw [hs] at hform
      simp only [hform.1]
      exact at_status parser sourcePath q hform.2 hform.1

/-- The loop has come to the end of the forms, or to the failure that stops it. -/
def Came (heap₀ : Heap) (st : Dobytes) (rs : List Run) (forms : List Form × Bool) : Prop :=
  match stopsAt forms.1 forms.2 with
  | some phase => Stopped st phase
  | none => Going heap₀ st (rs ++ runs forms.1)

/-- One turn, and then whatever comes to the end of the forms that are left. -/
theorem came_turn (q : Q) (form : Option Form) (go : Dobytes → Dobytes) (forms : List Form × Bool) (h : Going heap₀ st rs)
    (hd : st.done = false) (hgo : ∀ {st rs}, Going heap₀ st rs → st.done = false → Came heap₀ (go st) rs forms) :
    Came heap₀ (let st := st.turn parser sourcePath q form; if st.done then st else go st) rs
      (if (parser.error q).isSome then (form.toList, true) else (form.toList ++ forms.1, forms.2)) := by
  have hturn := at_turn parser sourcePath q h hd form
  rw [Came]
  cases he : (parser.error q).isSome with
  | true =>
    rw [he] at hturn
    -- an error of the parser stops the loop, if the value before it has not
    obtain ⟨phase, hphase⟩ : ∃ phase, stopsAt form.toList true = some phase := by
      rw [← List.append_nil form.toList, stopsAt_append]
      cases stopsAt form.toList false with
      | some phase => exact ⟨phase, rfl⟩
      | none => exact ⟨.parse, rfl⟩
    rw [hphase] at hturn
    simp only [if_true, hphase, hturn.1]
    exact hturn.2
  | false =>
    rw [he] at hturn
    simp only [Bool.false_eq_true, if_false, stopsAt_append]
    cases hs : stopsAt form.toList false with
    | some phase =>
      rw [hs] at hturn
      simp only [Option.some_or, hturn.1, if_true]
      exact hturn.2
    | none =>
      rw [hs] at hturn
      simp only [Option.none_or, hturn.1, Bool.false_eq_true, if_false, runs_append, ← List.append_assoc]
      exact hgo hturn.2 hturn.1

/-- **The loop over the bytes evaluates the forms up to the first failure.** -/
theorem came_loop : ∀ (bytes : List UInt8) (q : Q) (form : Option Form) {st : Dobytes} {rs : List Run}, Going heap₀ st rs →
    st.done = false → Came heap₀ (Dobytes.loop parser sourcePath bytes q form st) rs (parser.forms bytes q form)
  | [], q, form, st, rs, h, hd => by
    refine came_turn parser sourcePath q form
      (fun st => { st.turn parser sourcePath (parser.eof q).1 (parser.eof q).2 with done := true })
      ((parser.eof q).2.toList, (parser.error (parser.eof q).1).isSome) h hd ?_
    intro st rs h hd
    have hlast := at_turn parser sourcePath (parser.eof q).1 h hd (parser.eof q).2
    rw [Came]
    cases hs : stopsAt (parser.eof q).2.toList (parser.error (parser.eof q).1).isSome with
    | some phase =>
      rw [hs] at hlast
      exact ⟨hlast.2.flags, hlast.2.phase, hlast.2.there⟩
    | none =>
      rw [hs] at hlast
      exact ⟨hlast.2.heap, hlast.2.flags, hlast.2.fibers, hlast.2.ret⟩
  | byte :: bytes, q, form, st, rs, h, hd => by
    refine came_turn parser sourcePath q form (Dobytes.loop parser sourcePath bytes _ _)
      (parser.forms bytes (parser.consume q byte).1 (parser.consume q byte).2) h hd ?_
    intro st rs h hd
    exact came_loop bytes _ _ h hd

end Bytes

/-! ## `janet_dobytes` -/

section Dobytes

variable {Q : Type} (parser : JanetParser Q) (pick : Heap → List JanetFiber → Nat)

theorem getLast?_now {fibers : List JanetFiber} {fates : List Fate} (h : fibers.map JanetFiber.now = fates) :
    (fibers.getLast?.map JanetFiber.lastValue).getD janetWrapNil = lastValue fates := by
  subst h
  rw [lastValue, List.getLast?_map, Option.map_map]
  congr 1
  cases fibers.getLast? with
  | none => rfl
  | some fiber => exact congrArg some (value_now fiber).symm

/-- The flags say what stopped the loop; without flags the value is that of the last fiber, when `eval` returns. -/
theorem dobytes_spec (stackn : Nat) (bytes sourcePath : List UInt8) (heap : Heap) :
    let result := janetDobytes parser pick stackn bytes sourcePath heap
    let forms := parser.forms bytes parser.init none
    match stopsAt forms.1 forms.2 with
    | some phase => result.1 ≠ 0#32 ∧ phaseOfFlags result.1 = phase ∧
        (janetChecktype result.2.1 .string = true → (janetUnwrapString result.2.1).isSome)
    | none => result.1 = 0#32 ∧ result.2.1 = lastValue ((runs forms.1).map (Run.fateIn (stackn == 0))) ∧
        result.2.2 = heapLeft pick (stackn == 0) forms.1 heap := by
  intro result forms
  have hcame : Came heap (Dobytes.loop parser sourcePath bytes parser.init none ⟨heap, [], 0#32, false, janetWrapNil⟩) []
      forms := came_loop parser sourcePath bytes parser.init none ⟨rfl, rfl, rfl, rfl⟩ rfl
  have hresult : result = janetDobytes parser pick stackn bytes sourcePath heap := rfl
  rw [janetDobytes] at hresult
  generalize Dobytes.loop parser sourcePath bytes parser.init none ⟨heap, [], 0#32, false, janetWrapNil⟩ = st at *
  rw [Came] at hcame
  cases hs : stopsAt forms.1 forms.2 with
  | some phase =>
    rw [hs] at hcame
    have hfields : result.1 = st.errflags ∧ result.2.1 = st.ret := by
      rw [hresult]
      split
      · simp only [hcame.flags, if_false]
        split
        · exact ⟨rfl, rfl⟩
        · exact ⟨rfl, rfl⟩
      · exact ⟨rfl, rfl⟩
    rw [hfields.1, hfields.2]
    exact ⟨hcame.flags, hcame.phase, hcame.there⟩
  | none =>
    rw [hs, List.nil_append] at hcame
    by_cases hn : stackn = 0
    · have hnow : ((janetLoop pick st.fibers st.heap).1).map JanetFiber.now = (runs forms.1).map (Run.fateIn (stackn == 0)) := by
        rw [now_janetLoop, hcame.fibers, List.map_map, hn]
        exact List.map_congr_left fun run _ => fate_started run
      have hheap : heapLeft pick (stackn == 0) forms.1 heap = (janetLoop pick st.fibers st.heap).2 := by
        rw [heapLeft, if_pos (beq_iff_eq.mpr hn), hcame.fibers, hcame.heap]
      rw [hresult, if_pos hn, ← getLast?_now hnow, hheap]
      simp only [hcame.flags, if_true]
      cases hlast : (janetLoop pick st.fibers st.heap).1.getLast? with
      | some fiber => exact ⟨rfl, rfl, rfl⟩
      | none =>
        -- without fibers the loop has changed nothing
        have hnone : st.fibers = [] := by
          have hfates := now_janetLoop pick st.fibers st.heap
          rw [List.getLast?_eq_none_iff.mp hlast, List.map_nil] at hfates
          exact List.map_eq_nil_iff.mp hfates.symm
        refine ⟨rfl, ?_, rfl⟩
        rw [hcame.ret, hnone]
        rfl
    · have hnow : st.fibers.map JanetFiber.now = (runs forms.1).map (Run.fateIn (stackn == 0)) := by
        rw [hcame.fibers, List.map_map, show (stackn == 0) = false from beq_eq_false_iff_ne.mpr hn]
        rfl
      have hheap : heapLeft pick (stackn == 0) forms.1 heap = st.heap := by
        rw [heapLeft, if_neg (by simpa using hn), hcame.heap]
      rw [hresult, if_neg hn, ← getLast?_now hnow, hheap]
      exact ⟨hcame.flags, hcame.ret, rfl⟩

end Dobytes

/-! ## What goes unheard -/

section Unheard

variable {forms : List Form} {parseFails drives : Bool}

theorem fate_ended : ∀ run : Run, (∃ v, run.fate = .finished v) ∨ ∃ v, run.fate = .raised v
  | .finishes _ v => Or.inl ⟨v, rfl⟩
  | .raises _ e => Or.inr ⟨e.value, rfl⟩
  | .suspends _ _ rest => fate_ended rest

/-- When nothing stops the loop, no fiber raises an error at once. -/
theorem not_raisesAtOnce : ∀ {forms : List Form}, stopsAt forms parseFails = none → ∀ run ∈ runs forms,
    run.raisesAtOnce = false
  | [], _, run, hr => by cases hr
  | .fails _ _ _ _ :: forms, h, _, _ => by cases h
  | .starts r :: forms, h, run, hr => by
    rw [stopsAt] at h
    split at h
    · cases h
    · next hno =>
      rcases List.mem_cons.mp hr with rfl | hr
      · simpa using hno
      · exact not_raisesAtOnce h run hr

theorem raisesLater_iff {run : Run} (h : run.raisesAtOnce = false) : run.raisesLater ↔ ∃ v, run.fate = .raised v := by
  cases run with
  | finishes effect v => simp [Run.raisesLater, Run.fate]
  | raises effect e => cases h
  | suspends effect v rest => exact Iff.rfl

theorem isSuspended_iff {run : Run} (h : run.raisesAtOnce = false) :
    run.isSuspended ↔ ∀ v, run.started.now ≠ .finished v := by
  cases run with
  | finishes effect v => simp [Run.isSuspended, Run.started, JanetFiber.now]
  | raises effect e => cases h
  | suspends effect v rest => simp [Run.isSuspended, Run.started, JanetFiber.now]

/-- When nothing stops the loop, the forms have failed exactly when a failure goes unheard. -/
theorem failed_iff (hs : stopsAt forms parseFails = none) :
    failed ((runs forms).map (Run.fateIn drives)) ↔ Unheard drives forms parseFails := by
  have hno := not_raisesAtOnce hs
  rw [Unheard, and_iff_right hs]
  cases drives with
  | true =>
    simp only [if_true]
    constructor
    · rintro (⟨v, hv⟩ | ⟨fate, hfate, hne⟩)
      · obtain ⟨run, hr, hrun⟩ := List.mem_map.mp hv
        exact ⟨run, hr, (raisesLater_iff (hno run hr)).mpr ⟨v, hrun⟩⟩
      · obtain ⟨run, hr, hrun⟩ := List.mem_map.mp (List.mem_of_getLast? hfate)
        refine ⟨run, hr, (raisesLater_iff (hno run hr)).mpr ?_⟩
        rcases fate_ended run with ⟨v, hv⟩ | hraised
        · exact absurd (hrun.symm.trans hv) (hne v)
        · exact hraised
    · rintro ⟨run, hr, hlater⟩
      obtain ⟨v, hv⟩ := (raisesLater_iff (hno run hr)).mp hlater
      exact Or.inl ⟨v, List.mem_map.mpr ⟨run, hr, hv⟩⟩
  | false =>
    simp only [Bool.false_eq_true, if_false]
    constructor
    · rintro (⟨v, hv⟩ | ⟨fate, hfate, hne⟩)
      · obtain ⟨run, hr, hrun⟩ := List.mem_map.mp hv
        have honce := hno run hr
        cases run with
        | raises effect e => cases honce
        | finishes effect w => cases hrun
        | suspends effect w rest => cases hrun
      · rw [List.getLast?_map] at hfate
        obtain ⟨run, hr, rfl⟩ := Option.map_eq_some_iff.mp hfate
        exact ⟨run, hr, (isSuspended_iff (hno run (List.mem_of_getLast? hr))).mpr hne⟩
    · rintro ⟨run, hr, hsuspended⟩
      refine Or.inr ⟨run.started.now, ?_, (isSuspended_iff (hno run (List.mem_of_getLast? hr))).mp hsuspended⟩
      rw [List.getLast?_map, hr]
      rfl

end Unheard

/-! ## `eval` -/

section Eval

variable [CanonicalForm] {Q : Type} (parser : JanetParser Q) (pick : Heap → List JanetFiber → Nat)
  (janetToString : Heap → Janet → List UInt8)

omit [CanonicalForm] in
/-- The message of an error that is there can be read. -/
theorem errorMessage_returns (heap : Heap) {raw : Janet}
    (h : janetChecktype raw .string = true → (janetUnwrapString raw).isSome) :
    ∃ message, errorMessage janetToString heap raw = .returns message := by
  rw [errorMessage]
  split
  · next hs =>
    obtain ⟨p, hp⟩ := Option.isSome_iff_exists.mp (h hs)
    rw [hp]
    exact ⟨_, rfl⟩
  · exact ⟨_, rfl⟩

/-- Copying throws no runtime error. -/
theorem copyOut_ne_runtime {heap : Heap} {raw : Janet} {message : Text} :
    copyOut heap raw ≠ .throws ⟨.runtime, message⟩ := by
  intro h
  rcases copyOut_throws h with ⟨he, _⟩ | ⟨he, _⟩
  · cases he
  · cases he

/-- Source and name are short enough to be counted. -/
def Short (source sourceName : Text) : Prop := Counted (cString source) ∧ Counted (cString sourceName)

instance (source sourceName : Text) : Decidable (Short source sourceName) := inferInstanceAs (Decidable (_ ∧ _))

theorem eval_short (stackn : Nat) {source sourceName : Text} (heap : Heap) (h : Short source sourceName) :
    eval parser pick janetToString stackn source sourceName heap =
      report janetToString (janetDobytes parser pick stackn (untilNul (cString source)) (untilNul (cString sourceName))
        heap) := by
  unfold Short at h
  rw [eval, janetDostring, if_pos h]

theorem eval_long (stackn : Nat) {source sourceName : Text} (heap : Heap) (h : ¬Short source sourceName) :
    eval parser pick janetToString stackn source sourceName heap = (.traps .memory, heap) := by
  unfold Short at h
  rw [eval, janetDostring, if_neg h]

/-- What stops the loop is thrown; otherwise the value of the last fiber is copied. -/
theorem eval_spec (stackn : Nat) {source sourceName : Text} (heap : Heap) (h : Short source sourceName) :
    let result := eval parser pick janetToString stackn source sourceName heap
    let forms := parser.forms (untilNul (cString source)) parser.init none
    match stopsAt forms.1 forms.2 with
    | some phase => ∃ message, result.1 = .throws ⟨phase, message⟩
    | none => result.1 = copyOut result.2 (lastValue ((runs forms.1).map (Run.fateIn (stackn == 0)))) ∧
        result.2 = heapLeft pick (stackn == 0) forms.1 heap := by
  intro result forms
  have hspec := dobytes_spec parser pick stackn (untilNul (cString source)) (untilNul (cString sourceName)) heap
  have hresult : result = report janetToString (janetDobytes parser pick stackn (untilNul (cString source))
    (untilNul (cString sourceName)) heap) := eval_short parser pick janetToString stackn heap h
  rw [report] at hresult
  generalize janetDobytes parser pick stackn (untilNul (cString source)) (untilNul (cString sourceName)) heap = done at *
  obtain ⟨flags, out, heap'⟩ := done
  simp only [show parser.forms (untilNul (cString source)) parser.init none = forms from rfl] at hspec
  cases hs : stopsAt forms.1 forms.2 with
  | some phase =>
    rw [hs] at hspec
    obtain ⟨hflags, hphase, hthere⟩ := hspec
    obtain ⟨message, hmessage⟩ := errorMessage_returns janetToString heap' hthere
    refine ⟨message, ?_⟩
    rw [hresult, if_pos hflags, hmessage, ← hphase]
    rfl
  | none =>
    rw [hs] at hspec
    obtain ⟨hflags, hout, hheap⟩ := hspec
    rw [hresult, if_neg (not_not.mpr hflags), ← hout]
    exact ⟨rfl, hheap⟩

/-- Copying returns or throws a copy error unless it meets `NULL` first. -/
theorem copyOut_safe_iff_exposed {heap : Heap} {raw : Janet} :
    ((∃ value, copyOut heap raw = .returns value) ∨ ∃ message, copyOut heap raw = .throws ⟨.copy, message⟩) ↔
      ¬Exposed copyRules heap.view .empty raw := by
  have htraps : (∃ t, copyOut heap raw = .traps t) ↔ Exposed copyRules heap.view .empty raw := by
    simp only [copyOut_traps]
    exact walk_traps_iff (view_identifies heap) above_empty (Nat.le_refl _) (Nat.zero_le _)
  have hne : ∀ {x : Result JanetValue}, (∀ t, x ≠ .traps t) → ¬∃ t, x = .traps t := by
    rintro x hx ⟨t, ht⟩
    exact hx t ht
  rw [← htraps]
  cases ho : copyOut heap raw with
  | returns v => exact iff_of_true (Or.inl ⟨v, rfl⟩) (hne fun t => by simp)
  | throws e =>
    refine iff_of_true (Or.inr ?_) (hne fun t => by simp)
    rcases copyOut_throws ho with ⟨rfl, _⟩ | ⟨rfl, _⟩ <;> exact ⟨_, rfl⟩
  | traps t =>
    refine iff_of_false ?_ (not_not.mpr ⟨t, rfl⟩)
    rintro (⟨v, h⟩ | ⟨message, h⟩) <;> cases h
  | unfinished => exact absurd ho copyOut_ne_unfinished

/-- **`eval` reports what became of the forms exactly when the source can be counted, no failure goes unheard, and what is
copied leads to no `NULL` pointer.** -/
theorem eval_reports_iff (stackn : Nat) (source sourceName : Text) (heap : Heap) :
    let result := eval parser pick janetToString stackn source sourceName heap
    let forms := parser.forms (untilNul (cString source)) parser.init none
    Reports (stackn == 0) forms.1 forms.2 result.2 result.1 ↔
      Short source sourceName ∧ ¬Unheard (stackn == 0) forms.1 forms.2 ∧
        ¬MeetsNull (stackn == 0) forms.1 forms.2 (heapLeft pick (stackn == 0) forms.1 heap) := by
  intro result forms
  rw [Reports]
  by_cases hshort : Short source sourceName
  · have hspec := eval_spec parser pick janetToString stackn heap hshort
    simp only at hspec
    rw [and_iff_right hshort]
    cases hs : stopsAt forms.1 forms.2 with
    | some phase =>
      rw [hs] at hspec
      refine iff_of_true hspec ⟨fun h => ?_, fun h => ?_⟩
      · rw [Unheard, hs] at h
        cases h.1
      · rw [MeetsNull, hs] at h
        cases h.1
    | none =>
      rw [hs] at hspec
      obtain ⟨hcopy, hheap⟩ := hspec
      rw [← failed_iff hs, MeetsNull, hs, ← hheap]
      simp only
      split
      · next hf =>
        refine iff_of_false ?_ fun h => h.1 hf
        rintro ⟨message, hm⟩
        exact copyOut_ne_runtime (hcopy.symm.trans hm)
      · next hf =>
        rw [and_iff_right hcopy, and_iff_right hf, and_iff_right trivial, and_iff_right hf, ← copyOut_safe_iff_exposed]
        rw [show result.1 = _ from hcopy]
  · have hlong : result.1 = .traps .memory := by
      rw [show result = _ from eval_long parser pick janetToString stackn heap hshort]
    refine iff_of_false ?_ fun h => hshort h.1
    rw [hlong]
    cases stopsAt forms.1 forms.2 with
    | some phase =>
      rintro ⟨message, hm⟩
      cases hm
    | none =>
      simp only
      split
      · rintro ⟨message, hm⟩
        cases hm
      · rintro ⟨_, ⟨value, hm⟩ | ⟨message, hm⟩⟩ <;> cases hm

end Eval

/-! ## An error after a suspension -/

/-- A parser for sources that are one form. -/
def oneForm (form : Form) : JanetParser Unit where
  init := ()
  consume _ _ := ((), none)
  eof _ := ((), some form)
  error _ := none
  line _ := 1
  column _ := 1

theorem forms_oneForm (form : Form) : ∀ bytes : List UInt8, (oneForm form).forms bytes () none = ([form], false)
  | [] => rfl
  | _ :: bytes => by
    rw [JanetParser.forms]
    simp only [oneForm, Option.isSome_none, Bool.false_eq_true, if_false]
    exact forms_oneForm form bytes

/-- The heap with the string "boom". -/
def boomHeap : Heap := (Heap.empty.janetString (Text.utf8 "boom".toList)).1

/-- What `(do (ev/sleep 0) (error "boom"))` does. -/
def sleepsAndRaises : Run := .suspends id janetWrapNil (.raises id ⟨janetWrapString 1, fun _ => rfl⟩)

/-- The error that is raised after the sleep is copied out as if it were the result. -/
theorem not_reports_sleepsAndRaises :
    ¬∀ (Q : Type) (parser : JanetParser Q) (source : Text) (heap : Heap),
      let result := @eval Q parser (fun _ _ => 0) ⟨id⟩ (fun _ _ => []) 0 source "swift".toList heap
      let forms := parser.forms (untilNul (cString source)) parser.init none
      @Reports ⟨id⟩ true forms.1 forms.2 result.2 result.1 := by
  intro h
  let source : Text := "(do (ev/sleep 0) (error \"boom\"))".toList
  have hspec := @eval_spec ⟨id⟩ _ (oneForm (.starts sleepsAndRaises)) (fun _ _ => 0) (fun _ _ => []) 0 source
    "swift".toList boomHeap (by decide)
  have hreports := h Unit (oneForm (.starts sleepsAndRaises)) source boomHeap
  have hforms := forms_oneForm (.starts sleepsAndRaises) (untilNul (cString source))
  have hstop : stopsAt [.starts sleepsAndRaises] false = none := rfl
  have hfailed : failed ((runs [.starts sleepsAndRaises]).map (Run.fateIn true)) :=
    Or.inl ⟨janetWrapString 1, List.mem_singleton.mpr rfl⟩
  simp only [show (oneForm (.starts sleepsAndRaises)).init = () from rfl, hforms, hstop] at hreports hspec
  unfold Reports at hreports
  simp only [hstop, if_pos hfailed] at hreports
  obtain ⟨message, hm⟩ := hreports
  exact @copyOut_ne_runtime ⟨id⟩ _ _ _ (hspec.1.symm.trans hm)

end SwiftJanet.Eval
