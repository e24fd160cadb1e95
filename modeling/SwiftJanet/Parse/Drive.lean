import SwiftJanet.Eval.Dobytes
import SwiftJanet.Parse.Calls

/-!
# `janet_dobytes` over its parser

`drive`: the loop of `janet_dobytes` over the bytes, with the calls it makes of the parser. It compiles and runs every
value that waits, and then feeds the next byte. What compiling and running a value comes to is a parameter, which knows the
values before it: each evaluation comes to an end of its own. The event loop behind the bytes is not part of `drive`.

A byte completes one value at most and leaves the parser callable, so the loop makes no call that fails, has a turn for
each byte and two more, and does what `Dobytes.loop` does with this parser (`drive_eq_loop`).
-/

namespace SwiftJanet.Eval

open Lib Parse Parse.Parser

section Drive

variable (literals : Literals) (compile : List Datum → Datum → Form) (sourcePath : List UInt8)

/-! ## The loop -/

/-- What the loop comes to when a call of the parser has ended. -/
def Dobytes.next (r : Outcome Text Fault Unit × Parser) (f : Parser → Outcome Text Fault Dobytes) :
    Outcome Text Fault Dobytes :=
  r.1 >>= fun _ => f r.2

/-- The inner loop, for at most `n` values: it does not stop at an error. -/
def Dobytes.evaluateAll : Nat → List Datum → Parser → Dobytes → Outcome Text Fault (List Datum × Parser × Dobytes)
  | 0, taken, p, st => if p.hasMore then .unfinished else .returns (taken, p, st)
  | n + 1, taken, p, st =>
    if p.hasMore then do
      let d ← (produce false p).1
      let p := (produce false p).2
      evaluateAll n (taken ++ [d]) p (Dobytes.evaluate sourcePath p.line p.column st (compile taken d))
    else .returns (taken, p, st)

/-- The loop, for at most `n` turns, over the bytes that are left; `taken` lists the values that were taken. -/
def Dobytes.driveFor : Nat → List Datum → Parser → List UInt8 → Dobytes → Outcome Text Fault Dobytes
  | 0, _, _, _, _ => .unfinished
  | n + 1, taken, p, bytes, st => do
    let (taken, p, st) ← Dobytes.evaluateAll compile sourcePath p.pending taken p st
    if st.done then .returns st
    else match p.status with
      | .dead => .returns { st with done := true }
      | .error => .returns (Dobytes.fail st janetDoErrorParse
          (errorBytes sourcePath p.line p.column "parse error".toList (p.error.getD [])))
      | _ => match bytes with
        | [] => Dobytes.next (eof literals p) fun p => Dobytes.driveFor n taken p [] st
        | byte :: bytes => Dobytes.next (consume literals byte p) fun p => Dobytes.driveFor n taken p bytes st

/-- The loop of `janet_dobytes` over the bytes: a turn for each byte, for the end and for what comes behind it. -/
def Dobytes.drive (bytes : List UInt8) (st : Dobytes) : Outcome Text Fault Dobytes :=
  Dobytes.driveFor literals compile sourcePath (bytes.length + 2) [] Parser.init bytes st

/-! ## The parser as the loop sees it -/

/-- Take the value that waits. -/
def takeForm (taken : List Datum) (p : Parser) : (List Datum × Parser) × Option Form :=
  if p.hasMore then
    match produce false p with
    | (.returns d, q) => ((taken ++ [d], q), some (compile taken d))
    | (_, q) => ((taken, q), none)
  else ((taken, p), none)

/-- The parser of `janet_dobytes`, whose values are compiled as they are completed. -/
def janetParser : JanetParser (List Datum × Parser) where
  init := ([], Parser.init)
  consume p c := takeForm compile p.1 (consume literals c p.2).2
  eof p := takeForm compile p.1 (eof literals p.2).2
  error p := p.2.error
  line p := p.2.line
  column p := p.2.column

end Drive

/-! ## The loop ends -/

section Laws

variable {literals : Literals} {compile : List Datum → Datum → Form} {sourcePath : List UInt8}
  {taken : List Datum} {p q : Parser} {st : Dobytes}

/-- The parser after a byte of the loop. -/
structure Turning (p : Parser) : Prop where
  inv : p.Inv 0
  one : p.pending ≤ 1

/-- The value that was taken is evaluated. -/
def Dobytes.evaluateTaken (sourcePath : List UInt8) (p : Parser) (form : Option Form) (st : Dobytes) : Dobytes :=
  match form with
  | some form => Dobytes.evaluate sourcePath p.line p.column st form
  | none => st

/-- What a turn of the loop makes of the evaluated value. -/
def Dobytes.checkError (sourcePath : List UInt8) (p : Parser) (st : Dobytes) : Dobytes :=
  if st.done then st
  else match p.error with
    | some error => Dobytes.fail st janetDoErrorParse
        (errorBytes sourcePath p.line p.column "parse error".toList error)
    | none => st

theorem turn_eq {form : Option Form} : Dobytes.turn (janetParser literals compile) sourcePath (taken, p) form st =
    Dobytes.checkError sourcePath p (Dobytes.evaluateTaken sourcePath p form st) := by
  cases form <;> rfl

theorem loop_of_done {bytes : List UInt8} {form : Option Form}
    (h : (Dobytes.turn (janetParser literals compile) sourcePath (taken, p) form st).done = true) :
    Dobytes.loop (janetParser literals compile) sourcePath bytes (taken, p) form st =
      Dobytes.turn (janetParser literals compile) sourcePath (taken, p) form st := by
  cases bytes <;> simp only [Dobytes.loop, h, if_true]

/-- The inner loop takes the value that waits, which leaves none. -/
theorem evaluateAll_spec (h : Turning p) : ∃ taken' q form, takeForm compile taken p = ((taken', q), form) ∧ q.Inv 0 ∧
    q.pending = 0 ∧ p.Same q ∧ Dobytes.evaluateAll compile sourcePath p.pending taken p st =
      .returns (taken', q, Dobytes.evaluateTaken sourcePath q form st) := by
  by_cases hpending : p.pending = 0
  · have hmore : p.hasMore = false := by simp [hasMore, hpending]
    refine ⟨taken, p, none, by rw [takeForm, hmore]; rfl, h.inv, hpending, ⟨rfl, rfl, rfl⟩, ?_⟩
    rw [hpending, Dobytes.evaluateAll, hmore]
    rfl
  · have hone : p.pending = 1 := by have := h.one; omega
    have hmore : p.hasMore = true := by simp [hasMore, hone]
    obtain ⟨d, q, hq, hinv, hnone, hsame⟩ := @produce_spec p 0 false h.inv hpending
    have hzero : q.pending = 0 := by omega
    refine ⟨taken ++ [d], q, some (compile taken d), by rw [takeForm, hmore, if_pos rfl, hq], hinv, hzero, hsame, ?_⟩
    have hmore' : q.hasMore = false := by simp [hasMore, hzero]
    rw [hone, Dobytes.evaluateAll, hmore, if_pos rfl, hq]
    show Dobytes.evaluateAll compile sourcePath 0 _ q _ = _
    rw [Dobytes.evaluateAll, hmore']
    rfl

/-- The status of a parser with the invariant: an error, or dead, or neither. -/
theorem status_eq (h : p.Inv 0) :
    (p.error = none → p.dead = true → p.status = .dead) ∧
      (p.error = none → p.dead = false → p.status = .pending ∨ p.status = .root) ∧
      (p.error.isSome = true → p.status = .error) := by
  have hgenerated : p.error = none → p.generatedError = false := fun herror => by
    have hg := h.generated
    rw [herror] at hg
    simpa using hg
  refine ⟨fun herror hdead => ?_, fun herror hdead => ?_, fun herror => ?_⟩
  · simp [status, herror, hdead]
  · simp only [status, herror, hdead, hgenerated herror, Option.isSome_none, Bool.or_self, Bool.false_eq_true, if_false]
    by_cases hlength : p.states.length > 1
    · exact Or.inl (if_pos hlength)
    · exact Or.inr (if_neg hlength)
  · rw [status, if_pos herror]

/-- A turn that ends the loop, or goes on with a parser that can be called. -/
theorem driveFor_succ {n : Nat} {bytes : List UInt8} (h : Turning p) : ∃ taken' q form,
    takeForm compile taken p = ((taken', q), form) ∧ q.Inv 0 ∧ q.pending = 0 ∧ q.dead = p.dead ∧
    (Dobytes.driveFor literals compile sourcePath (n + 1) taken p bytes st =
        .returns (Dobytes.turn (janetParser literals compile) sourcePath (taken', q) form st) ∧
        (Dobytes.turn (janetParser literals compile) sourcePath (taken', q) form st).done = true ∨
      q.error = none ∧ (Dobytes.turn (janetParser literals compile) sourcePath (taken', q) form st).done = false ∧
        Dobytes.driveFor literals compile sourcePath (n + 1) taken p bytes st =
          match q.status with
          | .dead => .returns { Dobytes.turn (janetParser literals compile) sourcePath (taken', q) form st with done := true }
          | _ => match bytes with
            | [] => Dobytes.next (eof literals q) fun p => Dobytes.driveFor literals compile sourcePath n taken' p []
                (Dobytes.turn (janetParser literals compile) sourcePath (taken', q) form st)
            | byte :: bytes => Dobytes.next (consume literals byte q) fun p => Dobytes.driveFor literals compile sourcePath n taken' p
                bytes (Dobytes.turn (janetParser literals compile) sourcePath (taken', q) form st)) := by
  obtain ⟨taken', q, form, htake, hinv, hzero, hsame, hall⟩ := @evaluateAll_spec compile sourcePath taken p st h
  refine ⟨taken', q, form, htake, hinv, hzero, hsame.dead, ?_⟩
  obtain ⟨-, -, hstatus⟩ := status_eq hinv
  rw [turn_eq, Dobytes.driveFor, hall]
  simp only [Outcome.returns_bind]
  generalize Dobytes.evaluateTaken sourcePath q form st = st'
  cases hdone : st'.done with
  | true =>
    have hcheck : Dobytes.checkError sourcePath q st' = st' := by rw [Dobytes.checkError, if_pos hdone]
    rw [hcheck]
    exact Or.inl ⟨rfl, hdone⟩
  | false =>
    cases herror : q.error with
    | some error =>
      have hcheck : Dobytes.checkError sourcePath q st' = Dobytes.fail st' janetDoErrorParse
          (errorBytes sourcePath q.line q.column "parse error".toList error) := by
        simp only [Dobytes.checkError, hdone, herror, Bool.false_eq_true, if_false]
      rw [hcheck, hstatus (by rw [herror]; rfl)]
      exact Or.inl ⟨rfl, rfl⟩
    | none =>
      have hcheck : Dobytes.checkError sourcePath q st' = st' := by
        simp only [Dobytes.checkError, hdone, herror, Bool.false_eq_true, if_false]
      rw [hcheck]
      refine Or.inr ⟨rfl, hdone, ?_⟩
      cases hs : q.status <;> first | rfl | skip
      simp only [status, herror, Option.isSome_none, Bool.false_eq_true, if_false] at hs
      split_ifs at hs

/-- The last turn, with a parser that is dead. -/
theorem driveFor_dead {n : Nat} (h : Turning p) (hdead : p.dead = true) :
    Dobytes.driveFor literals compile sourcePath (n + 1) taken p [] st = .returns
      { Dobytes.turn (janetParser literals compile) sourcePath (takeForm compile taken p).1 (takeForm compile taken p).2 st with
        done := true } := by
  obtain ⟨_, q, form, htake, hinv, _, hdead', ⟨hdrive, hdone⟩ | ⟨herror, _, hdrive⟩⟩ :=
    @driveFor_succ literals compile sourcePath taken p st n [] h
  · rw [hdrive, htake]
    exact congrArg Outcome.returns (by rw [← hdone])
  · rw [hdrive, htake, (status_eq hinv).1 herror (hdead'.trans hdead)]

/-- **The loop with the calls does what the loop of the abstract parser does**, from a turn on. -/
theorem driveFor_eq_loop : ∀ {n : Nat} {bytes : List UInt8} {taken : List Datum} {p : Parser} {st : Dobytes}, Turning p →
    p.dead = false → bytes.length + 2 ≤ n → Dobytes.driveFor literals compile sourcePath n taken p bytes st = .returns
      (Dobytes.loop (janetParser literals compile) sourcePath bytes (takeForm compile taken p).1 (takeForm compile taken p).2 st)
  | 0, _, _, _, _, _, _, hn => by omega
  | n + 1, bytes, taken, p, st, h, hdead, hn => by
    obtain ⟨taken', q, form, htake, hinv, hzero, hdead', ⟨hdrive, hdone⟩ | ⟨herror, hdone, hdrive⟩⟩ :=
      @driveFor_succ literals compile sourcePath taken p st n bytes h
    · rw [hdrive, htake, loop_of_done hdone]
    · have halive : q.dead = false := hdead'.trans hdead
      rw [hdrive, htake]
      have hgoes : ∀ {x y : Outcome Text Fault Dobytes}, (match q.status with
          | .dead => x
          | _ => y) = y := by
        intro x y
        rcases (status_eq hinv).2.1 herror halive with hs | hs <;> rw [hs]
      rw [hgoes]
      cases bytes with
      | nil =>
        obtain ⟨q', hq', hinv', hdead'', hle⟩ := @eof_spec q 0 literals hinv herror halive
        obtain ⟨m, rfl⟩ : ∃ m, n = m + 1 := ⟨n - 1, by rw [List.length_nil] at hn; omega⟩
        have hturning : Turning q' := ⟨hinv', by omega⟩
        have heof : (janetParser literals compile).eof (taken', q) = takeForm compile taken' q' := by
          show takeForm compile taken' (eof literals q).2 = _
          rw [hq']
        simp only [Dobytes.next, hq', Outcome.returns_bind, Dobytes.loop, hdone, Bool.false_eq_true, if_false, heof]
        exact driveFor_dead hturning hdead''
      | cons byte bytes =>
        obtain ⟨q', hq', hinv', hdead'', hle⟩ := @consume_spec q 0 literals byte hinv herror halive
        have hturning : Turning q' := ⟨hinv', by omega⟩
        have hconsume : (janetParser literals compile).consume (taken', q) byte = takeForm compile taken' q' := by
          show takeForm compile taken' (consume literals byte q).2 = _
          rw [hq']
        simp only [Dobytes.next, hq', Outcome.returns_bind, Dobytes.loop, hdone, Bool.false_eq_true, if_false, hconsume]
        exact driveFor_eq_loop hturning hdead'' (by rw [List.length_cons] at hn; omega)

/-- **The loop over the bytes ends on every text, and the parser never fails it**: if every evaluation ends, a turn for each
byte, one for the end and one behind it are enough, no call of the parser panics or leaves its memory, and what comes out is
what the abstract loop says with this parser. -/
theorem drive_eq_loop (literals : Literals) (compile : List Datum → Datum → Form) (sourcePath bytes : List UInt8)
    (st : Dobytes) : Dobytes.drive literals compile sourcePath bytes st = .returns
      (Dobytes.loop (janetParser literals compile) sourcePath bytes (janetParser literals compile).init none st) :=
  driveFor_eq_loop ⟨init_inv, Nat.zero_le _⟩ rfl (Nat.le_refl _)

end Laws

end SwiftJanet.Eval
