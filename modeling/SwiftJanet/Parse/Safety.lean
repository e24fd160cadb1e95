import Mathlib.Data.List.Basic
import Mathlib.Tactic.SplitIfs
import SwiftJanet.Lib.Machine
import SwiftJanet.Parse.Parser

/-!
# The parser stays in its memory

`Parser.Inv`: what the fields of a parser promise each other between two calls, `lost` counting the values that were
completed and dropped. Within a call the first byte of a token may still be missing (`Parser.Ready`).

- each consumer keeps this, leaves no block of memory, and comes closer to the end of the byte (`consumer_step`); so a
  byte is used by three consumers at most, and completes one value at most (`feed_spec`);
- every call of the interface keeps the invariant (`perform_fine`), so over whole runs nothing leaves a block but for the
  frames of a parser that has dropped values (`calls_inside_iff`). A value must not be put into a comment at the root:
  it would stand among the values without the tuple around it.
-/

namespace SwiftJanet.Parse

open Lib

/-! ## The stack -/

/-- A state that other states are inside of: a container, or a reader macro. -/
structure ParseState.Encloses (s : ParseState) : Prop where
  consumer : s.consumer = .root
  comment : s.flags.comment = false
  kind : s.flags.container = true ∨ s.flags.readermac = true ∧
    s.flags.parens = false ∧ s.flags.sqrbrackets = false ∧ s.flags.curlybrackets = false

/-- A state that nothing is inside of. -/
structure ParseState.Innermost (s : ParseState) : Prop where
  consumer : s.consumer ≠ .root
  container : s.flags.container = false
  comment : s.flags.comment = true → s.consumer = .comment

/-- The stack below a state that nothing is inside of: enclosing states down to a container. -/
inductive Enclosing : List ParseState → Prop
  | bottom {s : ParseState} (h : s.Encloses) (hc : s.flags.container = true) : Enclosing [s]
  | cons {s : ParseState} {rest : List ParseState} (h : s.Encloses) (hrest : Enclosing rest) : Enclosing (s :: rest)

/-- The arguments of the containers above the bottom of the stack. -/
def nested : List ParseState → Nat
  | [] => 0
  | [_] => 0
  | s :: rest => s.owns + nested rest

/-- The values that the bottom of the stack counts. -/
def rooted : List ParseState → Nat
  | [] => 0
  | [s] => s.argn
  | _ :: rest => rooted rest

/-- A value at the root, in its tuple. -/
def Wrapped (d : Datum) : Prop := ∃ line column x, d = .tuple false line column [x]

/-- The arguments are the values at the root, and those of the open containers. -/
structure Counts (args : List Datum) (pending lost : Nat) (states : List ParseState) : Prop where
  enclosing : Enclosing states
  count : args.length = pending + nested states
  rooted : rooted states = pending + lost
  wrapped : ∀ d ∈ args.take pending, Wrapped d

section Stack

variable {args : List Datum} {pending lost n : Nat} {s : ParseState} {rest states : List ParseState} {x : Datum}

theorem Enclosing.encloses (h : Enclosing (s :: rest)) : s.Encloses := by
  cases h with
  | bottom h _ => exact h
  | cons h _ => exact h

theorem Enclosing.ne_nil (h : Enclosing states) : states ≠ [] := by
  cases h with
  | bottom _ _ => exact List.cons_ne_nil _ _
  | cons _ _ => exact List.cons_ne_nil _ _

theorem Enclosing.tail (h : Enclosing (s :: rest)) (hne : rest ≠ []) : Enclosing rest := by
  cases h with
  | bottom _ _ => exact absurd rfl hne
  | cons _ hrest => exact hrest

theorem Enclosing.of_bottom (h : Enclosing [s]) : s.flags.container = true := by
  cases h with
  | bottom _ hc => exact hc
  | cons _ hrest => cases hrest

theorem ParseState.Innermost.not_comment (h : s.Innermost) (hne : s.consumer ≠ .comment) : s.flags.comment = false :=
  Bool.eq_false_iff.mpr fun hc => hne (h.comment hc)

theorem nested_cons (h : rest ≠ []) : nested (s :: rest) = s.owns + nested rest := by
  cases rest with
  | nil => exact absurd rfl h
  | cons _ _ => rfl

theorem rooted_cons (h : rest ≠ []) : rooted (s :: rest) = rooted rest := by
  cases rest with
  | nil => exact absurd rfl h
  | cons _ _ => rfl

theorem owns_container (h : s.flags.container = true) : s.owns = s.argn := if_pos h

theorem owns_other (h : s.flags.container = false) : s.owns = 0 := by rw [ParseState.owns, h, if_neg Bool.false_ne_true]

/-- A state with no arguments is opened. -/
theorem Counts.open (h : Counts args pending lost states) (hs : s.Encloses) (h0 : s.argn = 0) :
    Counts args pending lost (s :: states) := by
  have hne := h.enclosing.ne_nil
  refine ⟨.cons hs h.enclosing, ?_, (rooted_cons hne).trans h.rooted, h.wrapped⟩
  rw [nested_cons hne, ParseState.owns, h0, ite_self, Nat.zero_add]
  exact h.count

/-- A value is added to an open container. -/
theorem Counts.push (h : Counts args pending lost (s :: rest)) (hc : s.flags.container = true) (hne : rest ≠ []) :
    Counts (args ++ [x]) pending lost ({ s with argn := s.argn + 1 } :: rest) := by
  have hs := h.enclosing.encloses
  have hcount := h.count
  have hrooted := h.rooted
  rw [nested_cons hne, owns_container hc] at hcount
  rw [rooted_cons hne] at hrooted
  refine ⟨.cons ⟨hs.consumer, hs.comment, Or.inl hc⟩ (h.enclosing.tail hne), ?_, ?_, ?_⟩
  · have howns : ({ s with argn := s.argn + 1 } : ParseState).owns = s.argn + 1 := owns_container hc
    rw [nested_cons hne, howns, List.length_append, List.length_singleton]
    omega
  · rw [rooted_cons hne]
    exact hrooted
  · rw [List.take_append_of_le_length (by omega)]
    exact h.wrapped

/-- A value is added at the root. -/
theorem Counts.pushRoot (h : Counts args pending lost [s]) (hx : Wrapped x) :
    Counts (args ++ [x]) (pending + 1) lost [{ s with argn := s.argn + 1 }] := by
  have hs := h.enclosing.encloses
  have hcount := h.count
  have hrooted := h.rooted
  rw [nested, Nat.add_zero] at hcount
  rw [Parse.rooted] at hrooted
  refine ⟨.bottom ⟨hs.consumer, hs.comment, Or.inl h.enclosing.of_bottom⟩ h.enclosing.of_bottom, ?_, ?_, ?_⟩
  · rw [nested, List.length_append, List.length_singleton]
    omega
  · show s.argn + 1 = _
    omega
  · rw [List.take_of_length_le (by rw [List.length_append, List.length_singleton]; omega)]
    intro d hd
    rcases List.mem_append.mp hd with hd | hd
    · exact h.wrapped d (by rw [List.take_of_length_le (by omega)]; exact hd)
    · rw [List.mem_singleton.mp hd]
      exact hx

/-- A container is closed: its arguments are there, and are taken. -/
theorem Counts.take (h : Counts args pending lost (s :: rest)) (hne : rest ≠ []) (hc : s.flags.container = true) :
    s.argn ≤ args.length ∧ Counts (args.take (args.length - s.argn)) pending lost rest := by
  have hcount := h.count
  have hrooted := h.rooted
  rw [nested_cons hne, owns_container hc] at hcount
  rw [rooted_cons hne] at hrooted
  refine ⟨by omega, h.enclosing.tail hne, ?_, hrooted, ?_⟩
  · rw [List.length_take]
    omega
  · rw [List.take_take, Nat.min_eq_left (by omega)]
    exact h.wrapped

/-- A reader macro is finished. -/
theorem Counts.drop (h : Counts args pending lost (s :: rest)) (hne : rest ≠ []) (hc : s.flags.container = false) :
    Counts args pending lost rest := by
  have hcount := h.count
  have hrooted := h.rooted
  rw [nested_cons hne, owns_other hc, Nat.zero_add] at hcount
  rw [rooted_cons hne] at hrooted
  exact ⟨h.enclosing.tail hne, hcount, hrooted, h.wrapped⟩

end Stack

namespace Parser

variable {p q : Parser} {lost : Nat} {s top : ParseState} {rest : List ParseState} {c : UInt8}

/-! ## Popping -/

/-- What popping a state does not touch. -/
structure Pops (p q : Parser) : Prop where
  buf : q.buf = p.buf
  error : q.error = p.error
  dead : q.dead = p.dead
  generated : q.generatedError = p.generatedError

/-- **Popping finds its way down**, to the next container, which gets the value. -/
theorem popLoop_spec {p : Parser} : ∀ {rest : List ParseState} {top : ParseState} {val : Datum},
    Counts p.args p.pending lost rest → ∃ q, popLoop p (top :: rest) val = .ok q ∧ p.Pops q ∧
      Counts q.args q.pending lost q.states ∧ q.pending + (if q.states.length = 1 then 0 else 1) ≤ p.pending + 1
  | [], _, _, h => absurd rfl h.enclosing.ne_nil
  | newtop :: rest, top, val, h => by
    rw [popLoop]
    cases hc : newtop.flags.container with
    | true =>
      simp only [if_true]
      cases rest with
      | nil =>
        exact ⟨_, rfl, ⟨rfl, rfl, rfl, rfl⟩, h.pushRoot ⟨_, _, _, rfl⟩, Nat.le_refl _⟩
      | cons s rest =>
        refine ⟨_, rfl, ⟨rfl, rfl, rfl, rfl⟩, h.push hc (List.cons_ne_nil _ _), ?_⟩
        show p.pending + (if (_ :: s :: rest).length = 1 then 0 else 1) ≤ p.pending + 1
        split <;> omega
    | false =>
      have hmac := (h.enclosing.encloses.kind.resolve_left (by rw [hc]; decide)).1
      have hne : rest ≠ [] := by
        rintro rfl
        rw [h.enclosing.of_bottom] at hc
        cases hc
      simp only [Bool.false_eq_true, if_false, hmac, if_true]
      exact popLoop_spec (h.drop hne hc)

/-! ## What a consumer keeps -/

/-- The stack and the arguments of a parser, of which the next byte may still begin a token. -/
inductive Ready (p : Parser) (lost : Nat) (next : Prop) : Prop
  | root (h : Counts p.args p.pending lost p.states)
  | inside {top : ParseState} {rest : List ParseState} (hp : p.states = top :: rest) (htop : top.Innermost)
      (h : Counts p.args p.pending lost rest) (htoken : top.consumer = .tokenchar → p.buf ≠ [] ∨ next)

/-- How many consumers the byte still needs. -/
def steps (p : Parser) (c : UInt8) : Nat :=
  match p.states with
  | [] => 0
  | s :: _ =>
    match s.consumer with
    | .root => if janetIsSymbolChar c then 2 else 1
    | .tokenchar => if janetIsSymbolChar c then 1 else 2
    | .longstring => if janetIsSymbolChar c then 3 else 2
    | .atsign => if janetIsSymbolChar c then 2 else 3
    | _ => 1

/-- How many values at the root the byte can still complete. -/
def room (p : Parser) (c : UInt8) : Nat :=
  match p.states with
  | [] => 0
  | s :: rest => if rest = [] ∨ (s.consumer = .tokenchar ∧ janetIsSymbolChar c = true) then 0 else 1

/-- One consumer has run on the byte, and has used it or not. -/
structure Step (p : Parser) (lost : Nat) (c : UInt8) (q : Parser) (used : Bool) : Prop where
  ready : q.Ready lost (used = false ∧ q.error = none ∧ janetIsSymbolChar c = true)
  dead : q.dead = p.dead
  generated : q.generatedError = true → p.generatedError = true ∨ q.error.isSome = true
  room : q.pending + (if used then 0 else q.room c) ≤ p.pending + p.room c
  steps : used = false → q.error = none → q.steps c < p.steps c

/-- A consumer comes to such a step, and to no fault. -/
def Comes (p : Parser) (lost : Nat) (c : UInt8) (x : Except Fault (Parser × Bool)) : Prop :=
  ∃ q used, x = .ok (q, used) ∧ Step p lost c q used

theorem Comes.ite {b : Prop} [Decidable b] {x y : Except Fault (Parser × Bool)} (hx : b → Comes p lost c x)
    (hy : ¬b → Comes p lost c y) : Comes p lost c (if b then x else y) := by
  by_cases h : b
  · rw [if_pos h]
    exact hx h
  · rw [if_neg h]
    exact hy h

theorem Ready.imp {next next' : Prop} (h : p.Ready lost next) (himp : next → next') : p.Ready lost next' := by
  cases h with
  | root h => exact .root h
  | inside hp htop h htoken => exact .inside hp htop h fun ht => (htoken ht).imp_right himp

/-- Only the stack, the arguments and the buffer matter. -/
theorem Ready.congr {next : Prop} (h : p.Ready lost next) (hstates : q.states = p.states) (hargs : q.args = p.args)
    (hpending : q.pending = p.pending) (hbuf : q.buf = p.buf) : q.Ready lost next := by
  cases h with
  | root h => exact .root (by rw [hstates, hargs, hpending]; exact h)
  | inside hp htop h htoken =>
    exact .inside (hstates.trans hp) htop (by rw [hargs, hpending]; exact h) (by rw [hbuf]; exact htoken)

theorem Step.of_used (h : q.Ready lost False) (hdead : q.dead = p.dead)
    (hgenerated : q.generatedError = true → p.generatedError = true ∨ q.error.isSome = true)
    (hpending : q.pending ≤ p.pending + p.room c) : Step p lost c q true :=
  ⟨h.imp False.elim, hdead, hgenerated, hpending, fun h => absurd h (by decide)⟩

theorem steps_le : p.steps c ≤ 3 := by
  unfold steps
  repeat' split
  all_goals omega

theorem Ready.steps_pos {next : Prop} (h : p.Ready lost next) : 0 < p.steps c := by
  have hpos : ∀ s rest, p.states = s :: rest → 0 < p.steps c := fun s rest hp => by
    simp only [steps, hp]
    repeat' split
    all_goals omega
  cases h with
  | root h =>
    cases hp : p.states with
    | nil => exact absurd hp h.enclosing.ne_nil
    | cons s rest => exact hpos s rest hp
  | inside hp _ _ _ => exact hpos _ _ hp

theorem room_le : p.room c ≤ 1 := by
  unfold room
  repeat' split
  all_goals omega

theorem steps_root (h : Counts p.args p.pending lost p.states) :
    p.steps c = if janetIsSymbolChar c then 2 else 1 := by
  unfold steps
  cases hp : p.states with
  | nil => exact absurd hp h.enclosing.ne_nil
  | cons s rest =>
    rw [hp] at h
    simp only [h.enclosing.encloses.consumer]

theorem room_root (h : Counts p.args p.pending lost p.states) : p.room c = if p.states.length = 1 then 0 else 1 := by
  unfold room
  cases hp : p.states with
  | nil => exact absurd hp h.enclosing.ne_nil
  | cons s rest =>
    rw [hp] at h
    cases rest <;> simp [h.enclosing.encloses.consumer]

theorem room_inside (hp : p.states = top :: rest) (hne : rest ≠ [])
    (h : top.consumer = .tokenchar → janetIsSymbolChar c = false) : p.room c = 1 := by
  simp only [room, hp]
  refine if_neg fun hor => ?_
  rcases hor with hnil | ⟨ht, hc⟩
  · exact hne hnil
  · rw [h ht] at hc
    cases hc

/-- A container or a reader macro is entered. -/
theorem Ready.opened {flags : Flags} {next : Prop} (h : Counts p.args p.pending lost p.states)
    (hcomment : flags.comment = false) (hkind : flags.container = true ∨ flags.readermac = true ∧
      flags.parens = false ∧ flags.sqrbrackets = false ∧ flags.curlybrackets = false) :
    (p.pushstate .root flags).Ready lost next := .root (h.open ⟨rfl, hcomment, hkind⟩ rfl)

/-- Something else is entered; a token has to get a byte. -/
theorem Ready.entered {flags : Flags} {consumer : Consumer} {next : Prop} (h : Counts p.args p.pending lost p.states)
    (hconsumer : consumer ≠ .root) (hc : flags.container = false)
    (hcomment : flags.comment = true → consumer = .comment) (htoken : consumer = .tokenchar → p.buf ≠ [] ∨ next) :
    (p.pushstate consumer flags).Ready lost next := .inside rfl ⟨hconsumer, hc, hcomment⟩ h htoken

/-- Nothing is left or entered. -/
theorem Step.stays {top' : ParseState} (h : Counts p.args p.pending lost rest)
    (hq : q.states = top' :: rest) (htop : top'.Innermost) (htoken : top'.consumer = .tokenchar → q.buf ≠ [])
    (hargs : q.args = p.args) (hpending : q.pending = p.pending) (hdead : q.dead = p.dead)
    (hgenerated : q.generatedError = p.generatedError) : Step p lost c q true :=
  .of_used (.inside hq htop (by rw [hargs, hpending]; exact h) fun ht => Or.inl (htoken ht)) hdead
    (fun hg => Or.inl (hgenerated ▸ hg)) (by rw [hpending]; exact Nat.le_add_right _ _)

/-- An error leaves the rest as it was. -/
theorem Step.erred {message : Text} {generated used : Bool} (h : p.Ready lost False) :
    Step p lost c { p with error := some message, generatedError := generated } used where
  ready := (h.imp False.elim).congr rfl rfl rfl rfl
  dead := rfl
  generated _ := Or.inr rfl
  room := by
    cases used with
    | true => exact Nat.le_add_right _ _
    | false => exact Nat.le_refl _
  steps _ h := absurd h (Option.some_ne_none _)

/-- A state is popped: the byte may be used up, or be handed on. -/
theorem Step.popped {p' : Parser} {val : Datum} (hne : rest ≠ []) (hp : p.states = top :: rest)
    (hp' : p'.states = top :: rest) (htop : top.consumer = .tokenchar → janetIsSymbolChar c = false)
    (hpending : p'.pending = p.pending) (hdead : p'.dead = p.dead) (hgenerated : p'.generatedError = p.generatedError)
    (h : Counts p'.args p'.pending lost rest) :
    ∃ q, p'.popstate val = .ok q ∧ Step p lost c q true ∧
      ((if janetIsSymbolChar c then 2 else 1) < p.steps c → Step p lost c q false) ∧
      Counts q.args q.pending lost q.states ∧ q.error = p'.error := by
  obtain ⟨q, hq, hpops, hcounts, hle⟩ := @popLoop_spec lost p' rest top val h
  have hroom : p.room c = 1 := room_inside hp hne htop
  have hroom' : q.room c = if q.states.length = 1 then 0 else 1 := room_root hcounts
  have hstep : Step p lost c q true := by
    refine .of_used (.root hcounts) (hpops.dead.trans hdead) (fun hg => Or.inl ?_) (by omega)
    rw [← hgenerated, ← hpops.generated]
    exact hg
  refine ⟨q, by rw [popstate, hp', hq], hstep, fun hsteps => ?_, hcounts, hpops.error⟩
  refine ⟨.root hcounts, hstep.dead, hstep.generated, ?_, fun _ _ => by rw [steps_root hcounts]; exact hsteps⟩
  simp only [Bool.false_eq_true, if_false]
  omega

/-! ## Inside strings, comments and tokens -/

section Inside

variable (hp : p.states = top :: rest) (htop : top.Innermost) (h : Counts p.args p.pending lost rest)

include hp h

/-- The state at the top is changed, and stays inside a string or a comment. -/
theorem Step.set {state : ParseState} {buf : List UInt8} {error : Option Text}
    (hconsumer : state.consumer ≠ .root ∧ state.consumer ≠ .tokenchar) (hc : state.flags.container = false)
    (hcomment : state.flags.comment = false) :
    Step p lost c { p with states := state :: p.states.tail, buf := buf, error := error } true :=
  .stays h (congrArg (state :: List.tail ·) hp) ⟨hconsumer.1, hc, fun hc => by rw [hcomment] at hc; cases hc⟩
    (fun ht => absurd ht hconsumer.2) rfl rfl rfl rfl

/-- The state at the top stays as it is. -/
theorem Step.add {bytes : List UInt8} (hne : top.consumer ≠ .tokenchar) (htop : top.Innermost) :
    Step p lost c (p.pushBuf bytes) true :=
  .stays h hp htop (fun ht => absurd ht hne) rfl rfl rfl rfl

theorem stringend_step (hne : top.consumer ≠ .tokenchar) :
    ∃ q, p.stringend top = .ok q ∧ Step p lost c q true ∧
      ((if janetIsSymbolChar c then 2 else 1) < p.steps c → Step p lost c q false) := by
  obtain ⟨q, hq, hused, hstep, _⟩ := @Step.popped p lost top rest c { p with buf := [] } _ h.enclosing.ne_nil hp hp
    (fun ht => absurd ht hne) rfl rfl rfl h
  exact ⟨q, hq, hused, hstep⟩

include htop

theorem stringchar_step (ht : top.consumer = .stringchar) :
    ∃ q, p.stringchar top c = .ok q ∧ Step p lost c q true := by
  have hne : top.consumer ≠ .tokenchar := by rw [ht]; decide
  have hcomment : top.flags.comment = false := htop.not_comment (by rw [ht]; decide)
  unfold stringchar
  split_ifs
  · exact ⟨_, rfl, .set hp h ⟨by simp, by simp⟩ htop.container hcomment⟩
  · obtain ⟨q, hq, hstep, _⟩ := @stringend_step p lost top rest c hp h hne
    exact ⟨q, hq, hstep⟩
  · exact ⟨_, rfl, .add hp h hne htop⟩
  · exact ⟨_, rfl, .stays h hp htop (fun ht => absurd ht hne) rfl rfl rfl rfl⟩

theorem escape_step (ht : top.consumer = .escape1 ∨ top.consumer = .escapeh ∨ top.consumer = .escapeu) :
    Step p lost c (p.escape1 top c) true ∧ Step p lost c (p.escapeh top c) true ∧
      Step p lost c (p.escapeu top c) true := by
  have hne : top.consumer ≠ .root ∧ top.consumer ≠ .tokenchar := by
    rcases ht with ht | ht | ht <;> rw [ht] <;> exact ⟨by decide, by decide⟩
  have hcomment : top.flags.comment = false :=
    htop.not_comment (by rcases ht with ht | ht | ht <;> rw [ht] <;> decide)
  have hready : p.Ready lost False := .inside hp htop h fun ht => absurd ht hne.2
  refine ⟨?_, ?_, ?_⟩
  · unfold escape1
    split
    · exact .erred hready
    · split_ifs <;> exact .set hp h ⟨by simp, by simp⟩ htop.container hcomment
  · unfold escapeh
    split
    · exact .erred hready
    · dsimp only
      split
      · exact .set hp h ⟨by simp, by simp⟩ htop.container hcomment
      · exact .set hp h hne htop.container hcomment
  · unfold escapeu
    split
    · exact .erred hready
    · dsimp only
      split_ifs
      · exact .set hp h hne htop.container hcomment
      · exact .set hp h ⟨by simp, by simp⟩ htop.container hcomment
      · exact .set hp h hne htop.container hcomment

theorem longstring_step (ht : top.consumer = .longstring) :
    Comes p lost c (p.longstring top c) := by
  have hne : top.consumer ≠ .root ∧ top.consumer ≠ .tokenchar := by rw [ht]; exact ⟨by decide, by decide⟩
  have hcomment : top.flags.comment = false := htop.not_comment (by rw [ht]; decide)
  unfold longstring
  split_ifs
  · exact ⟨_, _, rfl, .set hp h hne htop.container hcomment⟩
  · exact ⟨_, _, rfl, .add hp h hne.2 htop⟩
  · obtain ⟨q, hq, _, hstep⟩ := @stringend_step p lost top rest c hp h hne.2
    refine ⟨q, false, ?_, hstep ?_⟩
    · rw [hq]
      rfl
    · simp only [steps, hp, ht]
      split <;> omega
  · exact ⟨_, _, rfl, .set hp h hne htop.container hcomment⟩
  · exact ⟨_, _, rfl, .set hp h hne htop.container hcomment⟩
  · exact ⟨_, _, rfl, .set hp h hne htop.container hcomment⟩
  · exact ⟨_, _, rfl, .set hp h hne htop.container hcomment⟩

theorem comment_step (ht : top.consumer = .comment) : Step p lost c (p.comment c) true := by
  have hne : top.consumer ≠ .tokenchar := by rw [ht]; decide
  unfold comment
  split_ifs
  · refine .of_used (.root ?_) rfl Or.inl (Nat.le_add_right _ _)
    rw [hp]
    exact h
  · exact .add hp h hne htop

omit htop in
theorem atsign_step (ht : top.consumer = .atsign) :
    Step p lost c (p.atsign c).1 (p.atsign c).2 := by
  have hcounts : Counts p.args p.pending lost p.states.tail := by
    rw [hp]
    exact h
  have hroom : p.room c = 1 := room_inside hp h.enclosing.ne_nil fun hc => by
    rw [ht] at hc
    cases hc
  have hused : ∀ {q : Parser}, q.Ready lost False → q.pending = p.pending → q.dead = p.dead →
      q.generatedError = p.generatedError → Step p lost c q true := fun hready hpending hdead hgenerated =>
    .of_used hready hdead (fun hg => Or.inl (hgenerated ▸ hg)) (by omega)
  unfold atsign
  dsimp only
  split_ifs
  · exact hused (.opened hcounts rfl (Or.inl rfl)) rfl rfl rfl
  · exact hused (.entered hcounts (by decide) rfl (fun h => absurd h (by decide)) fun h => absurd h (by decide)) rfl rfl rfl
  · exact hused (.entered hcounts (by decide) rfl (fun h => absurd h (by decide)) fun h => absurd h (by decide)) rfl rfl rfl
  · exact hused (.opened hcounts rfl (Or.inl rfl)) rfl rfl rfl
  · exact hused (.opened hcounts rfl (Or.inl rfl)) rfl rfl rfl
  · refine ⟨.inside rfl ⟨by simp, rfl, fun h => Bool.noConfusion h⟩ hcounts fun _ => Or.inl (by simp [pushBuf]), rfl, Or.inl, ?_, fun _ _ => ?_⟩
    · simp only [Bool.false_eq_true, if_false, hroom]
      exact Nat.add_le_add_left room_le _
    · simp only [steps, hp, ht, pushBuf, pushstate]
      split <;> omega

end Inside

section Consumers

variable {literals : Literals}

/-- A token ends before a byte that does not belong to it: it is no token, or it is popped. -/
theorem tokenchar_ends (hp : p.states = top :: rest) (h : Counts p.args p.pending lost rest)
    (ht : top.consumer = .tokenchar) (hbuf : p.buf ≠ []) (hc : janetIsSymbolChar c = false) :
    (∃ message, p.tokenchar literals top c = .ok (p.fail message, false)) ∨
      ∃ q, p.tokenchar literals top c = .ok (q, false) ∧ Step p lost c q false ∧
        Counts q.args q.pending lost q.states ∧ q.error = p.error := by
  rw [tokenchar, if_neg (by rw [hc]; decide)]
  cases hb : p.buf with
  | nil => exact absurd hb hbuf
  | cons first bytes =>
    dsimp only
    split
    · exact Or.inl ⟨_, rfl⟩
    · rename_i ret _
      obtain ⟨q, hq, _, hstep, hcounts, herror⟩ := @Step.popped p lost top rest c { p with buf := [] } ret
        h.enclosing.ne_nil hp hp (fun _ => hc) rfl rfl rfl h
      refine Or.inr ⟨q, by rw [hq]; rfl, hstep ?_, hcounts, herror⟩
      simp only [steps, hp, ht, hc, Bool.false_eq_true, if_false]
      omega

theorem tokenchar_step (hp : p.states = top :: rest) (htop : top.Innermost)
    (h : Counts p.args p.pending lost rest) (ht : top.consumer = .tokenchar)
    (hbuf : p.buf ≠ [] ∨ janetIsSymbolChar c = true) : Comes p lost c (p.tokenchar literals top c) := by
  by_cases hc : janetIsSymbolChar c = true
  · rw [tokenchar, if_pos hc]
    dsimp only
    split_ifs
    · exact ⟨_, _, rfl, .stays h (congrArg (_ :: List.tail ·) hp) ⟨htop.consumer, htop.container, htop.comment⟩
        (fun _ => by simp [pushBuf, setTop]) rfl rfl rfl rfl⟩
    · exact ⟨_, _, rfl, .stays h hp htop (fun _ => by simp [pushBuf]) rfl rfl rfl rfl⟩
  · have hne : p.buf ≠ [] := hbuf.resolve_right hc
    rcases @tokenchar_ends p lost top rest c literals hp h ht hne (by simpa using hc) with
      ⟨message, hq⟩ | ⟨q, hq, hstep, _⟩
    · exact ⟨_, _, hq, .erred (.inside hp htop h fun _ => Or.inl hne)⟩
    · exact ⟨q, false, hq, hstep⟩

end Consumers

/-! ## At the beginning of a value -/

theorem close_step {make : List Datum → Datum} (hp : p.states = s :: rest) (h : Counts p.args p.pending lost (s :: rest))
    (hne : rest ≠ []) (hc : s.flags.container = true) : ∃ q, p.close s make = .ok q ∧ Step p lost c q true := by
  obtain ⟨hle, htake⟩ := h.take hne hc
  have hroot := h.enclosing.encloses.consumer
  obtain ⟨q, hq, hstep, _⟩ := @Step.popped p lost s rest c { p with args := p.args.take (p.args.length - s.argn) }
    (make (p.args.drop (p.args.length - s.argn))) hne hp hp (fun ht => by rw [hroot] at ht; cases ht) rfl rfl rfl htake
  refine ⟨q, ?_, hstep⟩
  rw [close, takeArgs, if_pos hle]
  exact hq

theorem closing_step (literals : Literals) (hp : p.states = s :: rest) (h : Counts p.args p.pending lost (s :: rest)) :
    ∃ q, p.closing literals s c = .ok q ∧ Step p lost c q true := by
  have hready : p.Ready lost False := .root (hp ▸ h)
  have hclose : rest ≠ [] → (s.flags.parens = true ∨ s.flags.sqrbrackets = true ∨ s.flags.curlybrackets = true) →
      ∀ make, ∃ q, p.close s make = .ok q ∧ Step p lost c q true := fun hne hflags make =>
    close_step hp h hne (h.enclosing.encloses.kind.resolve_right fun hmac => by simp [hmac] at hflags)
  unfold closing
  dsimp only
  split_ifs with hlength hround hat hcurly hodd hat
  · exact ⟨_, rfl, .erred hready⟩
  all_goals have hne : rest ≠ [] := fun hnil => hlength (by rw [hp, hnil]; rfl)
  · exact hclose hne (by simp only [Bool.or_eq_true, Bool.and_eq_true] at hround; tauto) _
  · exact hclose hne (by simp only [Bool.or_eq_true, Bool.and_eq_true] at hround; tauto) _
  · exact ⟨_, rfl, .erred hready⟩
  · exact hclose hne (Or.inr (Or.inr (Bool.and_eq_true_iff.mp hcurly).2)) _
  · exact hclose hne (Or.inr (Or.inr (Bool.and_eq_true_iff.mp hcurly).2)) _
  · exact ⟨_, rfl, .erred hready⟩

theorem root_step (literals : Literals) (herror : p.error = none) (hp : p.states = s :: rest)
    (h : Counts p.args p.pending lost (s :: rest)) : Comes p lost c (p.root literals s c) := by
  have hcounts : Counts p.args p.pending lost p.states := hp ▸ h
  have hready : p.Ready lost False := .root hcounts
  have hused : ∀ {q : Parser}, q.Ready lost False → q.pending = p.pending → q.dead = p.dead →
      q.generatedError = p.generatedError → Comes p lost c (.ok (q, true)) := fun hready hpending hdead hgenerated =>
    ⟨_, _, rfl, .of_used hready hdead (fun hg => Or.inl (hgenerated ▸ hg)) (by omega)⟩
  have hentered : ∀ (consumer : Consumer) (flags : Flags), consumer ≠ .root ∧ consumer ≠ .tokenchar →
      flags.container = false → (flags.comment = true → consumer = .comment) →
      Comes p lost c (.ok (p.pushstate consumer flags, true)) := fun consumer flags hconsumer hc hcomment =>
    hused (.entered hcounts hconsumer.1 hc hcomment fun ht => absurd ht hconsumer.2) rfl rfl rfl
  have hopened : ∀ flags : Flags, flags.comment = false → flags.container = true →
      Comes p lost c (.ok (p.pushstate .root flags, true)) := fun flags hcomment hc =>
    hused (.opened hcounts hcomment (Or.inl hc)) rfl rfl rfl
  refine .ite (fun _ => ?_) fun _ => .ite (fun _ => ?_) fun _ => .ite (fun _ => ?_) fun _ => .ite (fun _ => ?_) fun _ =>
    .ite (fun _ => ?_) fun _ => .ite (fun _ => ?_) fun _ => .ite (fun _ => ?_) fun _ => .ite (fun _ => ?_) fun _ =>
    .ite (fun _ => ?_) fun _ => .ite (fun _ => ?_) fun _ => .ite (fun _ => ?_) fun hsymbol => ?_
  · exact hused (.opened hcounts rfl (Or.inr ⟨rfl, rfl, rfl, rfl⟩)) rfl rfl rfl
  · exact hentered _ _ (by decide) rfl (by decide)
  · exact hentered _ _ (by decide) rfl (by decide)
  · exact hentered _ _ (by decide) rfl (by decide)
  · exact hentered _ _ (by decide) rfl (by decide)
  · obtain ⟨q, hq, hstep⟩ := @closing_step p lost s rest c literals hp h
    exact ⟨q, true, by rw [hq]; rfl, hstep⟩
  · exact hopened _ rfl rfl
  · exact hopened _ rfl rfl
  · exact hopened _ rfl rfl
  · exact hused hready rfl rfl rfl
  · exact ⟨_, _, rfl, .erred hready⟩
  · have hsymbol : janetIsSymbolChar c = true := by simpa using hsymbol
    refine ⟨_, _, rfl, .entered hcounts (by decide) rfl (by decide) fun _ => Or.inr ⟨rfl, herror, hsymbol⟩, rfl, Or.inl, ?_, ?_⟩
    · simp [room, pushstate, hsymbol]
    · intro _ _
      rw [steps_root hcounts, if_pos hsymbol]
      simp [steps, pushstate, hsymbol]

/-! ## A byte -/

section Feeding

variable {literals : Literals} {next : Prop}

/-- **One consumer**: it leaves no block, and comes closer to the end of the byte. -/
theorem consumer_step (h : p.Ready lost next) (hnext : next → janetIsSymbolChar c = true) (herror : p.error = none) :
    Comes p lost c (p.consumer literals c) := by
  cases h with
  | root h =>
    cases hp : p.states with
    | nil => exact absurd hp h.enclosing.ne_nil
    | cons s rest =>
      rw [hp] at h
      simp only [consumer, hp, h.enclosing.encloses.consumer]
      exact root_step literals herror hp h
  | @inside top rest hp htop h htoken =>
    simp only [consumer, hp]
    cases ht : top.consumer with
    | root => exact absurd ht htop.consumer
    | tokenchar => exact tokenchar_step hp htop h ht ((htoken ht).imp_right hnext)
    | stringchar =>
      obtain ⟨q, hq, hstep⟩ := @stringchar_step p lost top rest c hp htop h ht
      exact ⟨q, true, by simp only [hq]; rfl, hstep⟩
    | escape1 => exact ⟨_, _, rfl, (escape_step hp htop h (Or.inl ht)).1⟩
    | escapeh => exact ⟨_, _, rfl, (escape_step hp htop h (Or.inr (Or.inl ht))).2.1⟩
    | escapeu => exact ⟨_, _, rfl, (escape_step hp htop h (Or.inr (Or.inr ht))).2.2⟩
    | longstring => exact longstring_step hp htop h ht
    | comment => exact ⟨_, _, rfl, comment_step hp htop h ht⟩
    | atsign => exact ⟨_, _, rfl, atsign_step hp h ht⟩

/-- What the fields of a parser promise each other between two calls. -/
structure Inv (p : Parser) (lost : Nat) : Prop where
  ready : p.Ready lost False
  generated : p.generatedError = true → p.error.isSome = true

/-- **The consumers of a byte**: as many as it needs are enough. -/
theorem consumeLoop_spec : ∀ {n : Nat} {p : Parser} {next : Prop}, p.Ready lost next →
    (next → janetIsSymbolChar c = true) → p.error = none → p.generatedError = false → p.steps c ≤ n → 0 < n →
    ∃ q, p.consumeLoop literals c n = .ok q ∧ q.Inv lost ∧ q.dead = p.dead ∧ q.pending ≤ p.pending + p.room c
  | 0, _, _, _, _, _, _, _, hn => absurd hn (Nat.lt_irrefl 0)
  | n + 1, p, next, h, hnext, herror, hgenerated, hsteps, _ => by
    obtain ⟨q, used, hq, hstep⟩ := @consumer_step p lost c literals next h hnext herror
    have hgen : q.generatedError = true → q.error.isSome = true := fun hg =>
      (hstep.generated hg).resolve_left (by rw [hgenerated]; decide)
    cases used with
    | true =>
      exact ⟨q, consumeLoop_used hq, ⟨hstep.ready.imp fun h => absurd h.1 (by decide), hgen⟩, hstep.dead, hstep.room⟩
    | false =>
      cases he : q.error with
      | some message =>
        refine ⟨q, consumeLoop_failed hq (by rw [he]; rfl), ⟨hstep.ready.imp fun h => ?_, hgen⟩, hstep.dead, ?_⟩
        · rw [he] at h
          exact absurd h.2.1 (Option.some_ne_none _)
        · exact Nat.le_trans (Nat.le_add_right _ _) hstep.room
      | none =>
        have hlt := hstep.steps rfl he
        have hpos : 0 < q.steps c := hstep.ready.steps_pos
        obtain ⟨q', hq', hinv, hdead, hpending⟩ := @consumeLoop_spec n q _ hstep.ready (fun h => h.2.2) he
          (by rw [he] at hgen; simpa using hgen) (by omega) (by omega)
        exact ⟨q', (consumeLoop_next hq he).trans hq', hinv, hdead.trans hstep.dead,
          Nat.le_trans hpending hstep.room⟩

/-- Where a byte stands does not matter to the stack. -/
theorem advance_ready (h : p.Ready lost False) : (p.advance c).Ready lost False ∧ (p.advance c).error = p.error ∧
    (p.advance c).generatedError = p.generatedError ∧ (p.advance c).dead = p.dead ∧
    (p.advance c).pending = p.pending := by
  unfold advance
  split_ifs <;> exact ⟨h.congr rfl rfl rfl rfl, rfl, rfl, rfl, rfl⟩

/-- **A byte leaves no block of memory**, is used by three consumers at most, and completes one value at most. -/
theorem feed_spec (h : p.Inv lost) (herror : p.error = none) :
    ∃ q, p.feed literals c = .ok q ∧ q.Inv lost ∧ q.dead = p.dead ∧ q.pending ≤ p.pending + 1 := by
  obtain ⟨hready, he, hg, hdead, hpending⟩ := @advance_ready p lost c h.ready
  have hgenerated : p.generatedError = false := by
    have hgen := h.generated
    rw [herror] at hgen
    simpa using hgen
  obtain ⟨q, hq, hinv, hdead', hle⟩ := @consumeLoop_spec lost c literals 3 (p.advance c) False hready False.elim
    (he.trans herror) (hg.trans hgenerated) steps_le (by decide)
  have hroom := @room_le (p.advance c) c
  exact ⟨{ q with lookback := some c }, by rw [feed, hq]; rfl, ⟨hinv.ready.congr rfl rfl rfl rfl, hinv.generated⟩,
    hdead'.trans hdead, by show q.pending ≤ _; omega⟩

end Feeding

end Parser

end SwiftJanet.Parse
