import SwiftJanet.Parse.Safety

/-!
# Calls of the parser

`calls`: a parser that is called in any order, and how many values it has dropped (`Session.lost`).

- `Fine lost x`: a call returns or panics, and leaves a parser with the invariant. Each call is fine in every parser
  with the invariant (`perform_fine`), except for `insert` in a comment at the root;
- so no run leaves a block of memory; only the frames of a parser cannot be told once it has dropped values, since the
  state at the bottom of the stack goes on counting them (`calls_inside_iff`).
-/

namespace SwiftJanet.Parse

open Lib

/-! ## Taking values -/

section Taking

variable {args : List Datum} {pending : Nat} {s : ParseState} {rest states : List ParseState} {lost : Nat} {d : Datum}

theorem uncount_cons (h : rest ≠ []) : Parser.uncount (s :: rest) = s :: Parser.uncount rest := by
  cases rest with
  | nil => exact absurd rfl h
  | cons _ _ => rfl

theorem uncount_ne_nil : ∀ {states : List ParseState}, states ≠ [] → Parser.uncount states ≠ []
  | [], h => absurd rfl h
  | [_], _ => List.cons_ne_nil _ _
  | _ :: _ :: _, _ => List.cons_ne_nil _ _

/-- Counting one value less changes only what the bottom of the stack counts. -/
theorem uncount_spec (h : Enclosing states) :
    Enclosing (Parser.uncount states) ∧ nested (Parser.uncount states) = nested states ∧
      rooted (Parser.uncount states) = rooted states - 1 := by
  induction h with
  | bottom h hc => exact ⟨.bottom ⟨h.consumer, h.comment, h.kind⟩ hc, rfl, rfl⟩
  | @cons s rest h hrest ih =>
    have hne := hrest.ne_nil
    have hne' := uncount_ne_nil hne
    rw [uncount_cons hne, nested_cons hne', nested_cons hne, rooted_cons hne', rooted_cons hne]
    exact ⟨.cons h ih.1, by rw [ih.2.1], ih.2.2⟩

/-- The first value is taken from the root. -/
theorem Counts.takeFirst (h : Counts (d :: args) pending lost states) (hpending : pending ≠ 0) :
    Wrapped d ∧ Counts args (pending - 1) lost (Parser.uncount states) := by
  obtain ⟨henclosing, hnested, hrooted⟩ := uncount_spec h.enclosing
  have hcount := h.count
  have hroot := h.rooted
  rw [List.length_cons] at hcount
  obtain ⟨m, rfl⟩ := Nat.exists_eq_succ_of_ne_zero hpending
  refine ⟨h.wrapped d (List.mem_cons_self ..), henclosing, by omega, by omega, fun x hx => ?_⟩
  exact h.wrapped x (List.mem_cons_of_mem _ hx)

/-- The bottom of the stack goes on counting the values that are dropped. -/
theorem Counts.flush (h : Counts args pending lost states) :
    Counts [] 0 (lost + pending) (states.drop (states.length - 1)) := by
  obtain ⟨s, hdrop, hs, hroot⟩ : ∃ s, states.drop (states.length - 1) = [s] ∧ Enclosing [s] ∧
      Parse.rooted states = s.argn := by
    have henclosing := h.enclosing
    clear h
    induction henclosing with
    | @bottom s h hc => exact ⟨s, rfl, .bottom h hc, rfl⟩
    | @cons s rest h hrest ih =>
      obtain ⟨t, hdrop, ht, hroot⟩ := ih
      have hne := hrest.ne_nil
      have hpos := List.length_pos_of_ne_nil hne
      refine ⟨t, ?_, ht, (rooted_cons hne).trans hroot⟩
      rw [List.length_cons, show rest.length + 1 - 1 = (rest.length - 1) + 1 by omega, List.drop_succ_cons]
      exact hdrop
  have hrooted := h.rooted
  rw [hdrop]
  exact ⟨hs, rfl, by show s.argn = _; omega, fun d hd => absurd hd (List.not_mem_nil)⟩

end Taking

namespace Parser

variable {α β : Type} {p q : Parser} {lost : Nat} {literals : Literals} {print : Janet → List UInt8}
  {x : Janet} {c : UInt8} {top : ParseState} {rest : List ParseState}

/-! ## Calls that end well -/

/-- A call has returned or panicked, and has left a parser with the invariant. -/
inductive Fine (lost : Nat) : Outcome Text Fault α × Parser → Prop
  | returns {a : α} {q : Parser} (h : q.Inv lost) : Fine lost (.returns a, q)
  | throws {message : Text} {q : Parser} (h : q.Inv lost) : Fine lost (.throws message, q)

theorem Fine.bind {f : Parsing α} {g : α → Parsing β} (hf : Fine lost (f p))
    (hg : ∀ a q, f p = (.returns a, q) → q.Inv lost → Fine lost (g a q)) : Fine lost ((f >>= g) p) := by
  obtain ⟨r, hr⟩ : ∃ r, f p = r := ⟨_, rfl⟩
  rw [hr] at hf
  cases hf with
  | returns h =>
    rw [Computation.bind_of_returns hr]
    exact hg _ _ hr h
  | throws h =>
    rw [Computation.bind_of_throws hr]
    exact .throws h

theorem Fine.inv {r : Outcome Text Fault α × Parser} (h : Fine lost r) : r.2.Inv lost := by
  cases h with
  | returns h => exact h
  | throws h => exact h

theorem Fine.inside {r : Outcome Text Fault α × Parser} (h : Fine lost r) (fault : Fault) : r.1 ≠ .traps fault := by
  cases h <;> simp

theorem Inv.congr (h : p.Inv lost) (hstates : q.states = p.states) (hargs : q.args = p.args)
    (hpending : q.pending = p.pending) (hbuf : q.buf = p.buf) (herror : q.error = p.error)
    (hgenerated : q.generatedError = p.generatedError) : q.Inv lost :=
  ⟨h.ready.congr hstates hargs hpending hbuf, by rw [herror, hgenerated]; exact h.generated⟩

theorem checkdead_cases (p : Parser) : (∃ message, checkdead p = (.throws message, p)) ∨
    checkdead p = (.returns (), p) ∧ p.error = none ∧ p.dead = false := by
  unfold checkdead
  split_ifs with hdead herror
  · exact Or.inl ⟨_, rfl⟩
  · exact Or.inl ⟨_, rfl⟩
  · refine Or.inr ⟨rfl, by simpa using herror, ?_⟩
    simp only [Bool.or_eq_true, not_or, Bool.not_eq_true] at hdead
    exact hdead.1

/-- `janet_parser_consume` panics, or feeds the byte to the parser. -/
theorem consume_cases (h : p.Inv lost) : (∃ message, consume literals c p = (.throws message, p)) ∨
    ∃ q, consume literals c p = (.returns (), q) ∧ p.feed literals c = .ok q ∧ q.Inv lost ∧ q.pending ≤ p.pending + 1 := by
  rcases checkdead_cases p with ⟨message, hcheck⟩ | ⟨hcheck, herror, _⟩
  · exact Or.inl ⟨message, Computation.bind_of_throws hcheck⟩
  · obtain ⟨q, hq, hinv, _, hle⟩ := @feed_spec p lost c literals h herror
    refine Or.inr ⟨q, ?_, hq, hinv, hle⟩
    rw [consume, Computation.bind_of_returns hcheck, feeding, hq]

/-- A parser that is callable takes a byte. -/
theorem consume_spec (h : p.Inv lost) (herror : p.error = none) (hdead : p.dead = false) :
    ∃ q, consume literals c p = (.returns (), q) ∧ q.Inv lost ∧ q.dead = false ∧ q.pending ≤ p.pending + 1 := by
  obtain ⟨q, hq, hinv, hdead', hle⟩ := @feed_spec p lost c literals h herror
  have hcheck : checkdead p = (.returns (), p) := by
    have hgenerated := h.generated
    rw [herror] at hgenerated
    rw [checkdead, hdead, herror, Bool.eq_false_iff.mpr fun hg => absurd (hgenerated hg) (by decide)]
    rfl
  refine ⟨q, ?_, hinv, hdead'.trans hdead, hle⟩
  rw [consume, Computation.bind_of_returns hcheck, feeding, hq]

theorem consume_fine (h : p.Inv lost) : Fine lost (consume literals c p) := by
  rcases @consume_cases p lost literals c h with ⟨message, hp⟩ | ⟨q, hp, _, hinv, _⟩ <;> rw [hp]
  · exact .throws h
  · exact .returns hinv

theorem ended_inv {line column : Nat} (h : p.Inv lost) : (ended line column p).Inv lost := by
  unfold ended
  split_ifs
  · exact ⟨h.ready.congr rfl rfl rfl rfl, fun _ => rfl⟩
  · exact h.congr rfl rfl rfl rfl rfl rfl

theorem eof_fine (h : p.Inv lost) : Fine lost (eof literals p) := by
  have hcheck : Fine lost (checkdead p) := by
    rcases checkdead_cases p with ⟨message, hp⟩ | ⟨hp, _⟩ <;> rw [hp]
    · exact .throws h
    · exact .returns h
  exact hcheck.bind fun _ q _ hq => (consume_fine hq).bind fun _ q hq' hinv => .returns (ended_inv hinv)

/-- A parser that is callable can be ended. -/
theorem eof_spec (h : p.Inv lost) (herror : p.error = none) (hdead : p.dead = false) :
    ∃ q, eof literals p = (.returns (), q) ∧ q.Inv lost ∧ q.dead = true ∧ q.pending ≤ p.pending + 1 := by
  obtain ⟨q, hq, hinv, _, hle⟩ := @consume_spec p lost literals 10 h herror hdead
  have hcheck : checkdead p = (.returns (), p) := by
    rcases checkdead_cases p with ⟨message, hcheck⟩ | ⟨hcheck, _⟩
    · rw [consume, Computation.bind_of_throws hcheck] at hq
      cases hq
    · exact hcheck
  refine ⟨ended p.line p.column q, ?_, ended_inv hinv, rfl, ?_⟩
  · show (checkdead >>= fun _ => consume literals 10 >>= fun _ => Computation.modify (ended p.line p.column)) p = _
    rw [Computation.bind_of_returns hcheck, Computation.bind_of_returns hq]
    rfl
  · unfold ended
    split_ifs <;> exact hle

/-! ## The calls -/

/-- What taking a value does not touch. -/
structure Same (p q : Parser) : Prop where
  error : q.error = p.error
  dead : q.dead = p.dead
  generated : q.generatedError = p.generatedError

/-- The values at the root can be taken, one after the other. -/
theorem produce_spec {wrapped : Bool} (h : p.Inv lost) (hpending : p.pending ≠ 0) :
    ∃ d q, produce wrapped p = (.returns d, q) ∧ q.Inv lost ∧ q.pending = p.pending - 1 ∧ p.Same q := by
  have hfirst : ∃ d args, p.args = d :: args ∧ Wrapped d ∧
      ({ p with args := args, pending := p.pending - 1, states := uncount p.states } : Parser).Inv lost := by
    cases hargs : p.args with
    | nil =>
      have hcount : p.pending ≤ p.args.length := by
        cases h.ready with
        | root h => exact h.count ▸ Nat.le_add_right _ _
        | inside _ _ h _ => exact h.count ▸ Nat.le_add_right _ _
      rw [hargs] at hcount
      exact absurd (Nat.le_zero.mp hcount) hpending
    | cons d args =>
      refine ⟨d, args, rfl, ?_⟩
      cases h.ready with
      | root hcounts =>
        rw [hargs] at hcounts
        obtain ⟨hwrapped, hcounts⟩ := hcounts.takeFirst hpending
        exact ⟨hwrapped, .root hcounts, h.generated⟩
      | inside hp htop hcounts htoken =>
        rw [hargs] at hcounts
        obtain ⟨hwrapped, hcounts'⟩ := hcounts.takeFirst hpending
        refine ⟨hwrapped, .inside ?_ htop hcounts' htoken, h.generated⟩
        rw [hp, uncount_cons hcounts.enclosing.ne_nil]
  obtain ⟨d, args, hargs, ⟨line, column, x, rfl⟩, hinv⟩ := hfirst
  rw [produce, if_neg hpending, hargs]
  cases wrapped with
  | true => exact ⟨_, _, rfl, hinv, rfl, rfl, rfl, rfl⟩
  | false => exact ⟨_, _, rfl, hinv, rfl, rfl, rfl, rfl⟩

theorem produce_fine {wrapped : Bool} (h : p.Inv lost) : Fine lost (produce wrapped p) := by
  by_cases hpending : p.pending = 0
  · rw [produce, if_pos hpending]
    exact .returns h
  · obtain ⟨d, q, hq, hinv, _⟩ := @produce_spec p lost wrapped h hpending
    rw [hq]
    exact .returns hinv

theorem flush_inv (h : p.Inv lost) : p.flush.Inv (lost + p.pending) := by
  refine ⟨.root ?_, h.generated⟩
  cases h.ready with
  | root h => exact h.flush
  | @inside top rest hp htop h htoken =>
    have hpos := List.length_pos_of_ne_nil h.enclosing.ne_nil
    have hdrop : p.states.drop (p.states.length - 1) = rest.drop (rest.length - 1) := by
      rw [hp, List.length_cons, show rest.length + 1 - 1 = (rest.length - 1) + 1 by omega, List.drop_succ_cons]
    show Counts [] 0 _ (p.states.drop (p.states.length - 1))
    rw [hdrop]
    exact h.flush

theorem takeError_fine (h : p.Inv lost) :
    Fine (lost + if p.status = .error then p.pending else 0) (takeError p) := by
  unfold takeError
  cases hs : p.status with
  | error =>
    have hclear : ({ p with error := none, generatedError := false } : Parser).Inv lost :=
      ⟨h.ready.congr rfl rfl rfl rfl, Bool.noConfusion⟩
    exact .returns (flush_inv hclear)
  | root => exact .returns h
  | pending => exact .returns h
  | dead => exact .returns h

theorem setWhere_fine {line column : Option Int} (h : p.Inv lost) : Fine lost (setWhere line column p) := by
  refine Fine.bind ?_ fun _ q _ hq => Fine.bind ?_ fun _ q _ hq => .returns hq
  · cases line with
    | none => exact .returns h
    | some line =>
      simp only [setLine]
      split_ifs
      · exact .throws h
      · exact .returns (h.congr rfl rfl rfl rfl rfl rfl)
  · cases column with
    | none => exact .returns hq
    | some column =>
      simp only [setColumn]
      split_ifs
      · exact .throws hq
      · exact .returns (hq.congr rfl rfl rfl rfl rfl rfl)

/-! ## Putting values in -/

/-- The parser is in a comment that stands at the root. -/
def InRootComment (p : Parser) : Prop := ∃ s t, p.states = [s, t] ∧ s.flags.comment = true

theorem not_inRootComment (h : Counts p.args p.pending lost p.states) : ¬p.InRootComment := by
  rintro ⟨s, t, hp, hs⟩
  rw [hp] at h
  rw [h.enclosing.encloses.comment] at hs
  cases hs

/-- A space ends a token, and is used by what the token was inside of. -/
theorem feed_space (hs : p.states = top :: rest) (htop : top.Innermost) (h : Counts p.args p.pending lost rest)
    (ht : top.consumer = .tokenchar) (hbuf : p.buf ≠ []) (herror : p.error = none) :
    ∃ q, p.feed literals (byte ' ') = .ok q ∧ ¬q.InRootComment := by
  have hcomment : top.flags.comment = false := htop.not_comment (by rw [ht]; decide)
  have hadvance : p.advance (byte ' ') = { p with column := p.column + 1 } := rfl
  rw [feed, hadvance]
  have hconsumer : consumer literals { p with column := p.column + 1 } (byte ' ') =
      tokenchar literals { p with column := p.column + 1 } top (byte ' ') := by
    simp only [consumer, hs, ht]
  rcases @tokenchar_ends { p with column := p.column + 1 } lost top rest (byte ' ') literals hs h ht hbuf (by decide) with
    ⟨message, hq⟩ | ⟨q, hq, _, hcounts, herror'⟩
  · refine ⟨_, by rw [consumeLoop_failed (hconsumer.trans hq) rfl]; rfl, ?_⟩
    rintro ⟨s, t, hp, hs'⟩
    rw [show top = s from (List.cons.inj (hs.symm.trans hp)).1, hs'] at hcomment
    cases hcomment
  · have hnone : q.error = none := herror'.trans herror
    have hroot : q.consumer literals (byte ' ') = .ok (q, true) := by
      cases hstates : q.states with
      | nil => exact absurd hstates hcounts.enclosing.ne_nil
      | cons s below =>
        rw [hstates] at hcounts
        simp only [consumer, hstates, hcounts.enclosing.encloses.consumer]
        rfl
    refine ⟨{ q with lookback := some (byte ' ') }, ?_, not_inRootComment (p := { q with lookback := _ }) hcounts⟩
    rw [consumeLoop_next (hconsumer.trans hq) hnone, consumeLoop_used hroot]
    rfl

/-- A token that is finished does not lead into a comment. -/
theorem finishToken_fine (h : p.Inv lost) (hp : ¬p.InRootComment) :
    Fine lost (finishToken literals p) ∧ ¬(finishToken literals p).2.InRootComment := by
  cases hr : h.ready with
  | root hcounts =>
    cases hs : p.states with
    | nil => exact absurd hs hcounts.enclosing.ne_nil
    | cons s rest =>
      have hroot : s.consumer = .root := by
        rw [hs] at hcounts
        exact hcounts.enclosing.encloses.consumer
      have heq : finishToken literals p = (.returns (), p) := by
        simp only [finishToken, hs, hroot]
        rfl
      rw [heq]
      exact ⟨.returns h, hp⟩
  | @inside top rest hs htop hcounts htoken =>
    by_cases ht : top.consumer = .tokenchar
    · have hne : p.buf ≠ [] := (htoken ht).resolve_right id
      rcases @consume_cases p lost literals (byte ' ') h with ⟨message, hq⟩ | ⟨q, hq, hfeed, hinv, _⟩
      · have heq : finishToken literals p = (.throws message, p) := by
          simp only [finishToken, hs, if_pos ht]
          exact Computation.bind_of_throws hq
        rw [heq]
        exact ⟨.throws h, hp⟩
      · have heq : finishToken literals p = (.returns (), { q with column := q.column - 1 }) := by
          simp only [finishToken, hs, if_pos ht]
          rw [Computation.bind_of_returns hq]
          rfl
        have herror : p.error = none := by
          rcases checkdead_cases p with ⟨message, hcheck⟩ | ⟨_, herror, _⟩
          · rw [consume, Computation.bind_of_throws hcheck] at hq
            cases hq
          · exact herror
        obtain ⟨q', hfeed', hnot⟩ := @feed_space p lost literals top rest hs htop hcounts ht hne herror
        rw [hfeed] at hfeed'
        cases hfeed'
        rw [heq]
        exact ⟨.returns (hinv.congr rfl rfl rfl rfl rfl rfl), hnot⟩
    · have heq : finishToken literals p = (.returns (), p) := by
        simp only [finishToken, hs, if_neg ht]
      rw [heq]
      exact ⟨.returns h, hp⟩

theorem insertTop_fine (h : p.Inv lost) (hp : ¬p.InRootComment) : Fine lost (insertTop print x p) := by
  unfold insertTop
  cases h.ready with
  | root hcounts =>
    cases hs : p.states with
    | nil => exact absurd hs hcounts.enclosing.ne_nil
    | cons s below =>
      rw [hs] at hcounts
      simp only [hcounts.enclosing.encloses.comment, Bool.false_eq_true, if_false, insertAt, List.nil_append]
      split_ifs with hc hlength
      · have hnil : below = [] := by simpa [hs] using hlength
        subst hnil
        exact .returns ⟨.root (hcounts.pushRoot ⟨_, _, _, rfl⟩), h.generated⟩
      · have hne : below ≠ [] := fun hnil => hlength (by rw [hs, hnil]; rfl)
        exact .returns ⟨.root (hcounts.push hc hne), h.generated⟩
      · exact .returns ⟨.root (by rw [← hs] at hcounts; exact hcounts), h.generated⟩
      · exact .throws h
  | @inside top rest hs htop hcounts htoken =>
    have hbuf : (p.pushBuf (print x)).Inv lost := by
      refine ⟨.inside hs htop hcounts fun ht => Or.inl fun hnil => ?_, h.generated⟩
      exact (htoken ht).resolve_right id (List.append_eq_nil_iff.mp hnil).1
    simp only [hs]
    split_ifs with hcomment
    · cases hrest : rest with
      | nil => exact absurd hrest hcounts.enclosing.ne_nil
      | cons t below =>
        rw [hrest] at hcounts hs
        have hne : below ≠ [] := fun hnil => hp ⟨top, t, by rw [hs, hnil], hcomment⟩
        simp only [insertAt]
        split_ifs with hc hlength
        · rw [hs] at hlength
          simp at hlength
        · refine .returns ⟨.inside rfl htop (hcounts.push hc hne) fun ht => ?_, h.generated⟩
          exact htoken ht
        · exact .returns hbuf
        · exact .throws h
    · simp only [insertAt, htop.container, Bool.false_eq_true, if_false]
      split_ifs
      · exact .returns hbuf
      · exact .throws h

theorem insert_fine (h : p.Inv lost) (hp : ¬p.InRootComment) : Fine lost (insert literals print x p) := by
  obtain ⟨hfine, hnot⟩ := @finishToken_fine p lost literals h hp
  refine hfine.bind fun _ q hq hinv => insertTop_fine hinv ?_
  rw [hq] at hnot
  exact hnot

/-! ## Frames -/

/-- The arguments that the states count. -/
def owned : List ParseState → Nat
  | [] => 0
  | s :: states => s.owns + owned states

/-- The frames can be told exactly when the states do not count more arguments than there are. -/
theorem framesFrom_error {p : Parser} {fault : Fault} : ∀ {states : List ParseState} {stop : Nat},
    p.framesFrom states stop = .error fault ↔ fault = .memory ∧ stop < owned states
  | [], stop => by simp [framesFrom, owned]
  | s :: below, stop => by
    rw [framesFrom, owned]
    by_cases hle : s.owns ≤ stop
    · have ih := @framesFrom_error p fault below (stop - s.owns)
      rw [if_pos hle]
      cases hframes : p.framesFrom below (stop - s.owns) with
      | ok frames =>
        rw [hframes] at ih
        simp only [bind, Except.bind, reduceCtorEq, false_iff] at ih ⊢
        rintro ⟨hfault, hlt⟩
        exact ih ⟨hfault, by omega⟩
      | error fault' =>
        rw [hframes] at ih
        simp only [bind, Except.bind]
        rw [ih]
        exact and_congr_right fun _ => by omega
    · have hlt : stop < s.owns + owned below := by omega
      rw [if_neg hle, and_iff_left hlt, Except.error.injEq]
      exact eq_comm

theorem owned_eq {states : List ParseState} (h : Enclosing states) : owned states = nested states + rooted states := by
  induction h with
  | @bottom s h hc =>
    show s.owns + 0 = 0 + s.argn
    rw [owns_container hc]
    omega
  | @cons s rest h hrest ih =>
    rw [owned, ih, nested_cons hrest.ne_nil, rooted_cons hrest.ne_nil]
    omega

/-- **The frames cannot be told once values were dropped.** -/
theorem frames_error {fault : Fault} (h : p.Inv lost) : p.frames = .error fault ↔ fault = .memory ∧ 0 < lost := by
  have hsum : owned p.states = p.args.length + lost := by
    cases h.ready with
    | root h =>
      have hcount := h.count
      have hrooted := h.rooted
      rw [owned_eq h.enclosing]
      omega
    | @inside top rest hs htop h htoken =>
      have hcount := h.count
      have hrooted := h.rooted
      rw [hs, owned, owns_other htop.container, owned_eq h.enclosing]
      omega
  rw [frames, framesFrom_error, hsum]
  exact and_congr_right fun _ => by omega

/-! ## Runs -/

/-- A call of the interface. -/
inductive Request where
  | consume (c : UInt8)
  | eof
  | flush
  | error
  | produce (wrapped : Bool)
  | insert (x : Janet)
  | setWhere (line column : Option Int)

/-- A parser, and how many values it has completed and dropped. -/
structure Session where
  parser : Parser
  lost : Nat

/-- The values that a call drops. -/
def drops (p : Parser) : Request → Nat
  | .flush => p.pending
  | .error => if p.status = .error then p.pending else 0
  | _ => 0

/-- The call is no `insert` into a comment at the root. -/
def Request.Placed (p : Parser) : Request → Prop
  | .insert _ => ¬p.InRootComment
  | _ => True

section Runs

variable (literals print)

/-- Make a call, and forget what it returns. -/
def perform : Request → Parsing Unit
  | .consume c => consume literals c
  | .eof => eof literals
  | .flush => Computation.modify flush
  | .error => do let _ ← takeError
  | .produce wrapped => do let _ ← produce wrapped
  | .insert x => insert literals print x
  | .setWhere line column => do let _ ← setWhere line column

/-- A parser that is called in any order. -/
def calls : Machine Session Request where
  start s := s = ⟨init, 0⟩
  step s r :=
    match perform literals print r s.parser with
    | (.returns _, q) => some ⟨q, s.lost + drops s.parser r⟩
    | (.throws _, q) => some ⟨q, s.lost + drops s.parser r⟩
    | _ => none

/-- What can be seen of a parser that stays inside its memory. -/
structure Inside (s : Session) : Prop where
  /-- the arguments are the values that wait at the root, and those of the open containers -/
  accounted : s.parser.args.length = s.parser.pending + nested s.parser.states
  /-- no call leaves a block -/
  faultless : ∀ r : Request, r.Placed s.parser → ∀ fault, (perform literals print r s.parser).1 ≠ .traps fault
  /-- but the frames do, once values were dropped -/
  frames : ∀ fault, s.parser.frames = .error fault ↔ fault = .memory ∧ 0 < s.lost
  /-- a byte completes one value at most -/
  one : ∀ c, (consume literals c s.parser).2.pending ≤ s.parser.pending + 1

end Runs

theorem init_inv : init.Inv 0 where
  ready := .root ⟨.bottom ⟨rfl, rfl, Or.inl rfl⟩ rfl, rfl, rfl, fun _ hd => absurd hd List.not_mem_nil⟩
  generated h := Bool.noConfusion h

/-- Every call keeps the invariant. -/
theorem perform_fine (h : p.Inv lost) {r : Request} (hr : r.Placed p) :
    Fine (lost + drops p r) (perform literals print r p) := by
  cases r with
  | consume c => exact consume_fine h
  | eof => exact eof_fine h
  | flush => exact .returns (flush_inv h)
  | error => exact (takeError_fine h).bind fun _ q _ hq => .returns hq
  | produce wrapped => exact (produce_fine h).bind fun _ q _ hq => .returns hq
  | insert x => exact insert_fine h hr
  | setWhere line column => exact (setWhere_fine h).bind fun _ q _ hq => .returns hq

theorem Inv.accounted (h : p.Inv lost) : p.args.length = p.pending + nested p.states := by
  cases h.ready with
  | root h => exact h.count
  | inside hs htop h htoken =>
    rw [hs, nested_cons h.enclosing.ne_nil, owns_other htop.container, Nat.zero_add]
    exact h.count

theorem Inv.inside {s : Session} (h : s.parser.Inv s.lost) : Inside literals print s where
  accounted := h.accounted
  faultless _ hr := (perform_fine h hr).inside
  frames _ := frames_error h
  one c := by
    rcases @consume_cases s.parser s.lost literals c h with ⟨message, hq⟩ | ⟨q, hq, _, _, hle⟩ <;> rw [hq]
    · exact Nat.le_succ _
    · exact hle

theorem step_calls {s t : Session} {r : Request} (h : (calls literals print).step s r = some t) :
    t = ⟨(perform literals print r s.parser).2, s.lost + drops s.parser r⟩ := by
  simp only [calls] at h
  split at h
  · rename_i heq
    rw [heq]
    exact (Option.some.inj h).symm
  · rename_i heq
    rw [heq]
    exact (Option.some.inj h).symm
  · cases h

/-- A value that is put into a comment at the root is not accounted for. -/
theorem not_accounted (h : p.Inv lost) (hp : p.InRootComment) :
    (insert literals print x p).2.args.length ≠
      (insert literals print x p).2.pending + nested (insert literals print x p).2.states := by
  obtain ⟨s, t, hs, hcomment⟩ := hp
  have haccounted := h.accounted
  cases h.ready with
  | root hcounts => exact absurd ⟨s, t, hs, hcomment⟩ (not_inRootComment hcounts)
  | @inside top rest hs' htop hcounts htoken =>
    obtain ⟨rfl, rfl⟩ := List.cons.inj (hs'.symm.trans hs)
    have hfinish : finishToken literals p = (.returns (), p) := by
      simp only [finishToken, hs, htop.comment hcomment]
      rfl
    have hc := hcounts.enclosing.of_bottom
    rw [insert, Computation.bind_of_returns hfinish]
    simp only [insertTop, hs, hcomment, if_true, insertAt, hc, List.length_cons, List.length_nil,
      Nat.reduceAdd, Nat.reduceEqDiff, if_false, pushArg, List.length_append, List.singleton_append]
    rw [hs] at haccounted
    simp only [nested] at haccounted ⊢
    omega

/-- **No run leaves a block of memory**, and all arguments stay accounted for, exactly when no value is put into a comment
at the root. -/
theorem calls_inside_iff (requests : List Request) :
    (calls literals print).Visits (Inside literals print) ⟨init, 0⟩ requests ↔
      (calls literals print).Makes (fun s r => r.Placed s.parser) ⟨init, 0⟩ requests := by
  refine Machine.visits_iff_makes (I := fun s : Session => s.parser.Inv s.lost) (fun s hs => Inv.inside hs)
    (fun s r t hs hstep hr => ?_) (fun s r t hs hstep ht => ?_) requests ⟨init, 0⟩ init_inv
  · rw [step_calls hstep]
    exact (perform_fine hs hr).inv
  · cases r with
    | insert x =>
      intro hcomment
      rw [step_calls hstep] at ht
      exact not_accounted hs hcomment ht.accounted
    | _ => trivial

/-- The value in the comment is taken for the tuple of the next one. -/
example : ((calls ⟨fun _ => none, fun _ _ => false⟩ fun _ => []).run ⟨init, 0⟩
    [.consume (byte '#'), .insert janetWrapTrue, .consume 10, .consume (byte 'a'), .consume 10]).map
      (fun s => (produce false s.parser).1 matches .traps .memory) = some true := by decide

end Parser

end SwiftJanet.Parse
