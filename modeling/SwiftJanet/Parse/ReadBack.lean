import Mathlib.Data.List.Forall2
import SwiftJanet.Parse.Calls
import SwiftJanet.Parse.Print

/-!
# What is printed is read again

A parser that awaits a value, fed what `printJdn` makes of a piece of data and a byte that can follow, has got the same
data but for the places of its tuples (`reads_printJdn`). So printing and reading a text is the identity on data that can
be read (`readText_printJdn`).

- `Moved`: a parser, but for the place of the next byte;
- `Reads`: the text of one value. A string or a container ends by itself, and a token with the byte behind it, so the
  statement is about the parser that gets that byte.
-/

namespace SwiftJanet.Parse

open Lib

namespace Parser

variable {literals : Literals} {dtostr : Double → List UInt8} {p q r : Parser} {c t : UInt8}
  {bytes name : List UInt8} {d : Datum} {s : ParseState} {rest : List ParseState} {flags : Flags}

/-! ## Places -/

/-- A parser, with another place of the next byte. -/
def moved (p : Parser) (place : Nat × Nat × Option UInt8) : Parser :=
  { p with line := place.1, column := place.2.1, lookback := place.2.2 }

@[simp] theorem moved_states (place : Nat × Nat × Option UInt8) : (p.moved place).states = p.states := rfl

@[simp] theorem moved_args (place : Nat × Nat × Option UInt8) : (p.moved place).args = p.args := rfl

@[simp] theorem moved_buf (place : Nat × Nat × Option UInt8) : (p.moved place).buf = p.buf := rfl

@[simp] theorem moved_error (place : Nat × Nat × Option UInt8) : (p.moved place).error = p.error := rfl

/-- `q` is `p`, but for the place of the next byte. -/
def Moved (p q : Parser) : Prop := ∃ place, q = p.moved place

theorem Moved.refl (p : Parser) : Moved p p := ⟨(p.line, p.column, p.lookback), rfl⟩

theorem Moved.trans (h : Moved p q) (h' : Moved q r) : Moved p r := by
  obtain ⟨place, rfl⟩ := h
  obtain ⟨place', rfl⟩ := h'
  exact ⟨place', rfl⟩

theorem Moved.advance (c : UInt8) : Moved p (p.advance c) := by
  unfold Parser.advance
  split_ifs <;> exact ⟨(_, _, _), rfl⟩

theorem Moved.lookback (c : UInt8) : Moved p { p with lookback := some c } := ⟨(_, _, _), rfl⟩

/-! ## Feeding -/

/-- The parser can be called. -/
structure Alive (p : Parser) : Prop where
  error : p.error = none
  dead : p.dead = false
  generated : p.generatedError = false

theorem Alive.moved (h : p.Alive) (hm : Moved p q) : q.Alive := by
  obtain ⟨place, rfl⟩ := hm
  exact ⟨h.error, h.dead, h.generated⟩

/-- Feed one byte after the other. -/
def consumeAll (literals : Literals) : List UInt8 → Parsing Unit
  | [] => pure ()
  | c :: bytes => do
    consume literals c
    consumeAll literals bytes

/-- The bytes lead from one parser to the other. -/
def Feeds (literals : Literals) (p : Parser) (bytes : List UInt8) (q : Parser) : Prop :=
  consumeAll literals bytes p = (.returns (), q)

theorem Feeds.nil : Feeds literals p [] p := rfl

theorem Feeds.append {bytes' : List UInt8} (h : Feeds literals p bytes q) (h' : Feeds literals q bytes' r) :
    Feeds literals p (bytes ++ bytes') r := by
  induction bytes generalizing p with
  | nil =>
    cases h
    exact h'
  | cons c bytes ih =>
    obtain ⟨_, p', hc, hrest⟩ := Computation.returns_of_bind h
    show (consume literals c >>= fun _ => consumeAll literals (bytes ++ bytes')) p = _
    rw [Computation.bind_of_returns hc]
    exact ih hrest

/-- Bytes that lead somewhere lead there step by step. -/
theorem Feeds.split {bytes' : List UInt8} (h : Feeds literals p (bytes ++ bytes') r) :
    ∃ q, Feeds literals p bytes q ∧ Feeds literals q bytes' r := by
  induction bytes generalizing p with
  | nil => exact ⟨p, .nil, h⟩
  | cons c bytes ih =>
    obtain ⟨_, p', hc, hrest⟩ := Computation.returns_of_bind h
    obtain ⟨q, hq, hq'⟩ := ih hrest
    exact ⟨q, (Computation.bind_of_returns hc).trans hq, hq'⟩

/-- A byte is fed to a parser that can be called. -/
theorem Feeds.one (h : p.Alive) (hloop : (p.advance c).consumeLoop literals c 3 = .ok q) :
    Feeds literals p [c] { q with lookback := some c } := by
  have hcheck : checkdead p = (.returns (), p) := by
    rw [checkdead, h.error, h.dead, h.generated]
    rfl
  show (consume literals c >>= fun _ => pure ()) p = _
  have hconsume : consume literals c p = (.returns (), { q with lookback := some c }) := by
    rw [consume, Computation.bind_of_returns hcheck, feeding, feed, hloop]
    rfl
  rw [Computation.bind_of_returns hconsume]
  rfl

/-! ## Getting a value -/

/-- The parser is inside a container, between two values. -/
structure Awaits (p : Parser) : Prop extends Alive p where
  top : ∃ s rest, p.states = s :: rest ∧ s.consumer = .root ∧ s.flags.container = true
  buf : p.buf = []

theorem Awaits.moved (h : p.Awaits) (hm : Moved p q) : q.Awaits := by
  obtain ⟨place, rfl⟩ := hm
  exact ⟨⟨h.error, h.dead, h.generated⟩, h.top, h.buf⟩

/-- The container gets a value. -/
def receive (p : Parser) (line column : Int) (d : Datum) : Parser :=
  match p.states with
  | [] => p
  | s :: rest =>
    let q := { p with states := { s with argn := s.argn + 1 } :: rest }
    if rest.isEmpty then { q with pending := q.pending + 1, args := q.args ++ [.tuple false line column [d]] }
    else { q with args := q.args ++ [d] }

/-- The container has got the datum, with places of its own. -/
def Receives (p : Parser) (d : Datum) (q : Parser) : Prop :=
  ∃ d' line column, d'.plain = d.plain ∧ Moved (p.receive line column d') q

theorem receive_moved (p : Parser) (place : Nat × Nat × Option UInt8) (line column : Int) (d : Datum) :
    (p.moved place).receive line column d = (p.receive line column d).moved place := by
  unfold receive
  rw [moved_states]
  cases p.states with
  | nil => rfl
  | cons s rest => cases rest <;> rfl

theorem Receives.moved (h : Receives p d q) (hm : Moved q r) : Receives p d r := by
  obtain ⟨d', line, column, hd, hq⟩ := h
  exact ⟨d', line, column, hd, hq.trans hm⟩

theorem Receives.states (h : Receives p d q) (hs : p.states = s :: rest) : ∃ s', q.states = s' :: rest := by
  obtain ⟨d', line, column, _, place, rfl⟩ := h
  rw [moved_states, receive, hs]
  cases rest <;> exact ⟨_, rfl⟩

theorem Awaits.receives (h : p.Awaits) (hq : Receives p d q) : q.Awaits := by
  obtain ⟨d', line, column, _, hm⟩ := hq
  obtain ⟨s, rest, hs, hroot, hc⟩ := h.top
  refine Awaits.moved ?_ hm
  unfold receive
  rw [hs]
  cases rest with
  | nil => exact ⟨⟨h.error, h.dead, h.generated⟩, ⟨_, _, rfl, hroot, hc⟩, h.buf⟩
  | cons _ _ => exact ⟨⟨h.error, h.dead, h.generated⟩, ⟨_, _, rfl, hroot, hc⟩, h.buf⟩

theorem plain_mapped (line column : Int) (d : Datum) : (d.mapped line column).plain = d.plain := by
  cases d <;> simp only [Datum.mapped, Datum.plain]

/-- Popping a state gives the value to the container below. -/
theorem popLoop_receive (hs : p.states = s :: rest) (hc : s.flags.container = true) (top : ParseState) (val : Datum)
    {states : List ParseState} : popLoop { p with states := states } (top :: s :: rest) val =
      .ok (p.receive top.line top.column (val.mapped top.line top.column)) := by
  rw [popLoop, receive, hs]
  simp only [hc, if_true]
  cases rest <;> rfl

/-- The parser has entered a state, and has read some bytes there. -/
def entered (p : Parser) (top : ParseState) (bytes : List UInt8) : Parser :=
  { p with states := top :: p.states, buf := bytes }

/-- A state that was entered is popped with its value. -/
theorem popstate_entered (h : p.Awaits) {top : ParseState} {place : Nat × Nat × Option UInt8}
    (hq : q = (p.entered top bytes).moved place) (val : Datum) :
    ∃ r, popstate { q with buf := [] } val = .ok r ∧ Receives p val r := by
  obtain ⟨s, rest, hs, hroot, hc⟩ := h.top
  have hpop := @popLoop_receive (p.moved place) s rest hs hc top val (top :: s :: rest)
  refine ⟨_, ?_, val.mapped top.line top.column, top.line, top.column, plain_mapped _ _ _, ⟨place, receive_moved ..⟩⟩
  rw [← hpop, hq, popstate]
  simp only [Parser.moved, entered, hs, h.buf]

/-! ## Reading a text -/

/-- The bytes that can follow a value: a space, the end of a line, and a closing delimiter. -/
def Ends (t : UInt8) : Prop := t = byte ' ' ∨ t = 10 ∨ t = byte ')' ∨ t = byte ']' ∨ t = byte '}'

/-- The bytes are the text of the datum: with the byte behind them, the parser has got the datum before it uses that
byte. -/
def Reads (literals : Literals) (p : Parser) (bytes : List UInt8) (d : Datum) : Prop :=
  ∀ t, Ends t → ∃ q, Receives p d q ∧ ∀ q', q.consumer literals t = .ok (q', true) →
    Feeds literals p (bytes ++ [t]) { q' with lookback := some t }

/-- The text ends by itself. -/
theorem Reads.of_closed (h : p.Awaits) (hf : Feeds literals p bytes q) (hq : Receives p d q) : Reads literals p bytes d := by
  intro t _
  have hawaits := h.receives hq
  refine ⟨q.advance t, hq.moved (.advance t), fun q' hq' => hf.append (.one hawaits.toAlive ?_)⟩
  exact consumeLoop_used hq'

section Steps

variable {R : Parser → Prop}

/-- A byte that one consumer uses. -/
theorem Feeds.step (h : p.Alive) (hm : Moved p q) (hR : ∀ {r r'}, Moved r r' → R r → R r')
    (hstep : ∀ place, ∃ r, (p.moved place).consumer literals c = .ok (r, true) ∧ R r) :
    ∃ r, Feeds literals q [c] r ∧ R r := by
  obtain ⟨place, hplace⟩ := hm.trans (.advance c)
  obtain ⟨r, hr, hRr⟩ := hstep place
  refine ⟨_, .one (h.moved hm) (consumeLoop_used (q := r) ?_), hR (.lookback c) hRr⟩
  rw [hplace]
  exact hr

/-- A byte that one consumer hands on to another. -/
theorem Feeds.step₂ (h : p.Alive) (hm : Moved p q) (hR : ∀ {r r'}, Moved r r' → R r → R r')
    (hstep : ∀ place, ∃ m r, (p.moved place).consumer literals c = .ok (m, false) ∧ m.error = none ∧
      m.consumer literals c = .ok (r, true) ∧ R r) : ∃ r, Feeds literals q [c] r ∧ R r := by
  obtain ⟨place, hplace⟩ := hm.trans (.advance c)
  obtain ⟨m, r, hm, herror, hr, hRr⟩ := hstep place
  rw [← hplace] at hm
  exact ⟨_, .one (h.moved ‹_›) ((consumeLoop_next hm herror).trans (consumeLoop_used hr)), hR (.lookback c) hRr⟩

end Steps

/-! ## Strings -/

/-- The parser is inside a string, which it entered in `p`. -/
def InString (p : Parser) (flags : Flags) (bytes : List UInt8) (q : Parser) : Prop :=
  ∃ top : ParseState, top.flags = flags ∧ top.consumer = .stringchar ∧ Moved (p.entered top bytes) q

theorem InString.moved (hm : Moved q r) (h : InString p flags bytes q) : InString p flags bytes r := by
  obtain ⟨top, hflags, htop, hq⟩ := h
  exact ⟨top, hflags, htop, hq.trans hm⟩

theorem Awaits.entered_alive (h : p.Awaits) (top : ParseState) (bytes : List UInt8) : (p.entered top bytes).Alive :=
  ⟨h.error, h.dead, h.generated⟩

/-- A byte that stands for itself. -/
theorem InString.plain (h : p.Awaits) (hq : InString p flags bytes q) (hslash : (c == byte '\\') = false)
    (hquote : (c == byte '"') = false) (hline : (c != 10 && c != 13) = true) :
    ∃ r, Feeds literals q [c] r ∧ InString p flags (bytes ++ [c]) r := by
  obtain ⟨top, hflags, htop, hm⟩ := hq
  refine Feeds.step (R := InString p flags (bytes ++ [c])) (h.entered_alive top bytes) hm InString.moved fun place =>
    ⟨(p.entered top (bytes ++ [c])).moved place, ?_, top, hflags, htop, place, rfl⟩
  simp only [consumer, moved_states, entered, htop, stringchar, hslash, hquote, hline, Bool.false_eq_true, if_false,
    if_true]
  rfl

/-- A byte that changes the state at the top, and perhaps the buffer. -/
theorem Feeds.set {top top' : ParseState} {bytes' : List UInt8} (h : p.Awaits) (hm : Moved (p.entered top bytes) q)
    (hstep : ∀ place, ((p.entered top bytes).moved place).consumer literals c =
      .ok ((p.entered top' bytes').moved place, true)) :
    ∃ r, Feeds literals q [c] r ∧ Moved (p.entered top' bytes') r :=
  Feeds.step (R := Moved (p.entered top' bytes')) (h.entered_alive top bytes) hm (fun hm h => h.trans hm)
    fun place => ⟨_, hstep place, place, rfl⟩

/-- A backslash. -/
theorem Feeds.backslash {top : ParseState} (h : p.Awaits) (htop : top.consumer = .stringchar)
    (hm : Moved (p.entered top bytes) q) :
    ∃ r, Feeds literals q [byte '\\'] r ∧ Moved (p.entered { top with consumer := .escape1 } bytes) r :=
  Feeds.set h hm fun place => by
    simp only [consumer, moved_states, entered, htop]
    rfl

/-- A letter behind a backslash. -/
theorem InString.escape {e : UInt8} (h : p.Awaits) (hq : InString p flags bytes q) (hc : checkescape c = some e)
    (hx : (c == byte 'x') = false) (hu : (c == byte 'u' || c == byte 'U') = false) :
    ∃ r, Feeds literals q [byte '\\', c] r ∧ InString p flags (bytes ++ [e]) r := by
  obtain ⟨top, hflags, htop, hm⟩ := hq
  obtain ⟨m, hfeed, hm⟩ := @Feeds.backslash literals p q bytes top h htop hm
  obtain ⟨r, hfeed', hm⟩ := @Feeds.set literals p m c bytes _ { top with consumer := .stringchar } (bytes ++ [e]) h hm
    fun place => by
      simp only [consumer, moved_states, entered, escape1, hc, hx, hu, Bool.false_eq_true, if_false]
      rfl
  exact ⟨r, hfeed.append hfeed', { top with consumer := .stringchar }, hflags, rfl, hm⟩

/-- Two digits behind a backslash and an `x`. -/
theorem InString.hex {a b : UInt8} {m n : Nat} (h : p.Awaits) (hq : InString p flags bytes q) (ha : toHex a = some m)
    (hb : toHex b = some n) : ∃ r, Feeds literals q [byte '\\', byte 'x', a, b] r ∧
      InString p flags (bytes ++ [UInt8.ofNat ((((0 <<< 4 + m) <<< 4) + n) &&& 0xFF)]) r := by
  obtain ⟨top, hflags, htop, hm⟩ := hq
  obtain ⟨q₁, hfeed, hm⟩ := @Feeds.backslash literals p q bytes top h htop hm
  obtain ⟨q₂, hfeed', hm⟩ := @Feeds.set literals p q₁ (byte 'x') bytes _
    { top with consumer := .escapeh, counter := 2, argn := 0 } bytes h hm fun place => by
      simp only [consumer, moved_states, entered, escape1]
      rfl
  obtain ⟨q₃, hfeed₃, hm⟩ := @Feeds.set literals p q₂ a bytes _
    { top with consumer := .escapeh, counter := 1, argn := 0 <<< 4 + m } bytes h hm fun place => by
      simp only [consumer, moved_states, entered, escapeh, ha]
      rfl
  obtain ⟨r, hfeed₄, hm⟩ := @Feeds.set literals p q₃ b bytes _
    { top with consumer := .stringchar, counter := 0, argn := 0 }
    (bytes ++ [UInt8.ofNat ((((0 <<< 4 + m) <<< 4) + n) &&& 0xFF)]) h hm fun place => by
      simp only [consumer, moved_states, entered, escapeh, hb]
      rfl
  exact ⟨r, (hfeed.append hfeed').append (hfeed₃.append hfeed₄),
    { top with consumer := .stringchar, counter := 0, argn := 0 }, hflags, rfl, hm⟩

/-- The digits of a byte. -/
theorem toHex_hexDigit (c : UInt8) : toHex (hexDigit (c >>> 4 &&& 0xF)) = some (c.toNat / 16) ∧
    toHex (hexDigit (c &&& 0xF)) = some (c.toNat % 16) ∧
    UInt8.ofNat ((((0 <<< 4 + c.toNat / 16) <<< 4) + c.toNat % 16) &&& 0xFF) = c := by
  have hall : ∀ n : Fin 256, toHex (hexDigit (UInt8.ofNat n >>> 4 &&& 0xF)) = some ((UInt8.ofNat n).toNat / 16) ∧
      toHex (hexDigit (UInt8.ofNat n &&& 0xF)) = some ((UInt8.ofNat n).toNat % 16) ∧
      UInt8.ofNat ((((0 <<< 4 + (UInt8.ofNat n).toNat / 16) <<< 4) + (UInt8.ofNat n).toNat % 16) &&& 0xFF) =
        UInt8.ofNat n := by decide +kernel
  have hc := hall ⟨c.toNat, c.toNat_lt⟩
  rw [UInt8.ofNat_toNat] at hc
  exact hc

/-- The text adds the byte to the string. -/
def Adds (literals : Literals) (p : Parser) (flags : Flags) (bytes : List UInt8) (q : Parser) (c : UInt8)
    (text : List UInt8) : Prop :=
  ∃ r, Feeds literals q text r ∧ InString p flags (bytes ++ [c]) r

theorem Adds.ite {b : Prop} [Decidable b] {text text' : List UInt8} (hx : b → Adds literals p flags bytes q c text)
    (hy : ¬b → Adds literals p flags bytes q c text') : Adds literals p flags bytes q c (if b then text else text') :=
  iteInduction (motive := Adds literals p flags bytes q c) hx hy

/-- **An escaped byte is read as itself.** -/
theorem InString.escapeByte (h : p.Awaits) (hq : InString p flags bytes q) (c : UInt8) :
    Adds literals p flags bytes q c (Parse.escapeByte c) := by
  have hletter : ∀ e l : UInt8, checkescape l = some e ∧ (l == byte 'x') = false ∧
      (l == byte 'u' || l == byte 'U') = false → (c == e) = true → Adds literals p flags bytes q c [byte '\\', l] :=
    fun e l hl hc => by
      rw [Adds, beq_iff_eq.mp hc]
      exact hq.escape h hl.1 hl.2.1 hl.2.2
  refine .ite (hletter (byte '"') (byte '"') (by decide)) fun hquote => ?_
  refine .ite (hletter 10 (byte 'n') (by decide)) fun hline => ?_
  refine .ite (hletter 13 (byte 'r') (by decide)) fun hreturn => ?_
  refine .ite (hletter 0 (byte '0') (by decide)) fun _ => .ite (hletter 12 (byte 'f') (by decide)) fun _ => ?_
  refine .ite (hletter 11 (byte 'v') (by decide)) fun _ => .ite (hletter 7 (byte 'a') (by decide)) fun _ => ?_
  refine .ite (hletter 8 (byte 'b') (by decide)) fun _ => .ite (hletter 27 (byte 'e') (by decide)) fun _ => ?_
  refine .ite (hletter (byte '\\') (byte '\\') (by decide)) fun hslash => ?_
  refine .ite (hletter 9 (byte 't') (by decide)) fun _ => .ite (fun _ => ?_) fun _ => ?_
  · obtain ⟨hhigh, hlow, hc⟩ := toHex_hexDigit c
    obtain ⟨r, hfeed, hr⟩ := @InString.hex literals p q bytes flags _ _ _ _ h hq hhigh hlow
    rw [hc] at hr
    exact ⟨r, hfeed, hr⟩
  · refine hq.plain h (by simpa using hslash) (by simpa using hquote) ?_
    rw [Bool.and_eq_true, bne_iff_ne, bne_iff_ne]
    exact ⟨fun h => hline (beq_iff_eq.mpr h), fun h => hreturn (beq_iff_eq.mpr h)⟩

theorem InString.escapeString (h : p.Awaits) : ∀ {bytes text : List UInt8} {q : Parser}, InString p flags bytes q →
    ∃ r, Feeds literals q (text.flatMap Parse.escapeByte) r ∧ InString p flags (bytes ++ text) r
  | bytes, [], q, hq => ⟨q, .nil, by rw [List.append_nil]; exact hq⟩
  | bytes, c :: text, q, hq => by
    obtain ⟨m, hfeed, hm⟩ := @InString.escapeByte literals p q bytes flags h hq c
    obtain ⟨r, hfeed', hr⟩ : ∃ r, Feeds literals m (text.flatMap Parse.escapeByte) r ∧
        InString p flags (bytes ++ [c] ++ text) r := InString.escapeString h hm
    rw [List.append_assoc, List.singleton_append] at hr
    exact ⟨r, hfeed.append hfeed', hr⟩

/-- The parser has entered a state with these flags. -/
def Entered (p : Parser) (consumer : Consumer) (flags : Flags) (q : Parser) : Prop :=
  ∃ top : ParseState, top.flags = flags ∧ top.consumer = consumer ∧ top.argn = 0 ∧ Moved (p.entered top []) q

theorem Entered.moved {consumer : Consumer} (hm : Moved q r) (h : Entered p consumer flags q) :
    Entered p consumer flags r := by
  obtain ⟨top, hflags, htop, hargn, hq⟩ := h
  exact ⟨top, hflags, htop, hargn, hq.trans hm⟩

theorem entered_pushstate {consumer : Consumer} (h : p.Awaits) (place : Nat × Nat × Option UInt8) :
    Entered p consumer flags ((p.moved place).pushstate consumer flags) :=
  ⟨⟨0, 0, flags, consumer, place.1, place.2.1⟩, rfl, rfl, rfl, place, by
    simp only [pushstate, entered, Parser.moved, h.buf]⟩

/-- The parser enters a state. -/
theorem Feeds.enter {consumer : Consumer} (h : p.Awaits) (hroot : ∀ (place : Nat × Nat × Option UInt8) (s : ParseState),
    (p.moved place).root literals s c = .ok ((p.moved place).pushstate consumer flags, true)) :
    ∃ r, Feeds literals p [c] r ∧ Entered p consumer flags r :=
  Feeds.step (R := Entered p consumer flags) h.toAlive (.refl p) Entered.moved fun place => by
    obtain ⟨s, rest, hs, hroot', _⟩ := h.top
    refine ⟨(p.moved place).pushstate consumer flags, ?_, entered_pushstate h place⟩
    simp only [Parser.consumer, moved_states, hs, hroot']
    exact hroot place s

/-- The parser enters a state behind an `@`. -/
theorem Feeds.enterAt {consumer : Consumer} (h : p.Awaits) (hat : ∀ q : Parser, q.atsign c =
      (({ q with states := q.states.tail } : Parser).pushstate consumer flags, true)) :
    ∃ r, Feeds literals p [byte '@', c] r ∧ Entered p consumer flags r := by
  obtain ⟨q, hfeed, top, hflags, htop, hargn, hm⟩ := @Feeds.enter literals p (byte '@') { atsym := true } .atsign h
    fun _ _ => rfl
  obtain ⟨r, hfeed', hr⟩ := @Feeds.step literals (p.entered top []) q c (Entered p consumer flags)
    (h.entered_alive top []) hm Entered.moved fun place => by
      refine ⟨(p.moved place).pushstate consumer flags, ?_, entered_pushstate h place⟩
      simp only [Parser.consumer, moved_states, entered, htop]
      rw [hat]
      simp only [pushstate, Parser.moved, List.tail_cons, h.buf]
  exact ⟨r, hfeed.append hfeed', hr⟩

/-- The quote that ends a string. -/
theorem InString.close (h : p.Awaits) (hq : InString p flags bytes q) (hlong : flags.longstring = false) :
    ∃ r, Feeds literals q [byte '"'] r ∧ Receives p (if flags.buffer then .buffer bytes else .string bytes) r := by
  obtain ⟨top, hflags, htop, hm⟩ := hq
  refine Feeds.step (R := Receives p (if flags.buffer then .buffer bytes else .string bytes))
    (h.entered_alive top bytes) hm (fun hm h => h.moved hm) fun place => ?_
  obtain ⟨r, hpop, hr⟩ := @popstate_entered p ((p.entered top bytes).moved place) bytes h top place rfl
    (if flags.buffer then .buffer bytes else .string bytes)
  refine ⟨r, ?_, hr⟩
  have hend : stringchar ((p.entered top bytes).moved place) top (byte '"') = .ok r := by
    rw [← hpop]
    show stringend _ top = _
    rw [stringend, hflags, hlong]
    rfl
  simp only [consumer, moved_states, entered, htop]
  show (stringchar ((p.entered top bytes).moved place) top (byte '"') >>= fun q => Except.ok (q, true)) = _
  rw [hend]
  rfl

/-- **A string is read as itself.** -/
theorem reads_string (h : p.Awaits) : Reads literals p (escapeString bytes) (.string bytes) := by
  obtain ⟨q, hfeed, top, hflags, htop, _, hq⟩ := @Feeds.enter literals p (byte '"') { string := true } .stringchar h
    fun _ _ => rfl
  obtain ⟨r, hfeed', hr⟩ := @InString.escapeString literals p { string := true } h [] bytes q ⟨top, hflags, htop, hq⟩
  obtain ⟨r', hfeed'', hr'⟩ := @InString.close literals p r bytes { string := true } h hr rfl
  exact .of_closed h ((hfeed.append hfeed').append hfeed'') hr'

/-- **A buffer is read as itself.** -/
theorem reads_buffer (h : p.Awaits) : Reads literals p (byte '@' :: escapeString bytes) (.buffer bytes) := by
  obtain ⟨q, hfeed, top, hflags, htop, _, hq⟩ := @Feeds.enterAt literals p (byte '"') { buffer := true, string := true }
    .stringchar h fun _ => rfl
  obtain ⟨r, hfeed', hr⟩ := @InString.escapeString literals p { buffer := true, string := true } h [] bytes q
    ⟨top, hflags, htop, hq⟩
  obtain ⟨r', hfeed'', hr'⟩ := @InString.close literals p r bytes { buffer := true, string := true } h hr rfl
  exact .of_closed h ((hfeed.append hfeed').append hfeed'') hr'

/-! ## Tokens -/

/-- A byte of a token is no delimiter, no space and no reader macro. -/
theorem symbolChar_plain (h : janetIsSymbolChar c = true) :
    (c == byte '\'' || c == byte ',' || c == byte ';' || c == byte '~' || c == byte '|') = false ∧
      (c == byte '"') = false ∧ (c == byte '#') = false ∧ (c == byte '`') = false ∧
      (c == byte ')' || c == byte ']' || c == byte '}') = false ∧ (c == byte '(') = false ∧ (c == byte '[') = false ∧
      (c == byte '{') = false ∧ isWhitespace c = false := by
  have hall : ∀ n : Fin 256, janetIsSymbolChar (UInt8.ofNat n) = true →
      (UInt8.ofNat n == byte '\'' || UInt8.ofNat n == byte ',' || UInt8.ofNat n == byte ';' ||
        UInt8.ofNat n == byte '~' || UInt8.ofNat n == byte '|') = false ∧
      (UInt8.ofNat n == byte '"') = false ∧ (UInt8.ofNat n == byte '#') = false ∧ (UInt8.ofNat n == byte '`') = false ∧
      (UInt8.ofNat n == byte ')' || UInt8.ofNat n == byte ']' || UInt8.ofNat n == byte '}') = false ∧
      (UInt8.ofNat n == byte '(') = false ∧ (UInt8.ofNat n == byte '[') = false ∧
      (UInt8.ofNat n == byte '{') = false ∧ isWhitespace (UInt8.ofNat n) = false := by decide +kernel
  have hc := hall ⟨c.toNat, c.toNat_lt⟩
  rw [UInt8.ofNat_toNat] at hc
  exact hc h

/-- What can follow a value belongs to no token. -/
theorem Ends.not_symbolChar (h : Ends t) : janetIsSymbolChar t = false := by
  rcases h with rfl | rfl | rfl | rfl | rfl <;> decide

theorem root_symbolChar (h : janetIsSymbolChar c = true) (hat : (c == byte '@') = false) :
    p.root literals s c = .ok (p.pushstate .tokenchar { token := true }, false) := by
  obtain ⟨hmac, hquote, hhash, htick, hclose, hround, hsquare, hcurly, hspace⟩ := symbolChar_plain h
  simp only [root, hmac, hquote, hhash, hat, htick, hclose, hround, hsquare, hcurly, hspace, h, Bool.not_true,
    Bool.false_eq_true, if_false]

/-- The parser is inside a token, which it entered in `p`. -/
def InToken (p : Parser) (bytes : List UInt8) (q : Parser) : Prop :=
  ∃ top : ParseState, top.consumer = .tokenchar ∧ Moved (p.entered top bytes) q

theorem InToken.moved (hm : Moved q r) (h : InToken p bytes q) : InToken p bytes r := by
  obtain ⟨top, htop, hq⟩ := h
  exact ⟨top, htop, hq.trans hm⟩

/-- A token takes a byte. -/
theorem tokenchar_symbolChar {top : ParseState} {place : Nat × Nat × Option UInt8} (htop : top.consumer = .tokenchar)
    (hc : janetIsSymbolChar c = true) : ∃ r,
      ((p.entered top bytes).moved place).consumer literals c = .ok (r, true) ∧ InToken p (bytes ++ [c]) r := by
  simp only [consumer, moved_states, entered, htop, tokenchar, hc, if_true]
  by_cases hwide : c > 127
  · rw [if_pos hwide]
    exact ⟨_, rfl, { top with argn := 1, consumer := .tokenchar }, rfl, place, rfl⟩
  · rw [if_neg hwide]
    exact ⟨_, rfl, top, htop, place, rfl⟩

theorem InToken.next (h : p.Awaits) (hq : InToken p bytes q) (hc : janetIsSymbolChar c = true) :
    ∃ r, Feeds literals q [c] r ∧ InToken p (bytes ++ [c]) r := by
  obtain ⟨top, htop, hm⟩ := hq
  exact Feeds.step (R := InToken p (bytes ++ [c])) (h.entered_alive top bytes) hm InToken.moved fun _ =>
    tokenchar_symbolChar htop hc

theorem InToken.all (h : p.Awaits) : ∀ {bytes more : List UInt8} {q : Parser}, InToken p bytes q →
    (∀ c ∈ more, janetIsSymbolChar c = true) → ∃ r, Feeds literals q more r ∧ InToken p (bytes ++ more) r
  | bytes, [], q, hq, _ => ⟨q, .nil, by rw [List.append_nil]; exact hq⟩
  | bytes, c :: more, q, hq, hall => by
    obtain ⟨m, hfeed, hm⟩ := @InToken.next literals p q c bytes h hq (hall c (List.mem_cons_self ..))
    obtain ⟨r, hfeed', hr⟩ := InToken.all h hm fun d hd => hall d (List.mem_cons_of_mem _ hd)
    rw [List.append_assoc, List.singleton_append] at hr
    exact ⟨r, hfeed.append hfeed', hr⟩

/-- The value of a token. -/
def tokenValue (literals : Literals) (nonAscii : Bool) : List UInt8 → String ⊕ Datum
  | [] => .inl ""
  | first :: rest => if first == byte ':' then keyword nonAscii rest else atom literals nonAscii first (first :: rest)

/-- A token is popped before the byte that ends it. -/
theorem tokenchar_ends_reads {top : ParseState} {place : Nat × Nat × Option UInt8} (h : p.Awaits)
    (htop : top.consumer = .tokenchar) (ht : Ends t) (hvalue : ∀ nonAscii, tokenValue literals nonAscii bytes = .inr d) :
    ∃ r, ((p.entered top bytes).moved place).consumer literals t = .ok (r, false) ∧ Receives p d r := by
  obtain ⟨r, hpop, hr⟩ := @popstate_entered p ((p.entered top bytes).moved place) bytes h top place rfl d
  refine ⟨r, ?_, hr⟩
  have hvalue := hvalue (top.argn != 0)
  simp only [consumer, moved_states, entered, htop]
  show tokenchar literals ((p.entered top bytes).moved place) top t = _
  rw [tokenchar, if_neg (by rw [ht.not_symbolChar]; decide)]
  cases hb : bytes with
  | nil =>
    rw [hb] at hvalue
    cases hvalue
  | cons first rest =>
    rw [hb] at hvalue hpop
    simp only [tokenValue] at hvalue
    simp only [moved_buf, entered]
    rw [hvalue]
    show (popstate { (p.entered top (first :: rest)).moved place with buf := [] } d >>= fun q => .ok (q, false)) = _
    rw [hpop]
    rfl

/-- The first byte of a token. -/
theorem InToken.first (h : p.Awaits) (hc : janetIsSymbolChar c = true) (hat : (c == byte '@') = false) :
    ∃ r, Feeds literals p [c] r ∧ InToken p [c] r :=
  Feeds.step₂ (R := InToken p [c]) h.toAlive (.refl p) InToken.moved fun place => by
    obtain ⟨s, rest, hs, hroot, _⟩ := h.top
    obtain ⟨top, _, htop, _, place', heq⟩ := @entered_pushstate p { token := true } .tokenchar h place
    obtain ⟨r, hr, hin⟩ := @tokenchar_symbolChar literals p c [] top place' htop hc
    rw [← heq] at hr
    refine ⟨(p.moved place).pushstate .tokenchar { token := true }, r, ?_, h.error, hr, hin⟩
    simp only [consumer, moved_states, hs, hroot]
    exact root_symbolChar hc hat

/-- An `@` that begins a token is handed to it with the next byte. -/
theorem atsign_token {top : ParseState} {place : Nat × Nat × Option UInt8} (h : p.Awaits)
    (htop : top.consumer = .atsign) (hc : (c == byte '{') = false ∧ (c == byte '"') = false ∧ (c == byte '`') = false ∧
      (c == byte '[') = false ∧ (c == byte '(') = false) :
    ∃ m top' place', ((p.entered top []).moved place).consumer literals c = .ok (m, false) ∧ m.error = none ∧
      top'.consumer = .tokenchar ∧ m = (p.entered top' [byte '@']).moved place' := by
  obtain ⟨hcurly, hquote, htick, hsquare, hround⟩ := hc
  refine ⟨(p.entered ⟨0, 0, { token := true }, .tokenchar, place.1, place.2.1⟩ [byte '@']).moved place,
    ⟨0, 0, { token := true }, .tokenchar, place.1, place.2.1⟩, place, ?_, h.error, rfl, rfl⟩
  simp only [consumer, moved_states, entered, htop, atsign, hcurly, hquote, htick, hsquare, hround, Bool.false_eq_true,
    if_false]
  rfl

/-- A token that has got all of its bytes ends with the byte behind it. -/
theorem InToken.reads (h : p.Awaits) (hfeed : Feeds literals p bytes q) (hq : InToken p bytes q)
    (hvalue : ∀ nonAscii, tokenValue literals nonAscii bytes = .inr d) : Reads literals p bytes d := by
  intro t ht
  obtain ⟨top, htop, hm⟩ := hq
  obtain ⟨place, hplace⟩ := hm.trans (.advance t)
  obtain ⟨r, hr, hreceives⟩ := @tokenchar_ends_reads literals p t bytes d top place h htop ht hvalue
  rw [← hplace] at hr
  have herror := (h.receives hreceives).error
  exact ⟨r, hreceives, fun q' hq' => hfeed.append (.one ((h.entered_alive top bytes).moved hm)
    ((consumeLoop_next hr herror).trans (consumeLoop_used hq')))⟩

/-- An `@` alone. -/
theorem reads_at (h : p.Awaits) (hvalue : ∀ nonAscii, tokenValue literals nonAscii [byte '@'] = .inr d) :
    Reads literals p [byte '@'] d := by
  intro t ht
  obtain ⟨q, hfeed, top, _, htop, _, hm⟩ := @Feeds.enter literals p (byte '@') { atsym := true } .atsign h fun _ _ => rfl
  obtain ⟨place, hplace⟩ := hm.trans (.advance t)
  obtain ⟨m, top', place', hm', herror, htop', rfl⟩ := @atsign_token literals p t top place h htop
    (by rcases ht with rfl | rfl | rfl | rfl | rfl <;> decide)
  obtain ⟨r, hr, hreceives⟩ := @tokenchar_ends_reads literals p t [byte '@'] d top' place' h htop' ht hvalue
  rw [← hplace] at hm'
  have herror' := (h.receives hreceives).error
  exact ⟨r, hreceives, fun q' hq' => hfeed.append (.one ((h.entered_alive top []).moved hm)
    ((consumeLoop_next hm' herror).trans ((consumeLoop_next hr herror').trans (consumeLoop_used hq'))))⟩

/-- **A token is read as its value.** -/
theorem reads_token (h : p.Awaits) (hall : ∀ c ∈ bytes, janetIsSymbolChar c = true)
    (hvalue : ∀ nonAscii, tokenValue literals nonAscii bytes = .inr d) : Reads literals p bytes d := by
  cases bytes with
  | nil => cases hvalue false
  | cons first rest =>
    have hrest : ∀ c ∈ rest, janetIsSymbolChar c = true := fun c hc => hall c (List.mem_cons_of_mem _ hc)
    by_cases hat : (first == byte '@') = true
    · obtain rfl := beq_iff_eq.mp hat
      cases rest with
      | nil => exact reads_at h hvalue
      | cons c rest =>
        have hc := hrest c (List.mem_cons_self ..)
        obtain ⟨_, hquote, _, htick, _, hround, hsquare, hcurly, _⟩ := symbolChar_plain hc
        obtain ⟨q, hfeed, top, _, htop, _, hm⟩ := @Feeds.enter literals p (byte '@') { atsym := true } .atsign h
          fun _ _ => rfl
        obtain ⟨m, hfeed', hm⟩ := @Feeds.step₂ literals (p.entered top []) q c (InToken p [byte '@', c])
          (h.entered_alive top []) hm InToken.moved fun place => by
            obtain ⟨m, top', place', hm', herror, htop', rfl⟩ := @atsign_token literals p c top place h htop
              ⟨hcurly, hquote, htick, hsquare, hround⟩
            obtain ⟨r, hr, hin⟩ := @tokenchar_symbolChar literals p c [byte '@'] top' place' htop' hc
            exact ⟨_, r, hm', herror, hr, hin⟩
        obtain ⟨r, hfeed'', hr⟩ := @InToken.all literals p h [byte '@', c] rest m hm
          fun d hd => hrest d (List.mem_cons_of_mem _ hd)
        exact InToken.reads h ((hfeed.append hfeed').append hfeed'') hr hvalue
    · obtain ⟨q, hfeed, hq⟩ := @InToken.first literals p first h (hall first (List.mem_cons_self ..)) (by simpa using hat)
      obtain ⟨r, hfeed', hr⟩ := @InToken.all literals p h [first] rest q hq hrest
      exact InToken.reads h (hfeed.append hfeed') hr hvalue

/-! ## Containers -/

/-- An inner container has got the data, with places of their own. -/
def ReceivesAll (p : Parser) (items : List Datum) (q : Parser) : Prop :=
  ∃ s rest items', p.states = s :: rest ∧ rest ≠ [] ∧ plainAll items' = plainAll items ∧
    Moved { p with states := { s with argn := s.argn + items'.length } :: rest, args := p.args ++ items' } q

theorem ReceivesAll.nil (hs : p.states = s :: rest) (hne : rest ≠ []) (hm : Moved p q) : ReceivesAll p [] q := by
  refine ⟨s, rest, [], hs, hne, rfl, ?_⟩
  rw [List.length_nil, List.append_nil]
  have heq : ({ p with states := { s with argn := s.argn + 0 } :: rest, args := p.args } : Parser) = p := by
    rw [show ({ s with argn := s.argn + 0 } : ParseState) :: rest = p.states from hs.symm]
  rw [heq]
  exact hm

theorem ReceivesAll.cons {items : List Datum} (hs : p.states = s :: rest) (hne : rest ≠ []) (h : Receives p d q)
    (h' : ReceivesAll q items r) : ReceivesAll p (d :: items) r := by
  obtain ⟨d', line, column, hd, place, rfl⟩ := h
  have heq : p.receive line column d' =
      { p with states := { s with argn := s.argn + 1 } :: rest, args := p.args ++ [d'] } := by
    rw [receive, hs]
    cases rest with
    | nil => exact absurd rfl hne
    | cons _ _ => rfl
  rw [heq] at h'
  obtain ⟨s', rest', items', hs', _, hitems, hm⟩ := h'
  obtain ⟨rfl, rfl⟩ := List.cons.inj hs'
  refine ⟨s, rest, d' :: items', hs, hne, by rw [plainAll, plainAll, hd, hitems], .trans ⟨place, ?_⟩ hm⟩
  simp only [Parser.moved, List.append_assoc, List.singleton_append, List.length_cons]
  congr 3
  omega

/-- A space is skipped. -/
theorem consumer_space (h : p.Awaits) (hc : c = byte ' ' ∨ c = 10) : p.consumer literals c = .ok (p, true) := by
  obtain ⟨s, rest, hs, hroot, _⟩ := h.top
  simp only [consumer, hs, hroot]
  rcases hc with rfl | rfl <;> rfl

/-- The texts of the elements, with spaces between them, are read as the elements. -/
theorem reads_items {items : List Datum} {texts : List (List UInt8)}
    (h : List.Forall₂ (fun d text => ∀ p : Parser, p.Awaits → Reads literals p text d) items texts) :
    ∀ {p : Parser} {s : ParseState} {rest : List ParseState}, p.Awaits → p.states = s :: rest → rest ≠ [] → Ends t →
      ∃ q, ReceivesAll p items q ∧ ∀ q', q.consumer literals t = .ok (q', true) →
        Feeds literals p (spaced texts ++ [t]) { q' with lookback := some t } := by
  induction h with
  | nil =>
    intro p s rest hp hs hne _
    exact ⟨p.advance t, .nil hs hne (.advance t), fun q' hq' => .one hp.toAlive (consumeLoop_used hq')⟩
  | @cons d text items texts hd hall ih =>
    intro p s rest hp hs hne ht
    cases texts with
    | nil =>
      cases hall
      obtain ⟨q, hq, hfeeds⟩ := hd p hp t ht
      obtain ⟨s', hs'⟩ := hq.states hs
      exact ⟨q, .cons hs hne hq (.nil hs' hne (.refl q)), hfeeds⟩
    | cons text' texts =>
      obtain ⟨q, hq, hfeeds⟩ := hd p hp (byte ' ') (Or.inl rfl)
      have hfeed := hfeeds q (consumer_space (hp.receives hq) (Or.inl rfl))
      have hq' : Receives p d { q with lookback := some (byte ' ') } := hq.moved (.lookback _)
      obtain ⟨s', hs'⟩ := hq.states hs
      obtain ⟨r, hr, hfeeds'⟩ := ih (hp.receives hq') hs' hne ht
      refine ⟨r, .cons hs hne hq' hr, fun r' hr' => ?_⟩
      have happend := hfeed.append (hfeeds' r' hr')
      rw [List.append_assoc, List.singleton_append] at happend
      rw [spaced]
      · rw [List.append_assoc]
        exact happend
      · simp

/-- A container is closed: it is made of what it has got. -/
theorem close_receives {items : List Datum} {make : List Datum → Datum} (h : p.Awaits) {top : ParseState}
    (h0 : top.argn = 0) (hq : ReceivesAll (p.entered top []) items q)
    (hplain : ∀ items', plainAll items' = plainAll items → (make items').plain = d.plain) :
    ∃ s r, q.states = s :: p.states ∧ s.flags = top.flags ∧ s.consumer = top.consumer ∧ s.argn = items.length ∧
      q.close s make = .ok r ∧ Receives p d r := by
  obtain ⟨s, rest, items', hs, _, hitems, place, rfl⟩ := hq
  obtain ⟨rfl, rfl⟩ := List.cons.inj hs
  have hlength : items'.length = items.length := by rw [← length_plainAll items', hitems, length_plainAll]
  obtain ⟨s', rest', hs', hroot, hc⟩ := h.top
  refine ⟨{ top with argn := top.argn + items'.length }, (p.moved place).receive top.line top.column
    ((make items').mapped top.line top.column), rfl, rfl, rfl, by rw [← hlength, h0]; exact Nat.zero_add _, ?_, ?_⟩
  · have hle : items'.length ≤ (p.args ++ items').length := by rw [List.length_append]; omega
    have htake : (p.args ++ items').take ((p.args ++ items').length - items'.length) = p.args := by
      rw [List.length_append, Nat.add_sub_cancel, List.take_left]
    have hdrop : (p.args ++ items').drop ((p.args ++ items').length - items'.length) = items' := by
      rw [List.length_append, Nat.add_sub_cancel, List.drop_left]
    have hpop := @popLoop_receive (p.moved place) s' rest' hs' hc { top with argn := items'.length } (make items')
      ({ top with argn := items'.length } :: p.states)
    rw [← hpop, ← hs']
    simp only [close, takeArgs, entered, Parser.moved, h0, Nat.zero_add, if_pos hle, htake, hdrop, h.buf]
    rfl
  · exact ⟨_, top.line, top.column, by rw [plain_mapped]; exact hplain items' hitems, place, receive_moved ..⟩

/-- **A container is read as a container of its elements**, if its flags let the closing delimiter make it. -/
theorem reads_container {opening : List UInt8} {items : List Datum} {texts : List (List UInt8)}
    {make : List Datum → Datum} (h : p.Awaits) (hopen : ∃ q, Feeds literals p opening q ∧ Entered p .root flags q)
    (hc : flags.container = true) (ht : Ends t)
    (hall : List.Forall₂ (fun d text => ∀ p : Parser, p.Awaits → Reads literals p text d) items texts)
    (hclose : ∀ (q : Parser) (s : ParseState), q.states.length ≠ 1 → s.flags = flags → s.argn = items.length →
      q.root literals s t = (do let r ← q.close s make; .ok (r, true)))
    (hplain : ∀ items', plainAll items' = plainAll items → (make items').plain = d.plain) :
    Reads literals p (opening ++ spaced texts ++ [t]) d := by
  obtain ⟨q, hfeed, top, hflags, htop, h0, hm⟩ := hopen
  obtain ⟨s, rest, hs, _⟩ := h.top
  have hne : p.states ≠ [] := by rw [hs]; exact List.cons_ne_nil _ _
  have hawaits : (p.entered top []).Awaits :=
    ⟨h.entered_alive top [], ⟨top, p.states, rfl, htop, by rw [hflags]; exact hc⟩, rfl⟩
  obtain ⟨place, rfl⟩ := hm
  obtain ⟨r, hr, hfeeds⟩ := @reads_items literals t items texts hall ((p.entered top []).moved place) top p.states
    (hawaits.moved ⟨place, rfl⟩) rfl hne ht
  have hr' : ReceivesAll (p.entered top []) items r := by
    obtain ⟨s, rest, items', hs, hne, hitems, place', rfl⟩ := hr
    exact ⟨s, rest, items', hs, hne, hitems, place', rfl⟩
  obtain ⟨s', r', hstates, hflags', htop', hargn, hclosed, hreceives⟩ := close_receives h h0 hr' hplain
  have hlength : r.states.length ≠ 1 := by
    rw [hstates, List.length_cons]
    have := List.length_pos_of_ne_nil hne
    omega
  have hconsumer : r.consumer literals t = .ok (r', true) := by
    simp only [consumer, hstates, htop', htop]
    rw [hclose r s' hlength (hflags'.trans hflags) hargn, hclosed]
    rfl
  have hfeed' := hfeed.append (hfeeds r' hconsumer)
  rw [← List.append_assoc] at hfeed'
  exact .of_closed h hfeed' (hreceives.moved (.lookback _))

/-! ## Data -/

theorem forall₂_mapM {α β : Type} {f : α → Option β} : ∀ {xs : List α} {ys : List β}, xs.mapM f = some ys →
    List.Forall₂ (fun x y => f x = some y) xs ys
  | [], ys, h => by
    obtain rfl : [] = ys := by simpa using h
    exact .nil
  | x :: xs, ys, h => by
    rw [List.mapM_cons] at h
    obtain ⟨y, hy, h⟩ := Option.bind_eq_some_iff.mp h
    obtain ⟨ys', hys, h⟩ := Option.bind_eq_some_iff.mp h
    cases h
    exact .cons hy (forall₂_mapM hys)

/-- A name without bad characters is made of bytes of a token, and spells text. -/
theorem containsBadChars_false {issym : Bool} (h : containsBadChars name issym = false) :
    (issym = true → (name.head?.map isDigit).getD false = false) ∧ janetValidUtf8 name = true ∧
      ∀ c ∈ name, janetIsSymbolChar c = true := by
  simp only [containsBadChars, Bool.or_eq_false_iff, Bool.and_eq_false_imp, Bool.not_eq_false'] at h
  refine ⟨h.1.1, h.1.2, fun c hc => ?_⟩
  have hany := List.any_eq_false.mp h.2 c hc
  simpa using hany

theorem tokenValue_keyword (h : janetValidUtf8 name = true) (nonAscii : Bool) :
    tokenValue literals nonAscii (byte ':' :: name) = .inr (.keyword name) := by
  show keyword nonAscii name = _
  rw [keyword, h, Bool.not_true, Bool.and_false, if_neg Bool.false_ne_true]

theorem tokenValue_number {x : Double} {first : UInt8} {rest : List UInt8}
    (hfirst : isDigit first = true ∨ first = byte '-') (hscan : literals.scanNumber (first :: rest) = some (.number x))
    (nonAscii : Bool) : tokenValue literals nonAscii (first :: rest) = .inr (.number x) := by
  have hcolon : (first == byte ':') = false := by
    rcases hfirst with h | rfl
    · refine Bool.eq_false_iff.mpr fun hc => ?_
      rw [beq_iff_eq.mp hc] at h
      exact absurd h (by decide)
    · decide
  have hnum : ((byte '0' ≤ first && first ≤ byte '9') || first == byte '-' || first == byte '+' ||
      first == byte '.') = true := by
    rcases hfirst with h | rfl
    · rw [isDigit] at h
      simp only [h, Bool.true_or]
    · decide
  rw [tokenValue, hcolon, if_neg Bool.false_ne_true, atom]
  simp only [hnum, if_true, hscan]

theorem tokenValue_symbol {first : UInt8} {rest : List UInt8} (hdigit : isDigit first = false)
    (hcolon : first ≠ byte ':')
    (hscan : first = byte '-' ∨ first = byte '+' ∨ first = byte '.' → literals.scanNumber (first :: rest) = none)
    (hwords : first :: rest ≠ "nil".toList.map byte ∧ first :: rest ≠ "false".toList.map byte ∧
      first :: rest ≠ "true".toList.map byte) (hvalid : janetValidUtf8 (first :: rest) = true) (nonAscii : Bool) :
    tokenValue literals nonAscii (first :: rest) = .inr (.symbol (first :: rest)) := by
  have hnone : (if ((byte '0' ≤ first && first ≤ byte '9') || first == byte '-' || first == byte '+' ||
      first == byte '.') = true then literals.scanNumber (first :: rest) else none) = none := by
    rw [isDigit] at hdigit
    rw [hdigit, Bool.false_or]
    by_cases hsign : (first == byte '-' || first == byte '+' || first == byte '.') = true
    · rw [if_pos hsign]
      refine hscan ?_
      simpa only [Bool.or_eq_true, beq_iff_eq, or_assoc] using hsign
    · rw [if_neg hsign]
  rw [isDigit] at hdigit
  rw [tokenValue, if_neg (by simpa using hcolon), atom]
  simp only [hnone]
  simp only [hdigit, hvalid, Bool.not_true, Bool.and_false, Bool.false_eq_true, if_false, beq_iff_eq, hwords.1,
    hwords.2.1, hwords.2.2]

theorem tokenValue_nil (nonAscii : Bool) : tokenValue literals nonAscii ("nil".toList.map byte) = .inr .nil := by
  cases nonAscii <;> rfl

theorem tokenValue_boolean (flag nonAscii : Bool) :
    tokenValue literals nonAscii ((if flag then "true" else "false").toList.map byte) = .inr (.boolean flag) := by
  cases flag <;> cases nonAscii <;> rfl

/-- The five closing delimiters make the five containers. -/
theorem root_closing (hlength : p.states.length ≠ 1) :
    (s.flags = { container := true, parens := true } →
      p.root literals s (byte ')') = (do let r ← p.close s (.tuple false (-1) (-1)); .ok (r, true))) ∧
    (s.flags = { container := true, sqrbrackets := true } →
      p.root literals s (byte ']') = (do let r ← p.close s (.tuple true (-1) (-1)); .ok (r, true))) ∧
    (s.flags = { container := true, sqrbrackets := true, atsym := true } →
      p.root literals s (byte ']') = (do let r ← p.close s .array; .ok (r, true))) ∧
    (s.argn % 2 ≠ 1 → s.flags = { container := true, curlybrackets := true } →
      p.root literals s (byte '}') = (do let r ← p.close s literals.struct; .ok (r, true))) ∧
    (s.argn % 2 ≠ 1 → s.flags = { container := true, curlybrackets := true, atsym := true } →
      p.root literals s (byte '}') = (do let r ← p.close s literals.table; .ok (r, true))) := by
  have hroot : ∀ c, c = byte ')' ∨ c = byte ']' ∨ c = byte '}' →
      p.root literals s c = (do let r ← p.closing literals s c; .ok (r, true)) := by
    rintro c (rfl | rfl | rfl) <;> rfl
  refine ⟨fun h => ?_, fun h => ?_, fun h => ?_, fun hn h => ?_, fun hn h => ?_⟩
  · rw [hroot _ (Or.inl rfl), closing, if_neg hlength, h]
    rfl
  · rw [hroot _ (Or.inr (Or.inl rfl)), closing, if_neg hlength, h]
    rfl
  · rw [hroot _ (Or.inr (Or.inl rfl)), closing, if_neg hlength, h]
    rfl
  · rw [hroot _ (Or.inr (Or.inr rfl)), closing, if_neg hlength, h, if_neg hn]
    rfl
  · rw [hroot _ (Or.inr (Or.inr rfl)), closing, if_neg hlength, h, if_neg hn]
    rfl

/-- The text of a container. -/
theorem printed_inside {f : Datum → Option (List UInt8)} {opening closing : List UInt8} {items : List Datum}
    (h : (do some (opening ++ spaced (← items.mapM f) ++ closing)) = some bytes) :
    ∃ texts, List.Forall₂ (fun d text => f d = some text) items texts ∧
      opening ++ spaced texts ++ closing = bytes := by
  obtain ⟨texts, htexts, h⟩ := Option.bind_eq_some_iff.mp h
  exact ⟨texts, forall₂_mapM htexts, Option.some.inj h⟩

/-- **What is printed is read as the same data.** -/
theorem reads_printJdn {n : Nat} (h : printJdn dtostr n d = some bytes) (hd : Readable literals dtostr d) (hp : p.Awaits) :
    Reads literals p bytes d := by
  induction n generalizing d bytes p with
  | zero => cases h
  | succ n ih =>
    have hitems : ∀ {items : List Datum} {texts : List (List UInt8)}, (∀ d ∈ items, Readable literals dtostr d) →
        List.Forall₂ (fun d text => printJdn dtostr n d = some text) items texts →
        List.Forall₂ (fun d text => ∀ p : Parser, p.Awaits → Reads literals p text d) items texts := by
      intro items texts hreadable htexts
      refine List.Forall₂.imp ?_ ((List.forall₂_and_left items texts).mpr ⟨hreadable, htexts⟩)
      exact fun d text hd p hp => ih hd.2 hd.1 hp
    cases hd with
    | nil =>
      cases h
      exact reads_token hp (List.all_eq_true.mp rfl) tokenValue_nil
    | boolean flag =>
      cases h
      exact reads_token hp (List.all_eq_true.mp (by cases flag <;> rfl)) (tokenValue_boolean flag)
    | @number d first rest hdigits hfirst hall hscan =>
      rw [printJdn] at h
      split_ifs at h
      cases h
      rw [hdigits] at hscan
      exact reads_token hp hall (by rw [hdigits]; exact tokenValue_number hfirst hscan)
    | string bytes =>
      cases h
      exact reads_string hp
    | buffer bytes =>
      cases h
      exact reads_buffer hp
    | keyword name =>
      rw [printJdn] at h
      split_ifs at h with hbad
      cases h
      obtain ⟨_, hvalid, hall⟩ := containsBadChars_false (Bool.eq_false_iff.mpr hbad)
      refine reads_token hp (fun c hc => ?_) (tokenValue_keyword hvalid)
      rcases List.mem_cons.mp hc with rfl | hc
      · decide
      · exact hall c hc
    | @symbol name first hfirst hcolon hscan hwords =>
      rw [printJdn] at h
      split_ifs at h with hbad
      cases h
      obtain ⟨hdigit, hvalid, hall⟩ := containsBadChars_false (Bool.eq_false_iff.mpr hbad)
      cases bytes with
      | nil => cases hfirst
      | cons c rest =>
        cases hfirst
        exact reads_token hp hall (tokenValue_symbol (hdigit rfl) hcolon hscan hwords hvalid)
    | @tuple bracketed line column items hall =>
      have hplain : ∀ items', plainAll items' = plainAll items →
          (Datum.tuple bracketed (-1) (-1) items').plain = (Datum.tuple bracketed line column items).plain :=
        fun items' hplain => by rw [Datum.plain, Datum.plain, hplain]
      cases bracketed with
      | false =>
        obtain ⟨texts, htexts, rfl⟩ := printed_inside h
        exact reads_container hp (Feeds.enter hp fun _ _ => rfl) rfl (by simp [Ends] : Ends (byte ')')) (hitems hall htexts)
          (fun q s hq hs _ => (root_closing hq).1 hs) hplain
      | true =>
        obtain ⟨texts, htexts, rfl⟩ := printed_inside h
        exact reads_container hp (Feeds.enter hp fun _ _ => rfl) rfl (by simp [Ends] : Ends (byte ']')) (hitems hall htexts)
          (fun q s hq hs _ => (root_closing hq).2.1 hs) hplain
    | @array items hall =>
      obtain ⟨texts, htexts, rfl⟩ := printed_inside h
      exact reads_container hp (Feeds.enterAt hp fun _ => rfl) rfl (by simp [Ends] : Ends (byte ']')) (hitems hall htexts)
        (fun q s hq hs _ => (root_closing hq).2.2.1 hs)
        fun items' hplain => by rw [Datum.plain, Datum.plain, hplain]
    | @struct items hentries hall =>
      obtain ⟨texts, htexts, rfl⟩ := printed_inside h
      exact reads_container hp (Feeds.enter hp fun _ _ => rfl) rfl (by simp [Ends] : Ends (byte '}')) (hitems hall htexts)
        (fun q s hq hs hn => (root_closing hq).2.2.2.1 (by have := hentries.pairs; omega) hs)
        fun items' hplain => by rw [(hentries.of_plain hplain).literal.1, Datum.plain, Datum.plain, hplain]
    | @table items hentries hall =>
      obtain ⟨texts, htexts, rfl⟩ := printed_inside h
      exact reads_container hp (Feeds.enterAt hp fun _ => rfl) rfl (by simp [Ends] : Ends (byte '}')) (hitems hall htexts)
        (fun q s hq hs hn => (root_closing hq).2.2.2.2 (by have := hentries.pairs; omega) hs)
        fun items' hplain => by rw [(hentries.of_plain hplain).literal.2, Datum.plain, Datum.plain, hplain]

/-! ## A text -/

/-- Read the first value of a text, as `janet_dobytes` does before it evaluates it. -/
def readText (literals : Literals) (bytes : List UInt8) : Parsing Datum := do
  consumeAll literals bytes
  eof literals
  produce false

theorem awaits_init : init.Awaits := ⟨⟨rfl, rfl, rfl⟩, ⟨_, [], rfl, rfl, rfl⟩, rfl⟩

/-- A parser that takes a byte can be called. -/
theorem Feeds.alive (h : Feeds literals p (c :: bytes) q) : p.Alive := by
  obtain ⟨_, _, hconsume, _⟩ := Computation.returns_of_bind h
  obtain ⟨_, _, hcheck, _⟩ := Computation.returns_of_bind hconsume
  have hdead : (p.dead || p.generatedError) = false := by
    refine Bool.eq_false_iff.mpr fun hdead => ?_
    rw [checkdead, if_pos hdead] at hcheck
    cases hcheck
  have herror : p.error = none := by
    refine Option.not_isSome_iff_eq_none.mp fun herror => ?_
    rw [checkdead, hdead, if_neg Bool.false_ne_true, if_pos herror] at hcheck
    cases hcheck
  exact ⟨herror, (Bool.or_eq_false_iff.mp hdead).1, (Bool.or_eq_false_iff.mp hdead).2⟩

/-- The end of the source is a line end. -/
theorem eof_returns (h : Feeds literals p [10] q) (hone : q.states.length ≤ 1) :
    eof literals p = (.returns (), { q with line := p.line, column := p.column, dead := true }) := by
  have hcheck : checkdead p = (.returns (), p) := by
    rw [checkdead, h.alive.error, h.alive.dead, h.alive.generated]
    rfl
  obtain ⟨_, q', hconsume, hnil⟩ := Computation.returns_of_bind h
  cases hnil
  show (checkdead >>= fun _ => consume literals 10 >>= fun _ => Computation.modify (ended p.line p.column)) p = _
  rw [Computation.bind_of_returns hcheck, Computation.bind_of_returns hconsume]
  show (Outcome.returns (), ended p.line p.column q) = _
  rw [ended, if_neg (by omega)]

/-- **What is printed is read again**: the text of a piece of data that can be read is read as that data, and there is
nothing behind it. -/
theorem readText_printJdn {n : Nat} (h : printJdn dtostr n d = some bytes) (hd : Readable literals dtostr d) :
    ∃ d' p, readText literals bytes init = (.returns d', p) ∧ d'.plain = d.plain ∧ p.status = .dead ∧
      p.hasMore = false ∧ p.states.length = 1 := by
  obtain ⟨q, ⟨d', line, column, hd', place, rfl⟩, hfeeds⟩ := reads_printJdn h hd awaits_init 10 (Or.inr (Or.inl rfl))
  have hawaits : ((init.receive line column d').moved place).Awaits :=
    awaits_init.receives ⟨d', line, column, hd', place, rfl⟩
  obtain ⟨m, hbytes, hline⟩ := (hfeeds _ (consumer_space hawaits (Or.inr rfl))).split
  have heof := eof_returns hline (Nat.le_refl 1)
  have hread : readText literals bytes init =
      produce false { (init.receive line column d').moved (m.line, m.column, some 10) with dead := true } := by
    rw [readText, Computation.bind_of_returns hbytes, Computation.bind_of_returns heof]
    rfl
  exact ⟨d', _, hread, hd', rfl, rfl, rfl⟩

/-- Literals that know one number, and tell names and strings apart. -/
def spelled : Literals where
  scanNumber text := if text = [byte '1'] then some (.number ⟨0x3FF0000000000000#64⟩) else none
  equals
    | .keyword name, .keyword name' | .symbol name, .symbol name' | .string name, .string name' => name == name'
    | _, _ => false

/-- A keyword is no string. -/
theorem separate_spelled {name bytes : List UInt8} {v v' : Datum} (hv : v.isNil = false) (hv' : v'.isNil = false) :
    Separate spelled [.keyword name, v, .string bytes, v'] := by
  refine ⟨by simp, fun e he => ?_, List.pairwise_pair.mpr fun d d' hd hd' => ?_⟩
  · simp only [Datum.entries, List.mem_cons, List.not_mem_nil, or_false] at he
    rcases he with rfl | rfl
    · exact ⟨rfl, hv, rfl⟩
    · exact ⟨rfl, hv', rfl⟩
  · cases d <;> cases hd
    cases d' <;> cases hd'
    rfl

/-- A call is printed and read again. -/
theorem readText_printJdn_call :
    ∃ d' p, readText spelled ("(f \"\\\"\\n\" @[1] \x7b:k 1 \"s\" @[]\x7d)".toList.map byte) init = (.returns d', p) ∧
      d'.plain = (Datum.tuple false 3 1 [.symbol [byte 'f'], .string [byte '"', 10],
        .array [.number ⟨0x3FF0000000000000#64⟩],
        .struct [.keyword [byte 'k'], .number ⟨0x3FF0000000000000#64⟩, .string [byte 's'], .array []]]).plain ∧
      p.status = .dead ∧ p.hasMore = false ∧ p.states.length = 1 := by
  have hnumber : Readable spelled (fun _ => [byte '1']) (.number ⟨0x3FF0000000000000#64⟩) :=
    .number rfl (Or.inl (by decide)) (List.all_eq_true.mp rfl) rfl
  refine @readText_printJdn _ (fun _ => [byte '1']) _ _ 3 (by decide) (.tuple fun d hd => ?_)
  simp only [List.mem_cons, List.not_mem_nil, or_false] at hd
  rcases hd with rfl | rfl | rfl | rfl
  · exact .symbol rfl (by decide) (by decide) (by decide)
  · exact .string _
  · refine .array fun d hd => ?_
    obtain rfl := List.mem_singleton.mp hd
    exact hnumber
  · refine .struct (separate_spelled rfl rfl) fun d hd => ?_
    simp only [List.mem_cons, List.not_mem_nil, or_false] at hd
    rcases hd with rfl | rfl | rfl | rfl
    · exact .keyword _
    · exact hnumber
    · exact .string _
    · exact .array fun d hd => absurd hd List.not_mem_nil

end Parser

end SwiftJanet.Parse
