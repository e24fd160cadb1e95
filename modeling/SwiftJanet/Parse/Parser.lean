import SwiftJanet.Lib.Outcome
import SwiftJanet.VM.Janet

/-!
# The parser

The parser of the VM, which is fed one byte at a time and keeps a stack of what it is inside of.

- `Datum`: what the parser makes of source text, before it is put on a heap;
- `Parser`: the fields of `JanetParser`. The stack of states has its top first; `args` is in the order of the source;
- the consumers `root`, `tokenchar`, `stringchar`, … answer whether they have used the byte. To leave a block of memory is
  a `Fault`;
- `Parsing`: the functions that others call, which throw when the VM panics;
- how numbers are scanned, which keys are equal once they are on the heap, and how a value is printed that is put into a
  string, are parameters.
-/

namespace SwiftJanet.Parse

open Lib

/-! ## Bytes -/

/-- A character as a byte. -/
def byte (c : Char) : UInt8 := UInt8.ofNat c.toNat

/-- `is_whitespace`. -/
def isWhitespace (c : UInt8) : Bool :=
  c == byte ' ' || c == 9 || c == 10 || c == 13 || c == 0 || c == 11 || c == 12

/-- `symchars`: a bit for each byte. -/
def symchars : List (BitVec 32) :=
  [0x00000000#32, 0xf7ffec72#32, 0xc7ffffff#32, 0x07fffffe#32, 0xffffffff#32, 0xffffffff#32, 0xffffffff#32,
    0xffffffff#32]

/-- `janet_is_symbol_char`. -/
def janetIsSymbolChar (c : UInt8) : Bool :=
  (symchars.getD (c >>> 5).toNat 0#32) &&& (1#32 <<< (c &&& 0x1F).toNat) != 0#32

/-- The trailing bytes of a code point. -/
def isTrailing (c : UInt8) : Bool := c >>> 6 == 2

/-- `janet_valid_utf8`. -/
def janetValidUtf8 : List UInt8 → Bool
  | [] => true
  | c :: str =>
    if c < 0x80 then janetValidUtf8 str
    else if c >>> 5 == 0x06 then
      match str with
      | d :: str => isTrailing d && !(c < 0xC2) && janetValidUtf8 str
      | _ => false
    else if c >>> 4 == 0x0E then
      match str with
      | d :: e :: str => isTrailing d && isTrailing e && !(c == 0xE0 && d < 0xA0) && janetValidUtf8 str
      | _ => false
    else if c >>> 3 == 0x1E then
      match str with
      | d :: e :: f :: str =>
        isTrailing d && isTrailing e && isTrailing f && !(c == 0xF0 && d < 0x90) && janetValidUtf8 str
      | _ => false
    else false

/-- `to_hex`. -/
def toHex (c : UInt8) : Option Nat :=
  if byte '0' ≤ c ∧ c ≤ byte '9' then some (c.toNat - 48)
  else if byte 'A' ≤ c ∧ c ≤ byte 'F' then some (10 + c.toNat - 65)
  else if byte 'a' ≤ c ∧ c ≤ byte 'f' then some (10 + c.toNat - 97)
  else none

/-! ## What is parsed -/

/-- A piece of data in the source text. Tuples remember where they begin; a struct or a table lists its keys and values
in turn, in the order in which they came in. `int` is a literal of one of the integer types, and `value` comes from outside. -/
inductive Datum where
  | nil
  | boolean (flag : Bool)
  | number (d : Double)
  | int (signed : Bool) (bits : BitVec 64)
  | string (bytes : List UInt8)
  | buffer (bytes : List UInt8)
  | symbol (bytes : List UInt8)
  | keyword (bytes : List UInt8)
  | tuple (bracketed : Bool) (line column : Int) (items : List Datum)
  | array (items : List Datum)
  | struct (items : List Datum)
  | table (items : List Datum)
  | value (x : Janet)

/-- Set where a tuple begins. -/
def Datum.mapped (line column : Int) : Datum → Datum
  | .tuple bracketed _ _ items => .tuple bracketed line column items
  | d => d

/-! ## Literals -/

/-- What the VM makes of literals: `janet_scan_number`, and `janet_equals` on keys. -/
structure Literals where
  scanNumber : List UInt8 → Option Datum
  equals : Datum → Datum → Bool

namespace Datum

def isNil : Datum → Bool
  | .nil => true
  | .value x => janetChecktype x .nil
  | _ => false

def isNaN : Datum → Bool
  | .number d => d.isNaN
  | .value (.number d) => d.isNaN
  | _ => false

/-- The keys and values that are listed in turn. -/
def entries : List Datum → List (Datum × Datum)
  | k :: v :: items => (k, v) :: entries items
  | _ => []

/-- List the keys and values in turn. -/
def listed (es : List (Datum × Datum)) : List Datum := es.flatMap fun e => [e.1, e.2]

end Datum

/-- The value of a key, in place of the one that it had. -/
def Literals.replace (literals : Literals) (key value : Datum) : List (Datum × Datum) → List (Datum × Datum)
  | [] => [(key, value)]
  | e :: es => if literals.equals e.1 key then (e.1, value) :: es else e :: literals.replace key value es

/-- `janet_struct_put`, on the entries: a key that is nil or no number, or a value that is nil, is not put. -/
def Literals.structPut (literals : Literals) (es : List (Datum × Datum)) (e : Datum × Datum) : List (Datum × Datum) :=
  if e.1.isNil || e.2.isNil || e.1.isNaN then es else literals.replace e.1 e.2 es

/-- `janet_table_put`, on the entries: to put nil removes the key. -/
def Literals.tablePut (literals : Literals) (es : List (Datum × Datum)) (e : Datum × Datum) : List (Datum × Datum) :=
  if e.1.isNil || e.1.isNaN then es
  else if e.2.isNil then es.eraseP fun e' => literals.equals e'.1 e.1
  else literals.replace e.1 e.2 es

/-- The struct of a literal. -/
def Literals.struct (literals : Literals) (items : List Datum) : Datum :=
  .struct (Datum.listed ((Datum.entries items).foldl literals.structPut []))

/-- The table of a literal. -/
def Literals.table (literals : Literals) (items : List Datum) : Datum :=
  .table (Datum.listed ((Datum.entries items).foldl literals.tablePut []))

/-! ## States -/

/-- The functions that a state can name. -/
inductive Consumer where
  | root | tokenchar | stringchar | escape1 | escapeh | escapeu | longstring | comment | atsign
deriving DecidableEq, Repr

/-- The `PFLAG`s, and the character in the low byte. -/
structure Flags where
  container : Bool := false
  buffer : Bool := false
  parens : Bool := false
  sqrbrackets : Bool := false
  curlybrackets : Bool := false
  string : Bool := false
  longstring : Bool := false
  readermac : Bool := false
  atsym : Bool := false
  comment : Bool := false
  token : Bool := false
  instring : Bool := false
  endCandidate : Bool := false
  char : UInt8 := 0
deriving DecidableEq, Repr

/-- `JanetParseState`. -/
structure ParseState where
  counter : Nat
  argn : Nat
  flags : Flags
  consumer : Consumer
  line : Nat
  column : Nat
deriving DecidableEq, Repr

/-- The arguments that a state counts. -/
def ParseState.owns (s : ParseState) : Nat := if s.flags.container then s.argn else 0

/-- `JanetParser`. The first state is the top of the stack. -/
structure Parser where
  args : List Datum
  states : List ParseState
  buf : List UInt8
  error : Option Text
  lookback : Option UInt8
  line : Nat
  column : Nat
  pending : Nat
  dead : Bool
  generatedError : Bool

/-- What a call never should come to: it leaves a block of memory, or takes for a tuple what was not made one; or it
loops. -/
inductive Fault where
  | memory
  | loops
deriving DecidableEq, Repr

namespace Parser

/-- `push_buf`. -/
def pushBuf (p : Parser) (bytes : List UInt8) : Parser := { p with buf := p.buf ++ bytes }

/-- `push_arg`. -/
def pushArg (p : Parser) (x : Datum) : Parser := { p with args := p.args ++ [x] }

/-- `pushstate`. -/
def pushstate (p : Parser) (consumer : Consumer) (flags : Flags) : Parser :=
  { p with states := ⟨0, 0, flags, consumer, p.line, p.column⟩ :: p.states }

/-- Write back the state at the top of the stack. -/
def setTop (p : Parser) (state : ParseState) : Parser := { p with states := state :: p.states.tail }

/-- An error with a fixed text. -/
def fail (p : Parser) (message : String) : Parser := { p with error := some message.toList }

/-- What a reader macro stands for. -/
def readerMacro (c : UInt8) : String :=
  if c == byte '\'' then "quote"
  else if c == byte ',' then "unquote"
  else if c == byte ';' then "splice"
  else if c == byte '|' then "short-fn"
  else if c == byte '~' then "quasiquote"
  else "<unknown>"

/-- A symbol with an ASCII name. -/
def csymbolv (name : String) : Datum := .symbol (name.toList.map byte)

/-- The loop of `popstate`, over the stack of states. -/
def popLoop (p : Parser) : List ParseState → Datum → Except Fault Parser
  | top :: newtop :: rest, val =>
    let val := val.mapped top.line top.column
    if newtop.flags.container then
      let newtop := { newtop with argn := newtop.argn + 1 }
      let p := { p with states := newtop :: rest }
      -- values at the root are wrapped in a tuple for their source mapping
      if rest.isEmpty then .ok ({ p with pending := p.pending + 1 }.pushArg (.tuple false top.line top.column [val]))
      else .ok (p.pushArg val)
    else if newtop.flags.readermac then
      popLoop p (newtop :: rest)
        (.tuple false newtop.line newtop.column [csymbolv (readerMacro newtop.flags.char), val])
    else .ok { p with states := newtop :: rest }
  | _, _ => .error .memory

/-- `popstate`. -/
def popstate (p : Parser) (val : Datum) : Except Fault Parser := popLoop p p.states val

/-- What a delimiter looks like in a message. -/
def openedBy (s : ParseState) : Text :=
  if s.flags.parens then ['(']
  else if s.flags.sqrbrackets then ['[']
  else if s.flags.curlybrackets then ['{']
  else if s.flags.string then ['"']
  else if s.flags.longstring then List.replicate s.argn '`'
  else []

/-- `delim_error`, for the state at the top of the stack. -/
def delimError (p : Parser) (c : Option Char) (msg : String) : Parser :=
  let opened := match p.states with
    | s :: _ :: _ => ", ".toList ++ openedBy s ++ " opened at line ".toList ++ (toString s.line).toList ++
        ", column ".toList ++ (toString s.column).toList
    | _ => []
  { p with error := some (msg.toList ++ c.toList ++ opened), generatedError := true }

/-! ## Strings -/

/-- `checkescape`. -/
def checkescape (c : UInt8) : Option UInt8 :=
  if c == byte 'x' || c == byte 'u' || c == byte 'U' then some 1
  else if c == byte 'n' then some 10
  else if c == byte 't' then some 9
  else if c == byte 'r' then some 13
  else if c == byte '0' || c == byte 'z' then some 0
  else if c == byte 'f' then some 12
  else if c == byte 'v' then some 11
  else if c == byte 'a' then some 7
  else if c == byte 'b' then some 8
  else if c == byte '\'' then some 39
  else if c == byte '?' then some 63
  else if c == byte 'e' then some 27
  else if c == byte '"' then some 34
  else if c == byte '\\' then some 92
  else none

/-- `write_codepoint`. -/
def writeCodepoint (codepoint : Nat) : List UInt8 :=
  let part (shift mask lead : Nat) : UInt8 := UInt8.ofNat (((codepoint >>> shift) &&& mask) ||| lead)
  if codepoint ≤ 0x7F then [UInt8.ofNat codepoint]
  else if codepoint ≤ 0x7FF then [part 6 0x1F 0xC0, part 0 0x3F 0x80]
  else if codepoint ≤ 0xFFFF then [part 12 0x0F 0xE0, part 6 0x3F 0x80, part 0 0x3F 0x80]
  else [part 18 0x07 0xF0, part 12 0x3F 0x80, part 6 0x3F 0x80, part 0 0x3F 0x80]

/-- `escapeh`. -/
def escapeh (p : Parser) (state : ParseState) (c : UInt8) : Parser :=
  match toHex c with
  | none => p.fail "invalid hex digit in hex escape"
  | some digit =>
    let argn := state.argn <<< 4 + digit
    let counter := state.counter - 1
    if counter = 0 then
      (p.pushBuf [UInt8.ofNat (argn &&& 0xFF)]).setTop
        { state with argn := 0, counter := 0, consumer := .stringchar }
    else p.setTop { state with argn := argn, counter := counter }

/-- `escapeu`. -/
def escapeu (p : Parser) (state : ParseState) (c : UInt8) : Parser :=
  match toHex c with
  | none => p.fail "invalid hex digit in unicode escape"
  | some digit =>
    let argn := state.argn <<< 4 + digit
    let counter := state.counter - 1
    if counter = 0 then
      if argn > 0x10FFFF then (p.setTop { state with argn := argn, counter := 0 }).fail "invalid unicode codepoint"
      else (p.pushBuf (writeCodepoint argn)).setTop { state with argn := 0, counter := 0, consumer := .stringchar }
    else p.setTop { state with argn := argn, counter := counter }

/-- `escape1`. -/
def escape1 (p : Parser) (state : ParseState) (c : UInt8) : Parser :=
  match checkescape c with
  | none => p.fail "invalid string escape sequence"
  | some e =>
    if c == byte 'x' then p.setTop { state with counter := 2, argn := 0, consumer := .escapeh }
    else if c == byte 'u' || c == byte 'U' then
      p.setTop { state with counter := if c == byte 'u' then 4 else 6, argn := 0, consumer := .escapeu }
    else (p.pushBuf [e]).setTop { state with consumer := .stringchar }

/-- Only spaces before the text of each line, up to the given column; with `some j` the scan is at the beginning of a
line, `j` columns before that. -/
def canReindent (indentCol : Nat) : Option Nat → List UInt8 → Bool
  | _, [] => true
  | none, c :: r => canReindent indentCol (if c == 10 then some indentCol else none) r
  | some 0, c :: r => canReindent indentCol (if c == 10 then some indentCol else none) r
  | some (j + 1), c :: r =>
    if c == 10 then canReindent indentCol (some indentCol) r
    else if c == byte ' ' then canReindent indentCol (some j) r
    else if c == 13 && r.head? == some 10 then canReindent indentCol none r
    else false

/-- Remove what stands before the given column in each line but the first. -/
def reindent (indentCol : Nat) : Option Nat → List UInt8 → List UInt8
  | _, [] => []
  | none, c :: r => c :: reindent indentCol (if c == 10 then some indentCol else none) r
  | some 0, c :: r => c :: reindent indentCol (if c == 10 then some indentCol else none) r
  | some (j + 1), c :: r =>
    if c == 10 then c :: reindent indentCol (some indentCol) r else reindent indentCol (some j) r

/-- Remove a leading end of line. -/
def dropLeadingEOL : List UInt8 → List UInt8
  | 13 :: 10 :: bytes => bytes
  | 10 :: bytes => bytes
  | bytes => bytes

/-- The text of a long string. -/
def longText (column : Nat) (bytes : List UInt8) : List UInt8 :=
  let bytes := if canReindent (column - 1) none bytes then reindent (column - 1) none bytes else bytes
  let bytes := dropLeadingEOL bytes
  -- a trailing end of line is a leading one of the reversed text, with its bytes reversed
  match bytes.reverse with
  | 10 :: 13 :: rest => rest.reverse
  | 10 :: rest => rest.reverse
  | _ => bytes

/-- `stringend`. -/
def stringend (p : Parser) (state : ParseState) : Except Fault Parser :=
  let bytes := if state.flags.longstring then longText state.column p.buf else p.buf
  let ret := if state.flags.buffer then Datum.buffer bytes else .string bytes
  popstate { p with buf := [] } ret

/-- `stringchar`. -/
def stringchar (p : Parser) (state : ParseState) (c : UInt8) : Except Fault Parser :=
  if c == byte '\\' then .ok (p.setTop { state with consumer := .escape1 })
  else if c == byte '"' then p.stringend state
  else if c != 10 && c != 13 then .ok (p.pushBuf [c])
  else .ok p

/-- `longstring`. -/
def longstring (p : Parser) (state : ParseState) (c : UInt8) : Except Fault (Parser × Bool) :=
  if state.flags.instring then
    if c == byte '`' then
      .ok (p.setTop { state with
        flags := { state.flags with endCandidate := true, instring := false }, counter := 1 }, true)
    else .ok (p.pushBuf [c], true)
  else if state.flags.endCandidate then
    if state.counter = state.argn then do .ok (← p.stringend state, false)
    else if c == byte '`' && state.counter < state.argn then
      .ok (p.setTop { state with counter := state.counter + 1 }, true)
    else
      .ok ((p.pushBuf (List.replicate state.counter (byte '`') ++ [c])).setTop { state with
        counter := 0, flags := { state.flags with endCandidate := false, instring := true } }, true)
  else
    let state := { state with argn := state.argn + 1 }
    if c != byte '`' then
      .ok ((p.pushBuf [c]).setTop { state with flags := { state.flags with instring := true } }, true)
    else .ok (p.setTop state, true)

/-! ## Tokens -/

section Consumers

variable (literals : Literals)

/-- The text of a keyword, which is spelled without its colon. -/
def keyword (nonAscii : Bool) (name : List UInt8) : String ⊕ Datum :=
  if nonAscii && !janetValidUtf8 name then .inl "invalid utf-8 in keyword" else .inr (.keyword name)

/-- The value of a token that is no keyword. -/
def atom (nonAscii : Bool) (first : UInt8) (buf : List UInt8) : String ⊕ Datum :=
  let startDig := byte '0' ≤ first && first ≤ byte '9'
  let startNum := startDig || first == byte '-' || first == byte '+' || first == byte '.'
  match if startNum then literals.scanNumber buf else none with
  | some number => .inr number
  | none =>
    if buf == "nil".toList.map byte then .inr .nil
    else if buf == "false".toList.map byte then .inr (.boolean false)
    else if buf == "true".toList.map byte then .inr (.boolean true)
    else if startDig then .inl "symbol literal cannot start with a digit"
    else if nonAscii && !janetValidUtf8 buf then .inl "invalid utf-8 in symbol"
    else .inr (.symbol buf)

/-- `tokenchar`. -/
def tokenchar (p : Parser) (state : ParseState) (c : UInt8) : Except Fault (Parser × Bool) :=
  if janetIsSymbolChar c then
    let p := p.pushBuf [c]
    .ok (if c > 127 then p.setTop { state with argn := 1 } else p, true)
  else
    match p.buf with
    | [] => .error .memory
    | first :: rest =>
      match if first == byte ':' then keyword (state.argn != 0) rest else atom literals (state.argn != 0) first p.buf with
      | .inl message => .ok (p.fail message, false)
      | .inr ret => do .ok (← popstate { p with buf := [] } ret, false)

/-- `comment`. -/
def comment (p : Parser) (c : UInt8) : Parser :=
  if c == 10 then { p with states := p.states.tail, buf := [] } else p.pushBuf [c]

/-! ## Containers -/

/-- Take the last `n` arguments. -/
def takeArgs (p : Parser) (n : Nat) : Except Fault (Parser × List Datum) :=
  if n ≤ p.args.length then
    .ok ({ p with args := p.args.take (p.args.length - n) }, p.args.drop (p.args.length - n))
  else .error .memory

/-- `close_tuple`, `close_array`, `close_struct` and `close_table`, by what they make of the arguments. -/
def close (p : Parser) (state : ParseState) (make : List Datum → Datum) : Except Fault Parser := do
  let (p, items) ← p.takeArgs state.argn
  popstate p (make items)

/-- `atsign`. -/
def atsign (p : Parser) (c : UInt8) : Parser × Bool :=
  let p := { p with states := p.states.tail }
  if c == byte '{' then (p.pushstate .root { container := true, curlybrackets := true, atsym := true }, true)
  else if c == byte '"' then (p.pushstate .stringchar { buffer := true, string := true }, true)
  else if c == byte '`' then (p.pushstate .longstring { buffer := true, longstring := true }, true)
  else if c == byte '[' then (p.pushstate .root { container := true, sqrbrackets := true, atsym := true }, true)
  else if c == byte '(' then (p.pushstate .root { container := true, parens := true, atsym := true }, true)
  else ((p.pushstate .tokenchar { token := true }).pushBuf [byte '@'], false)

/-- A closing delimiter. -/
def closing (literals : Literals) (p : Parser) (state : ParseState) (c : UInt8) : Except Fault Parser :=
  let char := Char.ofNat c.toNat
  if p.states.length = 1 then .ok (p.delimError char "unexpected closing delimiter ")
  else if (c == byte ')' && state.flags.parens) || (c == byte ']' && state.flags.sqrbrackets) then
    if state.flags.atsym then p.close state .array
    else p.close state (.tuple (c == byte ']') (-1) (-1))
  else if c == byte '}' && state.flags.curlybrackets then
    if state.argn % 2 = 1 then .ok (p.fail "struct and table literals expect even number of arguments")
    else if state.flags.atsym then p.close state literals.table
    else p.close state literals.struct
  else .ok (p.delimError char "mismatched delimiter ")

/-- `root`. -/
def root (literals : Literals) (p : Parser) (state : ParseState) (c : UInt8) : Except Fault (Parser × Bool) :=
  if c == byte '\'' || c == byte ',' || c == byte ';' || c == byte '~' || c == byte '|' then
    .ok (p.pushstate .root { readermac := true, char := c }, true)
  else if c == byte '"' then .ok (p.pushstate .stringchar { string := true }, true)
  else if c == byte '#' then .ok (p.pushstate .comment { comment := true }, true)
  else if c == byte '@' then .ok (p.pushstate .atsign { atsym := true }, true)
  else if c == byte '`' then .ok (p.pushstate .longstring { longstring := true }, true)
  else if c == byte ')' || c == byte ']' || c == byte '}' then do .ok (← p.closing literals state c, true)
  else if c == byte '(' then .ok (p.pushstate .root { container := true, parens := true }, true)
  else if c == byte '[' then .ok (p.pushstate .root { container := true, sqrbrackets := true }, true)
  else if c == byte '{' then .ok (p.pushstate .root { container := true, curlybrackets := true }, true)
  else if isWhitespace c then .ok (p, true)
  else if !janetIsSymbolChar c then .ok (p.fail "unexpected character", true)
  else .ok (p.pushstate .tokenchar { token := true }, false)

/-! ## The parser -/

/-- Call the consumer of the state at the top of the stack. -/
def consumer (p : Parser) (c : UInt8) : Except Fault (Parser × Bool) :=
  match p.states with
  | [] => .error .memory
  | state :: _ =>
    match state.consumer with
    | .root => p.root literals state c
    | .tokenchar => p.tokenchar literals state c
    | .stringchar => do .ok (← p.stringchar state c, true)
    | .escape1 => .ok (p.escape1 state c, true)
    | .escapeh => .ok (p.escapeh state c, true)
    | .escapeu => .ok (p.escapeu state c, true)
    | .longstring => p.longstring state c
    | .comment => .ok (p.comment c, true)
    | .atsign => .ok (p.atsign c)

/-- The loop of `janet_parser_consume`, for at most `n` calls. -/
def consumeLoop (c : UInt8) : Nat → Parser → Except Fault Parser
  | 0, _ => .error .loops
  | n + 1, p => do
    let (p, consumed) ← p.consumer literals c
    if consumed || p.error.isSome then .ok p else consumeLoop c n p

section Loop

variable {literals} {p q : Parser} {c : UInt8} {n : Nat} {used : Bool}

/-- A consumer has used the byte. -/
theorem consumeLoop_used (h : p.consumer literals c = .ok (q, true)) : p.consumeLoop literals c (n + 1) = .ok q := by
  rw [consumeLoop, h]
  rfl

/-- A consumer has failed. -/
theorem consumeLoop_failed (h : p.consumer literals c = .ok (q, used)) (herror : q.error.isSome = true) :
    p.consumeLoop literals c (n + 1) = .ok q := by
  rw [consumeLoop, h]
  show (if used || q.error.isSome then _ else _) = _
  rw [herror, Bool.or_true, if_pos rfl]

/-- A consumer hands the byte on. -/
theorem consumeLoop_next (h : p.consumer literals c = .ok (q, false)) (herror : q.error = none) :
    p.consumeLoop literals c (n + 1) = q.consumeLoop literals c n := by
  rw [consumeLoop, h]
  show (if false || q.error.isSome then _ else _) = _
  rw [herror, if_neg (by decide)]

end Loop

/-- Where the next byte stands. -/
def advance (p : Parser) (c : UInt8) : Parser :=
  if c == 13 then { p with line := p.line + 1, column := 0 }
  else if c == 10 then { p with column := 0, line := if p.lookback != some 13 then p.line + 1 else p.line }
  else { p with column := p.column + 1 }

/-- What a byte does to a parser that is not dead: three consumers are enough. -/
def feed (p : Parser) (c : UInt8) : Except Fault Parser := do
  let q ← (p.advance c).consumeLoop literals c 3
  .ok { q with lookback := some c }

/-! ## Calls -/

/-- A call of the parser. -/
abbrev Parsing := Computation Parser Text Fault

/-- `janet_parser_checkdead`. -/
def checkdead : Parsing Unit := fun p =>
  if p.dead || p.generatedError then (.throws "parser is dead, cannot consume".toList, p)
  else if p.error.isSome then (.throws "parser has unchecked error, cannot consume".toList, p)
  else (.returns (), p)

/-- What `janet_parser_consume` does behind its check. -/
def feeding (c : UInt8) : Parsing Unit := fun p =>
  match p.feed literals c with
  | .ok q => (.returns (), q)
  | .error fault => (.traps fault, p)

/-- `janet_parser_consume`. -/
def consume (c : UInt8) : Parsing Unit := do
  checkdead
  feeding literals c

/-- What `janet_parser_eof` does behind the last byte, which has no place of its own. -/
def ended (line column : Nat) (p : Parser) : Parser :=
  let q := if p.states.length > 1 then p.delimError none "unexpected end of source" else p
  { q with line := line, column := column, dead := true }

/-- `janet_parser_eof`. -/
def eof : Parsing Unit := fun p => (do
  checkdead
  consume literals 10
  Computation.modify (ended p.line p.column) : Parsing Unit) p

/-- The states of the parser as the VM tells them. -/
inductive Status where
  | root | error | pending | dead
deriving DecidableEq, Repr

/-- `janet_parser_status`. -/
def status (p : Parser) : Status :=
  if p.error.isSome then .error
  else if p.dead || p.generatedError then .dead
  else if p.states.length > 1 then .pending
  else .root

/-- `janet_parser_flush`: the state at the bottom of the stack stays as it is. -/
def flush (p : Parser) : Parser :=
  { p with args := [], states := p.states.drop (p.states.length - 1), buf := [], pending := 0 }

/-- `janet_parser_error`: take the error. -/
def takeError : Parsing (Option Text) := fun p =>
  match p.status with
  | .error => (.returns p.error, { p with error := none, generatedError := false }.flush)
  | _ => (.returns none, p)

/-- `janet_parser_has_more`. -/
def hasMore (p : Parser) : Bool := p.pending != 0

/-- Count one value less at the bottom of the stack. -/
def uncount : List ParseState → List ParseState
  | [] => []
  | [bottom] => [{ bottom with argn := bottom.argn - 1 }]
  | top :: rest => top :: uncount rest

/-- `janet_parser_produce` and `janet_parser_produce_wrapped`: the first value, without or with the tuple around it. -/
def produce (wrapped : Bool) : Parsing Datum := fun p =>
  if p.pending = 0 then (.returns .nil, p)
  else match p.args with
    | [] => (.traps .memory, p)
    | x :: args =>
      let q := { p with args := args, pending := p.pending - 1, states := uncount p.states }
      if wrapped then (.returns x, q)
      else match x with
        | .tuple _ _ _ (item :: _) => (.returns item, q)
        | _ => (.traps .memory, p)

/-- `cfun_parse_insert` lets a token end. -/
def finishToken : Parsing Unit := fun p =>
  match p.states with
  | [] => (.traps .memory, p)
  | s :: _ =>
    if s.consumer = .tokenchar then (do
      consume literals (byte ' ')
      Computation.modify (fun q => { q with column := q.column - 1 }) : Parsing Unit) p
    else (.returns (), p)

/-- `cfun_parse_insert` puts the value into the state `s`, which stands between `above` and `below`. -/
def insertAt (print : Janet → List UInt8) (x : Janet) (above : List ParseState) (s : ParseState)
    (below : List ParseState) : Parsing Unit := fun p =>
  if s.flags.container then
    let q := { p with states := above ++ { s with argn := s.argn + 1 } :: below }
    if p.states.length = 1 then
      (.returns (), { q with pending := q.pending + 1 }.pushArg (.tuple false (-1) (-1) [.value x]))
    else (.returns (), q.pushArg (.value x))
  else if s.flags.string || s.flags.longstring then (.returns (), p.pushBuf (print x))
  else (.throws "cannot insert value into parser".toList, p)

/-- `cfun_parse_insert` looks through a comment. -/
def insertTop (print : Janet → List UInt8) (x : Janet) : Parsing Unit := fun p =>
  match p.states with
  | [] => (.traps .memory, p)
  | s :: below =>
    if s.flags.comment then
      match below with
      | [] => (.traps .memory, p)
      | t :: below => insertAt print x [s] t below p
    else insertAt print x [] s below p

/-- `cfun_parse_insert`. -/
def insert (print : Janet → List UInt8) (x : Janet) : Parsing Unit := do
  finishToken literals
  insertTop print x

/-- The line that `cfun_parse_where` sets. -/
def setLine (line : Option Int) : Parsing Unit := fun p =>
  match line with
  | none => (.returns (), p)
  | some line =>
    if line < 1 then (.throws ("invalid line number ".toList ++ (toString line).toList), p)
    else (.returns (), { p with line := line.toNat })

/-- The column that `cfun_parse_where` sets. -/
def setColumn (column : Option Int) : Parsing Unit := fun p =>
  match column with
  | none => (.returns (), p)
  | some column =>
    if column < 0 then (.throws ("invalid column number ".toList ++ (toString column).toList), p)
    else (.returns (), { p with column := column.toNat })

/-- `cfun_parse_where`. -/
def setWhere (line column : Option Int) : Parsing (Nat × Nat) := do
  setLine line
  setColumn column
  fun p => (.returns (p.line, p.column), p)

/-! ## Looking at the state -/

/-- What `janet_wrap_parse_state` tells of a state. -/
structure Frame where
  args : Option (List Datum)
  type : String
  buffer : Option (List UInt8)
  line : Nat
  column : Nat

/-- The type of a frame, and whether it shows the buffer. -/
def frameType (flags : Flags) : String × Bool :=
  if flags.parens || flags.sqrbrackets then (if flags.atsym then "array" else "tuple", false)
  else if flags.curlybrackets then (if flags.atsym then "table" else "struct", false)
  else if flags.string || flags.longstring then (if flags.buffer then "buffer" else "string", true)
  else if flags.comment then ("comment", true)
  else if flags.token then ("token", true)
  else if flags.atsym then ("at", false)
  else if flags.readermac then
    (if readerMacro flags.char = "short-fn" || readerMacro flags.char = "<unknown>" then "<reader>"
      else readerMacro flags.char, false)
  else ("root", false)

/-- `janet_wrap_parse_state`. -/
def frame (p : Parser) (s : ParseState) (args : List Datum) : Frame where
  args := if s.flags.container then some args else none
  type := (frameType s.flags).1
  buffer := if (frameType s.flags).2 then some p.buf else none
  line := s.line
  column := s.column

/-- The loop of `parser_state_frames`, from the top of the stack on; the arguments before `stop` are not told yet. -/
def framesFrom (p : Parser) : List ParseState → Nat → Except Fault (List Frame)
  | [], _ => .ok []
  | s :: below, stop =>
    if s.owns ≤ stop then do
      .ok ((← p.framesFrom below (stop - s.owns)) ++ [p.frame s ((p.args.drop (stop - s.owns)).take s.owns)])
    else .error .memory

/-- `parser_state_frames`. -/
def frames (p : Parser) : Except Fault (List Frame) := p.framesFrom p.states p.args.length

/-- `parser_state_delimiters`. -/
def delimiters (p : Parser) : Text := p.states.reverse.flatMap openedBy

/-- `janet_parser_init`. -/
def init : Parser :=
  { args := [], states := [⟨0, 0, { container := true }, .root, 1, 0⟩], buf := [], error := none, lookback := none,
    line := 1, column := 0, pending := 0, dead := false, generatedError := false }

end Consumers

end Parser

end SwiftJanet.Parse
