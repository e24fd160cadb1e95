import SwiftJanet.Copy.CopyOut
import SwiftJanet.VM.Script

/-!
# `JanetVM.eval`

The parse-compile-run loop of the VM (`janetDobytes`), the event loop that it drives in the end (`janetLoop`), and what
`JanetVM.eval` makes of their result.

- `Run`: what a fiber does, in stretches between which it waits for the event loop;
- `JanetParser`: the parser, which completes at most one value at top level with each byte. What compiling and running
  that value comes to is part of the `Form` it produces;
- the order in which the event loop resumes fibers is left open (`pick`).
-/

namespace SwiftJanet.Eval

open Lib

/-! ## Fibers -/

/-- A value that can be raised: if it is a string, there is one. -/
structure Thrown where
  value : Janet
  there : janetChecktype value .string = true → (janetUnwrapString value).isSome

/-- What a fiber does from here on. Each stretch changes the heap and hands out a value; `raises` stands for the
signals other than `ok` that end a fiber. A fiber that is suspended is resumed in the end: one that nothing resumes, and one
that goes on for ever, is left out. -/
inductive Run where
  | finishes (effect : Heap → Heap) (value : Janet)
  | raises (effect : Heap → Heap) (error : Thrown)
  | suspends (effect : Heap → Heap) (value : Janet) (rest : Run)

/-- The signals of such fibers. -/
inductive JanetSignal where
  | ok | error | event
deriving DecidableEq, Repr

/-- A fiber, by how it stopped last; one that waits for the event loop has something left to do. -/
inductive JanetFiber where
  | ok (lastValue : Janet)
  | error (lastValue : Thrown)
  | event (lastValue : Janet) (rest : Run)

namespace JanetFiber

def signal : JanetFiber → JanetSignal
  | ok _ => .ok
  | error _ => .error
  | event _ _ => .event

def lastValue : JanetFiber → Janet
  | ok v | event v _ => v
  | error e => e.value

def waits : JanetFiber → Bool
  | event _ _ => true
  | _ => false

end JanetFiber

/-- `janet_continue`, on a fiber with this left to do. -/
def janetContinue : Run → Heap → JanetFiber × Heap
  | .finishes effect value, heap => (.ok value, effect heap)
  | .raises effect error, heap => (.error error, effect heap)
  | .suspends effect value rest, heap => (.event value rest, effect heap)

/-! ## The event loop -/

/-- Continue the waiting fiber with `n` waiting fibers before it. -/
def resumeNth : Nat → List JanetFiber → Heap → List JanetFiber × Heap
  | _, [], heap => ([], heap)
  | 0, .event _ rest :: fibers, heap =>
    let (fiber, heap) := janetContinue rest heap
    (fiber :: fibers, heap)
  | n + 1, .event value rest :: fibers, heap =>
    let (fibers, heap) := resumeNth n fibers heap
    (.event value rest :: fibers, heap)
  | n, fiber :: fibers, heap =>
    let (fibers, heap) := resumeNth n fibers heap
    (fiber :: fibers, heap)

/-- How many fibers wait. -/
def waiting (fibers : List JanetFiber) : Nat := fibers.countP JanetFiber.waits

/-- How many stretches are left. -/
def Run.length : Run → Nat
  | suspends _ _ rest => rest.length + 1
  | _ => 1

def JanetFiber.left : JanetFiber → Nat
  | event _ rest => rest.length
  | _ => 0

/-- `janet_loop1`: an error only prints a stack trace. -/
def janetLoop1 (pick : Heap → List JanetFiber → Nat) (fibers : List JanetFiber) (heap : Heap) :
    List JanetFiber × Heap :=
  resumeNth (pick heap fibers % waiting fibers) fibers heap

/-- `janet_loop`, for at most `n` turns. -/
def janetLoopFor (pick : Heap → List JanetFiber → Nat) : Nat → List JanetFiber → Heap → List JanetFiber × Heap
  | 0, fibers, heap => (fibers, heap)
  | n + 1, fibers, heap =>
    if waiting fibers = 0 then (fibers, heap)
    else
      let (fibers, heap) := janetLoop1 pick fibers heap
      janetLoopFor pick n fibers heap

/-- `janet_loop`: a turn for every stretch that is left. -/
def janetLoop (pick : Heap → List JanetFiber → Nat) (fibers : List JanetFiber) (heap : Heap) :
    List JanetFiber × Heap :=
  janetLoopFor pick (fibers.map JanetFiber.left).sum fibers heap

/-! ## The parser -/

/-- What becomes of a value at top level: it does not compile, or its thunk starts a fiber. -/
inductive Form where
  | fails (effect : Heap → Heap) (error : Text) (line column : Int)
  | starts (run : Run)

/-- `JanetParser`, between two calls. A byte completes at most one value at top level, which is taken before the
next byte. -/
structure JanetParser (Q : Type) where
  init : Q
  consume : Q → UInt8 → Q × Option Form
  eof : Q → Q × Option Form
  error : Q → Option Text
  line : Q → Int
  column : Q → Int

/-! ## `janet_dobytes` -/

def janetDoErrorRuntime : BitVec 32 := 1#32
def janetDoErrorCompile : BitVec 32 := 2#32
def janetDoErrorParse : BitVec 32 := 4#32

/-- The variables of `janet_dobytes`, with the fibers it has started, the last one last. -/
structure Dobytes where
  heap : Heap
  fibers : List JanetFiber
  errflags : BitVec 32
  done : Bool
  ret : Janet

/-- "path:line:column: what: message". -/
def errorBytes (sourcePath : List UInt8) (line column : Int) (what message : Text) : List UInt8 :=
  sourcePath ++ Text.utf8 (":".toList ++ (toString line).toList ++ ":".toList ++ (toString column).toList ++
    ": ".toList ++ what ++ ": ".toList ++ message)

namespace Dobytes

/-- Stop with an error string and a flag. -/
def fail (st : Dobytes) (flag : BitVec 32) (errstr : List UInt8) : Dobytes :=
  let (heap, p) := st.heap.janetString errstr
  { st with heap := heap, errflags := st.errflags ||| flag, done := true, ret := janetWrapString p }

/-- Compile and run one value; the place of a compile error is the parser's unless the compiler knows better. -/
def evaluate (sourcePath : List UInt8) (line column : Int) (st : Dobytes) : Form → Dobytes
  | .starts run =>
    let (fiber, heap) := janetContinue run st.heap
    let st := { st with heap := heap, fibers := st.fibers ++ [fiber], ret := fiber.lastValue }
    if fiber.signal ≠ .ok ∧ fiber.signal ≠ .event then
      { st with errflags := st.errflags ||| janetDoErrorRuntime, done := true }
    else st
  | .fails effect error errorLine errorColumn =>
    let known := errorLine > 0 ∧ errorColumn > 0
    fail { st with heap := effect st.heap } janetDoErrorCompile
      (errorBytes sourcePath (if known then errorLine else line) (if known then errorColumn else column)
        "compile error".toList error)

variable {Q : Type} (parser : JanetParser Q) (sourcePath : List UInt8)

/-- One turn of the loop: the parsed value, and the parser's status if that went well. -/
def turn (q : Q) (form : Option Form) (st : Dobytes) : Dobytes :=
  let st := match form with
    | some form => evaluate sourcePath (parser.line q) (parser.column q) st form
    | none => st
  if st.done then st
  else match parser.error q with
    | some error => fail st janetDoErrorParse
        (errorBytes sourcePath (parser.line q) (parser.column q) "parse error".toList error)
    | none => st

/-- The loop, over the bytes that are left. -/
def loop : List UInt8 → Q → Option Form → Dobytes → Dobytes
  | [], q, form, st =>
    let st := turn parser sourcePath q form st
    if st.done then st
    else
      let (q, form) := parser.eof q
      { turn parser sourcePath q form st with done := true }
  | byte :: bytes, q, form, st =>
    let st := turn parser sourcePath q form st
    if st.done then st
    else
      let (q, form) := parser.consume q byte
      loop bytes q form st

end Dobytes

section Eval

variable {Q : Type} (parser : JanetParser Q) (pick : Heap → List JanetFiber → Nat)

/-- `janet_dobytes`: the flags, the value for `out`, and the heap. `stackn` says how many interpreters are active. -/
def janetDobytes (stackn : Nat) (bytes sourcePath : List UInt8) (heap : Heap) : BitVec 32 × Janet × Heap :=
  let st := Dobytes.loop parser sourcePath bytes parser.init none ⟨heap, [], 0#32, false, janetWrapNil⟩
  if stackn = 0 then
    let (fibers, heap) := janetLoop pick st.fibers st.heap
    match fibers.getLast? with
    | some fiber => (st.errflags, if st.errflags = 0#32 then fiber.lastValue else st.ret, heap)
    | none => (st.errflags, st.ret, heap)
  else (st.errflags, st.ret, st.heap)

/-- A C string as Swift passes a `String`: its UTF-8 and a NUL. -/
def cString (text : Text) : List UInt8 := text.utf8 ++ [0]

/-- What C reads of a string: up to the first NUL. -/
def untilNul (str : List UInt8) : List UInt8 := str.takeWhile (· ≠ 0)

/-- What C counts of a string in an `int32_t` without overflow. -/
def Counted (str : List UInt8) : Prop := (untilNul str).length < 2 ^ 31

instance (str : List UInt8) : Decidable (Counted str) := inferInstanceAs (Decidable (_ < _))

/-- `janet_dostring`: `none` where its counter, or the one of `janet_cstring`, overflows. -/
def janetDostring (stackn : Nat) (str sourcePath : List UInt8) (heap : Heap) : Option (BitVec 32 × Janet × Heap) :=
  if Counted str ∧ Counted sourcePath then
    some (janetDobytes parser pick stackn (untilNul str) (untilNul sourcePath) heap)
  else none

/-- `JanetError.Phase.init(dostringFlags:)`. -/
def phaseOfFlags (flags : BitVec 32) : Phase :=
  if flags &&& janetDoErrorParse ≠ 0#32 then .parse
  else if flags &&& janetDoErrorCompile ≠ 0#32 then .compile
  else .runtime

/-- `JanetVM.errorMessage(from:)`, where `janetToString` prints a value that is no string. -/
def errorMessage (janetToString : Heap → Janet → List UInt8) (heap : Heap) (raw : Janet) : Result Text :=
  if janetChecktype raw .string then ofJanetBytes heap (janetUnwrapString raw)
  else .returns (Text.decoding (janetToString heap raw))

/-- What `eval` does with the result of `janet_dostring`. -/
def report [CanonicalForm] (janetToString : Heap → Janet → List UInt8) :
    BitVec 32 × Janet × Heap → Result JanetValue × Heap
  | (flags, out, heap) =>
    if flags ≠ 0#32 then
      (do let message ← errorMessage janetToString heap out
          .throws ⟨phaseOfFlags flags, message⟩, heap)
    else (copyOut heap out, heap)

/-- `JanetVM.eval`, on its own thread. -/
def eval [CanonicalForm] (janetToString : Heap → Janet → List UInt8) (stackn : Nat) (source sourceName : Text)
    (heap : Heap) : Result JanetValue × Heap :=
  match janetDostring parser pick stackn (cString source) (cString sourceName) heap with
  | some done => report janetToString done
  | none => (.traps .memory, heap)

end Eval

end SwiftJanet.Eval
