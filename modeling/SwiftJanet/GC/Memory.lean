import SwiftJanet.Lib.Marking
import SwiftJanet.Bytecode.Instruction

/-!
# Memory that is collected

The blocks that the VM allocates, and what they refer to.

- `Block`: what a block holds. `Memory.refs` lists what the functions `janet_mark_…` follow from it, in their order: a
  value with `janet_mark`, which costs a level of depth, and any other pointer straight;
- `Memory`: the two lists of blocks, the roots, and the cache of symbols;
- `Memory.Sound`: nothing dangles. Whatever a block or a root refers to, weakly too, is there, and an environment on a stack
  is that of a frame.
-/

namespace SwiftJanet.GC

open Lib

/-! ## Blocks -/

/-- What a pointer is a pointer to. -/
inductive Kind where
  | string | function | array | table | struct | tuple | buffer | fiber | abstract | funcenv | funcdef
deriving DecidableEq, Repr

/-- Where a block is, and what it is taken for. -/
abbrev Address := Kind × Nat

/-- What is followed from a block. -/
abbrev Ref := Edge Janet Address

/-- The block of a value: the cases of `janet_mark` and of `janet_check_liveref`. -/
def target (x : Janet) : Option Address :=
  let p := (janetUnwrapPointer x).getD 0
  match janetType x with
  | .string | .keyword | .symbol => some (.string, p)
  | .function => some (.function, p)
  | .array => some (.array, p)
  | .table => some (.table, p)
  | .struct => some (.struct, p)
  | .tuple => some (.tuple, p)
  | .buffer => some (.buffer, p)
  | .fiber => some (.fiber, p)
  | .abstract => some (.abstract, p)
  | .number | .nil | .boolean | .cfunction | .pointer => none

/-- `JanetFiberStatus`. -/
inductive FiberStatus where
  | dead | error | debug | pending
  | user (n : Nat)
  | new | alive
deriving DecidableEq, Repr

/-- The fiber will not run any more. -/
def FiberStatus.isFinished : FiberStatus → Bool
  | .dead | .error => true
  | .user n => n ≤ 4
  | _ => false

/-- `JanetStackFrame`, with its slots and with what the definition of its function says. -/
structure StackFrame where
  start : Nat
  func : Option Nat
  env : Option Nat
  slots : List Janet
  slotcount : Nat
  closureBitset : Option (List (BitVec 32))
  /-- A function has all its slots. -/
  filled : func.isSome → slots.length = slotcount

/-- `JanetFiber`; `callback` lists what its callback marks. -/
structure Fiber where
  status : FiberStatus
  lastValue : Janet
  arguments : List Janet
  frames : List StackFrame
  env : Option Nat
  supervisorChannel : Option Nat
  evStream : Option Nat
  callback : List Janet
  child : Option Nat
  /-- No two frames are at one place. -/
  starts : (frames.map StackFrame.start).Nodup

/-- `JanetFuncEnv`: on the stack of a fiber, on a stack that has to be looked for, or off it. -/
structure FuncEnv where
  offset : Int
  length : Nat
  fiber : Nat
  values : List Janet

/-- The environment is that of a frame, whose function has as many slots. -/
def Fiber.HasFrame (f : Fiber) (env : FuncEnv) : Prop :=
  ∃ frame ∈ f.frames, env.offset = frame.start ∧ frame.func.isSome ∧ env.length ≤ frame.slots.length

/-- `JanetFuncDef`, as the collector sees it. -/
structure Definition where
  constants : List Janet
  defs : List Nat
  source : Option Nat
  name : Option Nat
  symbols : List Nat

/-- A block of memory. An abstract object lists what its type marks; the ones that threads share are not among the blocks. -/
inductive Block where
  | string (symbol : Bool)
  | buffer
  | array (weak : Bool) (data : List Janet)
  | table (weakKeys weakValues : Bool) (count deleted : Int) (data : List JanetKV) (proto : Option Nat)
  | struct (data : List JanetKV) (proto : Option Nat)
  | tuple (data : List Janet)
  | function (definition : Option Nat) (envs : List Nat)
  | funcenv (env : FuncEnv)
  | funcdef (d : Definition)
  | fiber (f : Fiber)
  | abstract (marks : List Janet)

namespace Block

/-- What a block is. -/
def kind : Block → Kind
  | .string _ => .string
  | .buffer => .buffer
  | .array .. => .array
  | .table .. => .table
  | .struct .. => .struct
  | .tuple _ => .tuple
  | .function .. => .function
  | .funcenv _ => .funcenv
  | .funcdef _ => .funcdef
  | .fiber _ => .fiber
  | .abstract _ => .abstract

/-- The memory type is one of the weak ones. -/
def isWeak : Block → Bool
  | .array weak _ => weak
  | .table weakKeys weakValues _ _ _ _ => weakKeys || weakValues
  | _ => false

/-- What `janet_mark_values`, `janet_mark_keys` or `janet_mark_kvs` follows in a table. -/
def tableRefs (weakKeys weakValues : Bool) (data : List JanetKV) : List Ref :=
  match weakKeys, weakValues with
  | true, false => data.map fun kv => .value kv.value
  | false, true => data.map fun kv => .value kv.key
  | false, false => data.flatMap fun kv => [.value kv.key, .value kv.value]
  | true, true => []

/-- What is followed from a frame. -/
def frameRefs (frame : StackFrame) : List Ref :=
  frame.func.toList.map (fun p => .node (.function, p)) ++ frame.env.toList.map (fun p => .node (.funcenv, p)) ++
    frame.slots.map .value

/-- `janet_mark_funcenv`, behind `janet_env_maybe_detach`. -/
def envRefs (env : FuncEnv) : List Ref :=
  if env.offset > 0 then [.node (.fiber, env.fiber)] else env.values.map .value

/-- What is followed from a block. From the environment of a function it is what the block holds itself. -/
def refs : Block → List Ref
  | .string _ | .buffer => []
  | .array weak data => if weak then [] else data.map .value
  | .table weakKeys weakValues _ _ data proto =>
    tableRefs weakKeys weakValues data ++ proto.toList.map fun p => .node (.table, p)
  | .struct data proto =>
    (data.flatMap fun kv => [.value kv.key, .value kv.value]) ++ proto.toList.map fun p => .node (.struct, p)
  | .tuple data => data.map .value
  | .function none _ => []
  | .function (some d) envs => envs.map (fun p => .node (.funcenv, p)) ++ [.node (.funcdef, d)]
  | .funcenv env => envRefs env
  | .funcdef d =>
    d.constants.map .value ++ d.defs.map (fun p => .node (.funcdef, p)) ++
      (d.source.toList ++ d.name.toList ++ d.symbols).map fun p => .node (.string, p)
  | .fiber f =>
    .value f.lastValue :: f.arguments.map .value ++ f.frames.flatMap frameRefs ++
      f.env.toList.map (fun p => .node (.table, p)) ++
      (f.supervisorChannel.toList ++ f.evStream.toList).map (fun p => .node (.abstract, p)) ++ f.callback.map .value ++
      f.child.toList.map fun p => .node (.fiber, p)
  | .abstract marks => marks.map .value

/-- What a block refers to without keeping it alive. -/
def weakRefs : Block → List Janet
  | .array true data => data
  | .table weakKeys weakValues _ _ data _ =>
    (if weakKeys then data.map JanetKV.key else []) ++ if weakValues then data.map JanetKV.value else []
  | _ => []

/-- The fiber that an environment has to be looked for on. -/
def looksAt : Block → Option Nat
  | .funcenv env => if env.offset = 0 then none else some env.fiber
  | _ => none

end Block

/-! ## Memory -/

/-- What the collector uses of `JanetVM`. The fibers and values of the event loop are listed in the order in which they are
marked. -/
structure Memory where
  blocks : List (Nat × Block)
  weakBlocks : List (Nat × Block)
  blockCount : Nat
  roots : List Janet
  rootFiber : Option Nat
  spawn : List (Nat × Janet)
  timeouts : List (Nat × Option Nat)
  cache : List Nat
  gcSuspend : Nat
  gcInterval : Nat
  nextCollection : Nat

/-- The block at an address, if it is what it is taken for. -/
def find (blocks : List (Nat × Block)) (a : Address) : Option Block :=
  (blocks.lookup a.2).filter fun b => b.kind = a.1

namespace Memory

/-- All blocks. -/
def all (m : Memory) : List (Nat × Block) := m.blocks ++ m.weakBlocks

/-- What a pointer leads to. -/
def load (m : Memory) (a : Address) : Option Block := find m.all a

/-- `janet_ev_mark`. -/
def evRefs (m : Memory) : List Ref :=
  (m.spawn.flatMap fun task => [.value (.box .fiber task.1), .value task.2]) ++
    m.timeouts.flatMap fun timeout =>
      .value (.box .fiber timeout.1) :: timeout.2.toList.map fun fiber => .value (.box .fiber fiber)

/-- What `janet_collect` marks, in its order. -/
def rootRefs (m : Memory) : List Ref :=
  m.evRefs ++ m.rootFiber.toList.map (fun p => .node (.fiber, p)) ++ m.roots.map .value

/-- What is referred to is there. -/
def Resolves (m : Memory) (r : Ref) : Prop := ∀ a, Marking.leadsTo target r = some a → ∃ b, m.load a = some b

/-- An environment on the stack of a fiber is that of a frame. -/
def Stacked (m : Memory) (b : Block) : Prop :=
  ∀ env f, b = .funcenv env → 0 < env.offset → m.load (.fiber, env.fiber) = some (.fiber f) → f.HasFrame env

/-- **Nothing dangles.** -/
structure Sound (m : Memory) : Prop where
  nodup : (m.all.map Prod.fst).Nodup
  strong : ∀ e ∈ m.blocks, e.2.isWeak = false
  weak : ∀ e ∈ m.weakBlocks, e.2.isWeak = true
  count : m.blockCount = m.all.length
  refs : ∀ e ∈ m.all, ∀ r ∈ e.2.refs, m.Resolves r
  weakRefs : ∀ e ∈ m.all, ∀ x ∈ e.2.weakRefs, m.Resolves (.value x)
  looksAt : ∀ e ∈ m.all, ∀ p, e.2.looksAt = some p → m.Resolves (.node (.fiber, p))
  onStack : ∀ e ∈ m.all, m.Stacked e.2
  roots : ∀ r ∈ m.rootRefs, m.Resolves r
  cache : ∀ p ∈ m.cache, (p, .string true) ∈ m.all

/-! ## Environments of functions -/

/-- `janet_env_valid`, on the fiber. -/
def envValid (f : Fiber) (p : Nat) (env : FuncEnv) : FuncEnv :=
  if env.offset < 0 then
    if f.frames.any fun frame =>
        (-env.offset == frame.start) && frame.env == some p && frame.func.isSome && frame.slotcount == env.length then
      { env with offset := -env.offset }
    else { env with offset := 0, length := 0, values := [] }
  else env

/-- What `janet_env_detach` copies of a frame. To read the definition of a frame without a function, or behind its slots, is
a fault. -/
def captured (frame : StackFrame) (length : Nat) : Option (List Janet) :=
  if frame.func.isNone ∨ frame.slots.length < length then none
  else match frame.closureBitset with
    | none => some (frame.slots.take length)
    | some bitset => some ((frame.slots.take length).mapIdx fun j x =>
      if Bytecode.FuncDef.isCaptured bitset j then x else janetWrapNil)

/-- `janet_env_detach`: the slots of the frame are copied. -/
def envDetach (f : Fiber) (env : FuncEnv) : Option FuncEnv := do
  let frame ← f.frames.find? fun frame => env.offset == frame.start
  let values ← captured frame env.length
  some { env with offset := 0, values }

/-- `janet_env_maybe_detach`. -/
def envMaybeDetach (f : Fiber) (p : Nat) (env : FuncEnv) : Option FuncEnv :=
  let env := envValid f p env
  if env.offset > 0 ∧ f.status.isFinished then envDetach f env else some env

/-- The block after `janet_env_maybe_detach`, if it is an environment. A fiber that is not there is a fault. -/
def settled (m : Memory) (p : Nat) : Block → Option Block
  | .funcenv env =>
    if env.offset = 0 then some (.funcenv env)
    else match m.load (.fiber, env.fiber) with
      | some (.fiber f) => (envMaybeDetach f p env).map .funcenv
      | _ => none
  | b => some b

/-- What is followed from an address. -/
def edges (m : Memory) (a : Address) : Option (List Ref) := do
  let b ← m.load a
  let b ← m.settled a.2 b
  some b.refs

end Memory

end SwiftJanet.GC
