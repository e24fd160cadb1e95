import SwiftJanet.Lib.Simulation
import SwiftJanet.Bytecode.Instruction

/-!
# The interpreter

How `run_vm` carries out a function in its frame.

- `Action`: what an instruction does to the frame. `decode` says for each instruction which slots it reads, which slot it
  writes, and where it jumps;
- `Rest`: the rest of the VM, as the frame sees it. It carries out the operations on values, calls and resumes, and sees
  the slots that closures can reach. A suspended frame goes on with the value that the fiber is resumed with;
- `step`: one turn of the loop. To leave the slots or the bytecode is a fault.
-/

namespace SwiftJanet.Bytecode

open Lib

/-! ## Actions -/

/-- What a conditional jump asks of a slot. -/
inductive Test where
  | truthy | falsy | nil | notNil
deriving DecidableEq, Repr

/-- What an instruction does. -/
inductive Action where
  | skip
  | raise (slot : Nat)
  | giveBack (slot : Option Nat)
  | load (target : Nat) (x : Janet)
  | loadConstant (target index : Nat)
  | loadSelf (target : Nat)
  | move (target source : Nat)
  | jump (test : Option (Test × Nat)) (offset : Int)
  | tailcall (callee : Nat)
  | operate (immediates : List Int) (reads : List Nat) (target : Option Nat)
deriving DecidableEq, Repr

/-- The bits of a whole number below 2^53. -/
def bitsOfNat (n : Nat) : BitVec 64 :=
  if n = 0 then 0#64
  else BitVec.ofNat 64 ((1023 + n.log2) * 2 ^ 52 + (n - 2 ^ n.log2) * 2 ^ (52 - n.log2))

/-- `janet_wrap_integer`. -/
def janetWrapInteger (i : Int) : Janet :=
  janetWrapNumber ⟨if i < 0 then bitsOfNat i.natAbs ||| 0x8000000000000000#64 else bitsOfNat i.natAbs⟩

/-- What `run_vm` does with the operands of an instruction. -/
def decode (w : Word) : Opcode → Action
  | .noop => .skip
  | .error => .raise (slotA w)
  | .typecheck => .operate [slotE w] [slotA w] none
  | .ret => .giveBack (some (slotD w))
  | .retNil => .giveBack none
  | .addImmediate | .subtractImmediate | .multiplyImmediate | .divideImmediate | .shiftLeftImmediate
  | .shiftRightImmediate | .shiftRightUnsignedImmediate | .greaterThanImmediate | .lessThanImmediate
  | .equalsImmediate | .notEqualsImmediate => .operate [signedC w] [slotB w] (some (slotA w))
  | .add | .subtract | .multiply | .divide | .divideFloor | .modulo | .remainder | .band | .bor | .bxor | .shiftLeft
  | .shiftRight | .shiftRightUnsigned | .greaterThan | .lessThan | .equals | .compare | .greaterThanEqual
  | .lessThanEqual | .notEquals | .next | .inKey | .get | .resume | .propagate | .cancel =>
    .operate [] [slotB w, slotC w] (some (slotA w))
  | .bnot | .length | .call => .operate [] [slotE w] (some (slotA w))
  | .moveFar => .move (slotE w) (slotA w)
  | .moveNear => .move (slotA w) (slotE w)
  | .jump => .jump none (signedD w)
  | .jumpIf => .jump (some (.truthy, slotA w)) (signedE w)
  | .jumpIfNot => .jump (some (.falsy, slotA w)) (signedE w)
  | .jumpIfNil => .jump (some (.nil, slotA w)) (signedE w)
  | .jumpIfNotNil => .jump (some (.notNil, slotA w)) (signedE w)
  | .loadNil => .load (slotD w) janetWrapNil
  | .loadTrue => .load (slotD w) janetWrapTrue
  | .loadFalse => .load (slotD w) janetWrapFalse
  | .loadInteger => .load (slotA w) (janetWrapInteger (signedE w))
  | .loadConstant => .loadConstant (slotA w) (slotE w)
  | .loadUpvalue => .operate [slotB w, slotC w] [] (some (slotA w))
  | .loadSelf => .loadSelf (slotD w)
  | .setUpvalue => .operate [slotB w, slotC w] [slotA w] none
  | .closure => .operate [slotE w] [] (some (slotA w))
  | .push | .pushArray => .operate [] [slotD w] none
  | .push2 => .operate [] [slotA w, slotE w] none
  | .push3 | .put => .operate [] [slotA w, slotB w, slotC w] none
  | .tailcall => .tailcall (slotD w)
  | .signal => .operate [slotC w] [slotB w] (some (slotA w))
  | .getIndex => .operate [slotC w] [slotB w] (some (slotA w))
  | .putIndex => .operate [slotC w] [slotA w, slotB w] none
  | .makeArray | .makeBuffer | .makeString | .makeStruct | .makeTable | .makeTuple | .makeBracketTuple =>
    .operate [] [] (some (slotD w))

/-- The instruction lets the fiber be suspended before it begins. A jump does if it goes no further. -/
def Opcode.suspends : Opcode → Bool
  | .call | .resume => true
  | _ => false

/-- The message of the `vm_assert` that fails on an index into what the function has. The two `vm_assert`s that
`JOP_LOAD_UPVALUE` and `JOP_SET_UPVALUE` make of the environment itself are in the rest of the VM. -/
def failedAssert (d : FuncDef) (w : Word) : Opcode → Option String
  | .loadConstant => if slotE w < d.constants.length then none else some "invalid constant"
  | .loadUpvalue | .setUpvalue => if slotB w < d.environmentsLength then none else some "invalid upvalue environment"
  | .closure => if slotE w < d.defsLength then none else some "invalid funcdef"
  | _ => none

/-! ## The rest of the VM -/

/-- How an operation ends, with what is left of the slots that closures reach: with a value, or the frame is left. -/
inductive Answer (W : Type) where
  | value (x : Janet) (seen : List Janet) (w : W)
  | leaves (signal : Nat) (x : Janet) (seen : List Janet) (w : W)

/-- Whether the fiber is suspended, and what becomes of it. -/
inductive Pause (W : Type) where
  | none
  | resumed (seen : List Janet) (w : W)
  | leaves (signal : Nat) (x : Janet) (seen : List Janet) (w : W)

/-- The rest of the VM. -/
structure Rest (W : Type) where
  perform : Opcode → List Int → List Janet → List Janet → W → Answer W
  pause : List Janet → W → Pause W
  panic : String → W → Janet × W

/-! ## Steps -/

/-- A frame: the instruction, the slots and the rest of the VM. -/
structure Frame (W : Type) where
  pc : Nat
  slots : List Janet
  world : W

/-- How a frame ends: it returns, a signal leaves it where it stands in the source, or it leaves its memory. -/
inductive Exit (W : Type) where
  | returned (x : Janet) (seen : List Janet) (w : W)
  | left (signal : Nat) (x : Janet) (place : Option SourceMapping) (seen : List Janet) (w : W)
  | fault

/-- The values of the slots that closures can reach. -/
def seen (d : FuncDef) (slots : List Janet) : List Janet := d.captured.map fun i => slots.getD i janetWrapNil

/-- What closures leave in the slots that they reach. -/
def writeBack (slots : List Janet) : List Nat → List Janet → List Janet
  | i :: is, x :: xs => writeBack (slots.set i x) is xs
  | _, _ => slots

/-- The values of some slots. -/
def readAll (slots : List Janet) : List Nat → Option (List Janet)
  | [] => some []
  | i :: is => do .some ((← slots[i]?) :: (← readAll slots is))

/-- Whether a jump is taken. -/
def Test.holds (x : Janet) : Test → Bool
  | .truthy => janetTruthy x
  | .falsy => !janetTruthy x
  | .nil => janetChecktype x .nil
  | .notNil => !janetChecktype x .nil

namespace Frame

variable {W : Type}

/-- Go to an instruction further on or back. -/
def jump (f : Frame W) (offset : Int) : Turn (Frame W) (Exit W) :=
  if 0 ≤ f.pc + offset then .goes { f with pc := (f.pc + offset).toNat } else .ends .fault

/-- Write a slot, and go on. -/
def write (f : Frame W) (target : Nat) (x : Janet) : Turn (Frame W) (Exit W) :=
  if target < f.slots.length then .goes { f with pc := f.pc + 1, slots := f.slots.set target x } else .ends .fault

/-- Go on with the value of a slot. -/
def reading (f : Frame W) (slot : Nat) (go : Janet → Turn (Frame W) (Exit W)) : Turn (Frame W) (Exit W) :=
  match f.slots[slot]? with
  | none => .ends .fault
  | some x => go x

/-- Go on with the values of some slots. -/
def readingAll (f : Frame W) (slots : List Nat) (go : List Janet → Turn (Frame W) (Exit W)) : Turn (Frame W) (Exit W) :=
  match readAll f.slots slots with
  | none => .ends .fault
  | some xs => go xs

/-- Do what the frame was going to, if the fiber is not suspended. -/
def pausing (d : FuncDef) (rest : Rest W) (f : Frame W) (go : Turn (Frame W) (Exit W)) : Turn (Frame W) (Exit W) :=
  match rest.pause (seen d f.slots) f.world with
  | .none => go
  | .resumed xs w => .goes { f with slots := writeBack f.slots d.captured xs, world := w }
  | .leaves signal x xs w => .ends (.left signal x (d.place f.pc) xs w)

/-- Go on with what the rest of the VM answers. -/
def asking (d : FuncDef) (rest : Rest W) (f : Frame W) (op : Opcode) (immediates : List Int) (args : List Janet)
    (go : Janet → List Janet → W → Turn (Frame W) (Exit W)) : Turn (Frame W) (Exit W) :=
  match rest.perform op immediates args (seen d f.slots) f.world with
  | .leaves signal x xs w => .ends (.left signal x (d.place f.pc) xs w)
  | .value x xs w => go x xs w

/-- Go on behind an operation. -/
def settle (d : FuncDef) (f : Frame W) (target : Option Nat) (x : Janet) (xs : List Janet) (w : W) :
    Turn (Frame W) (Exit W) :=
  let f := { f with slots := writeBack f.slots d.captured xs, world := w }
  match target with
  | none => .goes { f with pc := f.pc + 1 }
  | some target => f.write target x

/-- An operation on slots. -/
def operate (d : FuncDef) (rest : Rest W) (f : Frame W) (op : Opcode) (immediates : List Int) (reads : List Nat)
    (target : Option Nat) : Turn (Frame W) (Exit W) :=
  f.readingAll reads fun args => f.asking d rest op immediates args (f.settle d target)

/-- A jump that is taken lets the fiber be suspended if it goes no further. -/
def take (d : FuncDef) (rest : Rest W) (f : Frame W) (offset : Int) : Turn (Frame W) (Exit W) :=
  if offset ≤ 0 then f.pausing d rest (f.jump offset) else f.jump offset

/-- Carry out an action. -/
def perform (d : FuncDef) (rest : Rest W) (self : Janet) (f : Frame W) (op : Opcode) :
    Action → Turn (Frame W) (Exit W)
  | .skip => .goes { f with pc := f.pc + 1 }
  | .raise slot => f.reading slot fun x => .ends (.left 1 x (d.place f.pc) (seen d f.slots) f.world)
  | .giveBack none => .ends (.returned janetWrapNil (seen d f.slots) f.world)
  | .giveBack (some slot) => f.reading slot fun x => .ends (.returned x (seen d f.slots) f.world)
  | .load target x => f.write target x
  | .loadConstant target index =>
    match d.constants[index]? with
    | none => .ends .fault
    | some x => f.write target x
  | .loadSelf target => f.write target self
  | .move target source => f.reading source (f.write target)
  | .jump none offset => f.take d rest offset
  | .jump (some (test, slot)) offset =>
    f.reading slot fun x => if test.holds x then f.take d rest offset else .goes { f with pc := f.pc + 1 }
  | .tailcall callee =>
    f.pausing d rest (f.reading callee fun x => f.asking d rest op [] [x] fun x xs w => .ends (.returned x xs w))
  | .operate immediates reads target =>
    if op.suspends then f.pausing d rest (f.operate d rest op immediates reads target)
    else f.operate d rest op immediates reads target

/-- A turn of the loop in `run_vm`. A breakpoint gives the signal `JANET_SIGNAL_DEBUG`. -/
def step (d : FuncDef) (rest : Rest W) (self : Janet) (f : Frame W) : Turn (Frame W) (Exit W) :=
  match d.bytecode[f.pc]? with
  | none => .ends .fault
  | some word =>
    match dispatched word with
    | none => .ends (.left 2 janetWrapNil (d.place f.pc) (seen d f.slots) f.world)
    | some op =>
      match failedAssert d word op with
      | some message =>
        let (x, w) := rest.panic message f.world
        .ends (.left 1 x (d.place f.pc) (seen d f.slots) w)
      | none => f.perform d rest self op (decode word op)

/-- The turn at an instruction whose operands are there. -/
theorem step_eq {d : FuncDef} {rest : Rest W} {self : Janet} {f : Frame W} {word : Word} {op : Opcode}
    (hw : d.bytecode[f.pc]? = some word) (hop : dispatched word = some op) (hassert : failedAssert d word op = none) :
    f.step d rest self = f.perform d rest self op (decode word op) := by
  rw [step, hw]
  simp only [hop, hassert]

end Frame

end SwiftJanet.Bytecode
