import SwiftJanet.Define.Binding

/-!
# Bytecode

A function of the VM as the compiler or the assembler makes it.

- `Opcode`, `InstructionType` and `janetInstructions`: the instructions and what their operands are;
- `slotA` … `slotE` and `signedC` … `signedE`: the fields of an instruction word;
- `FuncDef`: the fields of `JanetFuncDef` that the passes and the interpreter use.
-/

namespace SwiftJanet.Bytecode

/-! ## Words -/

/-- An instruction word: the opcode in the low byte, and the operands above it. -/
abbrev Word := BitVec 32

def slotA (w : Word) : Nat := (w >>> 8 &&& 0xFF#32).toNat
def slotB (w : Word) : Nat := (w >>> 16 &&& 0xFF#32).toNat
def slotC (w : Word) : Nat := (w >>> 24).toNat
def slotD (w : Word) : Nat := (w >>> 8).toNat
def slotE (w : Word) : Nat := (w >>> 16).toNat

def signedC (w : Word) : Int := (w.sshiftRight 24).toInt
def signedD (w : Word) : Int := (w.sshiftRight 8).toInt
def signedE (w : Word) : Int := (w.sshiftRight 16).toInt

/-! ## Opcodes -/

/-- `enum JanetOpCode`. -/
inductive Opcode where
  | noop | error | typecheck | ret | retNil | addImmediate | add | subtractImmediate | subtract | multiplyImmediate
  | multiply | divideImmediate | divide | divideFloor | modulo | remainder | band | bor | bxor | bnot | shiftLeft
  | shiftLeftImmediate | shiftRight | shiftRightImmediate | shiftRightUnsigned | shiftRightUnsignedImmediate | moveFar
  | moveNear | jump | jumpIf | jumpIfNot | jumpIfNil | jumpIfNotNil | greaterThan | greaterThanImmediate | lessThan
  | lessThanImmediate | equals | equalsImmediate | compare | loadNil | loadTrue | loadFalse | loadInteger
  | loadConstant | loadUpvalue | loadSelf | setUpvalue | closure | push | push2 | push3 | pushArray | call | tailcall
  | resume | signal | propagate | inKey | get | put | getIndex | putIndex | length | makeArray | makeBuffer
  | makeString | makeStruct | makeTable | makeTuple | makeBracketTuple | greaterThanEqual | lessThanEqual | next
  | notEquals | notEqualsImmediate | cancel
deriving DecidableEq, Repr

namespace Opcode

/-- The opcodes in the order of the enum. -/
def all : List Opcode :=
  [.noop, .error, .typecheck, .ret, .retNil, .addImmediate, .add, .subtractImmediate, .subtract, .multiplyImmediate,
    .multiply, .divideImmediate, .divide, .divideFloor, .modulo, .remainder, .band, .bor, .bxor, .bnot, .shiftLeft,
    .shiftLeftImmediate, .shiftRight, .shiftRightImmediate, .shiftRightUnsigned, .shiftRightUnsignedImmediate,
    .moveFar, .moveNear, .jump, .jumpIf, .jumpIfNot, .jumpIfNil, .jumpIfNotNil, .greaterThan, .greaterThanImmediate,
    .lessThan, .lessThanImmediate, .equals, .equalsImmediate, .compare, .loadNil, .loadTrue, .loadFalse,
    .loadInteger, .loadConstant, .loadUpvalue, .loadSelf, .setUpvalue, .closure, .push, .push2, .push3, .pushArray,
    .call, .tailcall, .resume, .signal, .propagate, .inKey, .get, .put, .getIndex, .putIndex, .length, .makeArray,
    .makeBuffer, .makeString, .makeStruct, .makeTable, .makeTuple, .makeBracketTuple, .greaterThanEqual,
    .lessThanEqual, .next, .notEquals, .notEqualsImmediate, .cancel]

/-- The opcode of a number, below `JOP_INSTRUCTION_COUNT`. -/
def ofByte (n : Nat) : Option Opcode := all[n]?

end Opcode

/-- The opcode without the bit of a breakpoint. -/
def opcode (w : Word) : Option Opcode := Opcode.ofByte (w &&& 0x7F#32).toNat

/-- The opcode that the interpreter goes to. -/
def dispatched (w : Word) : Option Opcode := Opcode.ofByte (w &&& 0xFF#32).toNat

/-- `enum JanetInstructionType`. -/
inductive InstructionType where
  | zero | s | l | ss | sl | st | si | sd | su | sss | ssi | ssu | ses | sc
deriving DecidableEq, Repr

/-- `janet_instructions`. -/
def janetInstructions : Opcode → InstructionType
  | .noop => .zero
  | .error => .s
  | .typecheck => .st
  | .ret => .s
  | .retNil => .zero
  | .addImmediate => .ssi
  | .add => .sss
  | .subtractImmediate => .ssi
  | .subtract => .sss
  | .multiplyImmediate => .ssi
  | .multiply => .sss
  | .divideImmediate => .ssi
  | .divide | .divideFloor | .modulo | .remainder | .band | .bor | .bxor => .sss
  | .bnot => .ss
  | .shiftLeft => .sss
  | .shiftLeftImmediate => .ssi
  | .shiftRight => .sss
  | .shiftRightImmediate => .ssi
  | .shiftRightUnsigned => .sss
  | .shiftRightUnsignedImmediate => .ssu
  | .moveFar | .moveNear => .ss
  | .jump => .l
  | .jumpIf | .jumpIfNot | .jumpIfNil | .jumpIfNotNil => .sl
  | .greaterThan => .sss
  | .greaterThanImmediate => .ssi
  | .lessThan => .sss
  | .lessThanImmediate => .ssi
  | .equals => .sss
  | .equalsImmediate => .ssi
  | .compare => .sss
  | .loadNil | .loadTrue | .loadFalse => .s
  | .loadInteger => .si
  | .loadConstant => .sc
  | .loadUpvalue => .ses
  | .loadSelf => .s
  | .setUpvalue => .ses
  | .closure => .sd
  | .push => .s
  | .push2 => .ss
  | .push3 => .sss
  | .pushArray => .s
  | .call => .ss
  | .tailcall => .s
  | .resume => .sss
  | .signal => .ssu
  | .propagate | .inKey | .get | .put => .sss
  | .getIndex | .putIndex => .ssu
  | .length => .ss
  | .makeArray | .makeBuffer | .makeString | .makeStruct | .makeTable | .makeTuple | .makeBracketTuple => .s
  | .greaterThanEqual | .lessThanEqual | .next | .notEquals => .sss
  | .notEqualsImmediate => .ssi
  | .cancel => .sss

/-! ## Functions -/

/-- `JanetSourceMapping`. -/
structure SourceMapping where
  line : Int
  column : Int
deriving DecidableEq, Repr

/-- `JanetSymbolMap`; `named` says whether the symbol is there. -/
structure SymbolMap where
  birthPc : BitVec 32
  deathPc : BitVec 32
  slotIndex : BitVec 32
  named : Bool
deriving DecidableEq, Repr

/-- `JanetFuncDef`. A source map has an entry for each instruction. -/
structure FuncDef where
  bytecode : List Word
  sourcemap : Option (List SourceMapping)
  symbolmap : List SymbolMap
  closureBitset : Option (List (BitVec 32))
  constants : List Janet
  slotcount : Nat
  arity : Nat
  vararg : Bool
  environmentsLength : Nat
  defsLength : Nat
deriving DecidableEq, Repr

namespace FuncDef

/-- The bit of a slot in the closure bitset. -/
def isCaptured (bitset : List (BitVec 32)) (slot : Nat) : Bool := ((bitset.getD (slot >>> 5) 0#32) >>> (slot % 32)).getLsbD 0

/-- The slots that closures can reach. -/
def captured (d : FuncDef) : List Nat :=
  match d.closureBitset with
  | none => []
  | some bitset => (List.range d.slotcount).filter (isCaptured bitset)

/-- Where the instruction stands in the source. -/
def place (d : FuncDef) (pc : Nat) : Option SourceMapping := d.sourcemap.bind fun map => map[pc]?

/-- No breakpoint is set. -/
def Unbroken (d : FuncDef) : Prop := ∀ w ∈ d.bytecode, dispatched w = opcode w

end FuncDef

end SwiftJanet.Bytecode
