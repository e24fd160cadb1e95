import SwiftJanet.Value.Scalar

/-!
# Raw Janet values

`Janet` is the 64-bit word of the VM: a number, or a tag with a payload inside a NaN. Numbers are stored as their bits
are (`janetWrapNumber`), so a NaN whose spare bits are set reads as whatever those bits say (`janetType`).

- `janetType`, `janetChecktype` and the `janetUnwrap…` macros; a pointer of payload `0` is `NULL`;
- the `janetWrap…` macros, and what unwrapping them gives.
-/

namespace SwiftJanet

/-! ## Types -/

/-- `JanetType`, in the order of the enum. -/
inductive JanetType where
  | number | nil | boolean | fiber | string | symbol | keyword | array | tuple | table | struct | buffer | function
  | cfunction | abstract | pointer
deriving DecidableEq, Repr

namespace JanetType

/-- The raw value of a type. -/
def rawValue : JanetType → Nat
  | number => 0 | nil => 1 | boolean => 2 | fiber => 3 | string => 4 | symbol => 5 | keyword => 6 | array => 7
  | tuple => 8 | table => 9 | struct => 10 | buffer => 11 | function => 12 | cfunction => 13 | abstract => 14
  | pointer => 15

/-- The type of four tag bits. -/
def ofTag : Nat → JanetType
  | 0 => number | 1 => nil | 2 => boolean | 3 => fiber | 4 => string | 5 => symbol | 6 => keyword | 7 => array
  | 8 => tuple | 9 => table | 10 => struct | 11 => buffer | 12 => function | 13 => cfunction | 14 => abstract
  | _ => pointer

end JanetType

/-- `janet_type_names`. -/
def janetTypeNames : JanetType → Text
  | .number => "number".toList | .nil => "nil".toList | .boolean => "boolean".toList | .fiber => "fiber".toList
  | .string => "string".toList | .symbol => "symbol".toList | .keyword => "keyword".toList
  | .array => "array".toList | .tuple => "tuple".toList | .table => "table".toList | .struct => "struct".toList
  | .buffer => "buffer".toList | .function => "function".toList | .cfunction => "cfunction".toList
  | .abstract => "abstract".toList | .pointer => "pointer".toList

/-! ## Words -/

/-- A raw value: the bits of a number, or a tag and a payload boxed in a NaN. -/
inductive Janet where
  | number (d : Double)
  | box (type : JanetType) (payload : Nat)
deriving DecidableEq, Repr

/-- `janet_nanbox_tag`. -/
def janetNanboxTag (t : JanetType) : BitVec 64 := (BitVec.ofNat 64 t.rawValue ||| 0x1FFF0#64) <<< 47

/-- `janet_type`: a number unless it is a NaN, and then what bits 47 to 50 say. -/
def janetType : Janet → JanetType
  | .number d => if d.isNaN then .ofTag ((d.bits >>> 47) &&& 0xF#64).toNat else .number
  | .box t _ => t

/-- `janet_checktype`: every type but the number compares the whole tag. -/
def janetChecktype (x : Janet) (t : JanetType) : Bool :=
  if t = .number then janetType x == .number
  else match x with
    | .number d => (d.bits &&& 0xFFFF800000000000#64) == janetNanboxTag t
    | .box t' _ => t' == t

/-! ## Unwrapping -/

/-- A C pointer as Swift imports it: `NULL` is `nil`. -/
def pointer (p : Nat) : Option Nat := if p = 0 then none else some p

/-- `janet_nanbox_to_pointer`. -/
def janetUnwrapPointer : Janet → Option Nat
  | .number d => pointer (d.bits &&& 0x00007FFFFFFFFFFF#64).toNat
  | .box _ p => pointer p

def janetUnwrapString (x : Janet) : Option Nat := janetUnwrapPointer x
def janetUnwrapSymbol (x : Janet) : Option Nat := janetUnwrapPointer x
def janetUnwrapKeyword (x : Janet) : Option Nat := janetUnwrapPointer x
def janetUnwrapTuple (x : Janet) : Option Nat := janetUnwrapPointer x
def janetUnwrapArray (x : Janet) : Option Nat := janetUnwrapPointer x
def janetUnwrapStruct (x : Janet) : Option Nat := janetUnwrapPointer x
def janetUnwrapTable (x : Janet) : Option Nat := janetUnwrapPointer x
def janetUnwrapAbstract (x : Janet) : Option Nat := janetUnwrapPointer x

/-- `janet_unwrap_boolean`: the lowest bit. -/
def janetUnwrapBoolean : Janet → Bool
  | .number d => d.bits.getLsbD 0
  | .box _ p => p % 2 == 1

/-- `janet_unwrap_number`. -/
def janetUnwrapNumber : Janet → Double
  | .number d => d
  | .box t p => ⟨janetNanboxTag t ||| (BitVec.ofNat 64 p &&& 0x00007FFFFFFFFFFF#64)⟩

@[simp] theorem pointer_zero : pointer 0 = none := rfl

theorem pointer_pos {p : Nat} (h : 0 < p) : pointer p = some p := if_neg (by omega)

theorem pointer_eq_some {p q : Nat} : pointer p = some q ↔ p = q ∧ 0 < q := by
  unfold pointer
  split
  · simp only [reduceCtorEq, false_iff]; omega
  · simp only [Option.some.injEq]; omega

/-! ## Wrapping -/

def janetWrapNil : Janet := .box .nil 1
def janetWrapTrue : Janet := .box .boolean 1
def janetWrapFalse : Janet := .box .boolean 0
def janetWrapBoolean (b : Bool) : Janet := .box .boolean (if b then 1 else 0)

/-- `janet_wrap_number` stores the bits as they are. -/
def janetWrapNumber (d : Double) : Janet := .number d

def janetWrapString (p : Nat) : Janet := .box .string p
def janetWrapSymbol (p : Nat) : Janet := .box .symbol p
def janetWrapKeyword (p : Nat) : Janet := .box .keyword p
def janetWrapTuple (p : Nat) : Janet := .box .tuple p
def janetWrapArray (p : Nat) : Janet := .box .array p
def janetWrapStruct (p : Nat) : Janet := .box .struct p
def janetWrapTable (p : Nat) : Janet := .box .table p

@[simp] theorem janetType_box (t : JanetType) (p : Nat) : janetType (.box t p) = t := rfl

@[simp] theorem janetUnwrapPointer_box (t : JanetType) (p : Nat) : janetUnwrapPointer (.box t p) = pointer p := rfl

theorem janetType_number {d : Double} (h : d.isNaN = false) : janetType (.number d) = .number := by
  simp [janetType, h]

@[simp] theorem janetUnwrapBoolean_wrap (b : Bool) : janetUnwrapBoolean (janetWrapBoolean b) = b := by
  cases b <;> rfl

/-- Outside numbers the two type macros agree on boxed words. -/
@[simp] theorem janetChecktype_box (t t' : JanetType) (p : Nat) : janetChecktype (.box t p) t' = (t == t') := by
  unfold janetChecktype
  split
  · next h => rw [h]; rfl
  · rfl

/-- Whatever carries the tag of a type is a NaN: the tag sets the exponent and the bit below it. -/
theorem isNaN_of_tag {d : Double} {t : JanetType} (h : d.bits &&& 0xFFFF800000000000#64 = janetNanboxTag t) :
    d.isNaN = true := by
  have hexp : d.bits &&& 0x7FF0000000000000#64 = 0x7FF0000000000000#64 := by
    have : d.bits &&& 0x7FF0000000000000#64 = janetNanboxTag t &&& 0x7FF0000000000000#64 := by
      rw [← h, BitVec.and_assoc]; rfl
    rw [this]; cases t <;> rfl
  have hfrac : d.bits &&& 0x000FFFFFFFFFFFFF#64 ≠ 0#64 := by
    intro h0
    have : d.bits &&& 0x0008000000000000#64 = janetNanboxTag t &&& 0x0008000000000000#64 := by
      rw [← h, BitVec.and_assoc]; rfl
    have h0' : d.bits &&& 0x0008000000000000#64 = 0#64 := by
      rw [show (0x0008000000000000#64) = 0x000FFFFFFFFFFFFF#64 &&& 0x0008000000000000#64 from rfl,
        ← BitVec.and_assoc, h0]; rfl
    rw [h0'] at this
    cases t <;> exact absurd this (by decide)
  simp [Double.isNaN, hexp, hfrac]

/-- A number that is not a NaN passes for no other type. -/
theorem janetChecktype_number {d : Double} {t : JanetType} (h : d.isNaN = false) :
    janetChecktype (.number d) t = (t == .number) := by
  unfold janetChecktype
  split
  · next ht => subst ht; simp [janetType_number h]
  · next ht =>
    have hne : d.bits &&& 0xFFFF800000000000#64 ≠ janetNanboxTag t := fun h' => by
      rw [isNaN_of_tag h'] at h; cases h
    rw [beq_eq_false_iff_ne.mpr ht]
    exact beq_eq_false_iff_ne.mpr hne

end SwiftJanet
