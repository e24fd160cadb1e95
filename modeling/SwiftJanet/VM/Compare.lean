import SwiftJanet.Lib.Comparison
import SwiftJanet.VM.Dictionary
import SwiftJanet.VM.Equals

/-!
# Hash and order of values

`janet_hash` and `janet_compare`. Tuples and structs are immutable, so the hash that they cache is the hash of what they
hold; numbers hash by their bits, and whatever compares by its address hashes by its word.

- `Heap.Comparable n x`: `x` is a value of the heap without a NaN inside, whose tuples and structs nest at most `n` deep;
- `AbstractTypes.Lawful`: the abstract types bring an order that agrees with their equality and their hashes.
-/

namespace SwiftJanet

open Lib.Comparison

/-! ## Numbers -/

namespace Double

/-- The place of a number on the number line; both zeros are at `0`. -/
def order (d : Double) : Int :=
  let magnitude := (d.bits &&& 0x7FFFFFFFFFFFFFFF#64).toNat
  if d.bits.msb then -magnitude else magnitude

/-- IEEE `<`. -/
def less (a b : Double) : Bool := !a.isNaN && !b.isNaN && a.order < b.order

/-- `d + 0.0`: the negative zero becomes the positive one, and a signalling NaN a quiet one. -/
def plusZero (d : Double) : Double :=
  if d.isZero then ⟨0#64⟩ else if d.isNaN then ⟨d.bits ||| 0x0008000000000000#64⟩ else d

end Double

/-! ## Hashes -/

/-- `janet_hash_mix`. -/
def janetHashMix (input more : BitVec 32) : BitVec 32 :=
  let mix1 := more + 0x9e3779b9#32 + (input <<< 6) + (input >>> 2)
  input ^^^ (0x9e3779b9#32 + (mix1 <<< 6) + (mix1 >>> 2))

/-- `janet_string_calchash`. -/
def janetStringCalchash (str : List UInt8) : BitVec 32 :=
  if str.length = 0 then 5381#32
  else janetHashMix (str.foldl (fun hash byte => (hash <<< 5) + hash + BitVec.ofNat 32 byte.toNat) 5381#32)
    (BitVec.ofNat 32 str.length)

/-- `murmur64`. -/
def murmur64 (h : BitVec 64) : BitVec 64 :=
  let h := h ^^^ (h >>> 33)
  let h := h * 0xff51afd7ed558ccd#64
  let h := h ^^^ (h >>> 33)
  let h := h * 0xc4ceb9fe1a85ec53#64
  h ^^^ (h >>> 33)

/-- The upper half of a word that is mixed. -/
def murmurHigh (h : BitVec 64) : BitVec 32 := (murmur64 h >>> 32).truncate 32

/-- `janet_u64`. -/
def janetU64 : Janet → BitVec 64
  | .number d => d.bits
  | .box t p => janetNanboxTag t ||| BitVec.ofNat 64 p

/-- The loop of `janet_array_calchash`, and of `janet_kv_calchash` over keys and values in turn. -/
def calchash (hash : Janet → Option (BitVec 32)) : BitVec 32 → List Janet → Option (BitVec 32)
  | h, [] => some h
  | h, x :: xs => do calchash hash (janetHashMix h (← hash x)) xs

/-- What the types of abstract objects bring: how two different objects compare, and the hash of an object unless its type
has none. -/
structure AbstractTypes where
  compare : Nat → Nat → Int
  hash : Nat → Option (BitVec 32)

/-- `janet_compare_abstract`. -/
def janetCompareAbstract (types : AbstractTypes) (xx yy : Nat) : Int := if xx = yy then 0 else types.compare xx yy

/-! ## Order -/

/-- `memcmp` of the first `n` bytes. -/
def memcmp : List UInt8 → List UInt8 → Nat → Int
  | a :: as, b :: bs, n + 1 => if a < b then -1 else if b < a then 1 else memcmp as bs n
  | _, _, _ => 0

/-- `janet_string_compare`. -/
def janetStringCompare (lhs rhs : List UInt8) : Int :=
  let res := memcmp lhs rhs (min lhs.length rhs.length)
  if res ≠ 0 then (if res > 0 then 1 else -1)
  else if lhs.length = rhs.length then 0
  else if lhs.length < rhs.length then -1 else 1

/-- The pairs that `traversal_next` gives, up to the end of the shorter list, until two differ. -/
def compareEach (compare : Janet → Janet → Option Int) : List Janet → List Janet → Option Int
  | x :: xs, y :: ys =>
    match compare x y with
    | some 0 => compareEach compare xs ys
    | answer => answer
  | _, _ => some 0

namespace Heap

variable (types : AbstractTypes) (heap : Heap)

/-- `janet_hash`, with one unit of fuel for each nested tuple or struct. -/
def janetHash : Nat → Janet → Option (BitVec 32)
  | n, x =>
    match janetType x with
    | .nil => some 0#32
    | .boolean => some (if janetUnwrapBoolean x then 1#32 else 0#32)
    | .string | .symbol | .keyword =>
      (janetUnwrapString x).map fun p => janetStringCalchash (heap.strings.get p)
    | .tuple =>
      match janetUnwrapTuple x, n with
      | some t, n + 1 => do
        let hash ← calchash (janetHash n) 33#32 (heap.tuples.get t).data
        some (hash + if (heap.tuples.get t).bracketed then 1#32 else 0#32)
      | _, _ => none
    | .struct =>
      match janetUnwrapStruct x, n with
      | some s, n + 1 => do
        let hash ← calchash (janetHash n) 33#32 (alternate (heap.structs.get s).data)
        match (heap.structs.get s).proto with
        | none => some hash
        | some proto => some (hash + 2654435761#32 * (← janetHash n (janetWrapStruct proto)))
      | _, _ => none
    | .number => some (murmurHigh (janetUnwrapNumber x).plusZero.bits)
    | .abstract =>
      match janetUnwrapAbstract x with
      | none => none
      | some p => some ((types.hash p).getD (murmurHigh (janetU64 x)))
    | _ => some (murmurHigh (janetU64 x))

/-- `janet_compare`, with one unit of fuel for each nested tuple or struct. -/
def janetCompare : Nat → Janet → Janet → Option Int
  | n, x, y =>
    let tx := (janetType x).rawValue
    let ty := (janetType y).rawValue
    if tx ≠ ty then some (if tx < ty then -1 else 1)
    else match janetType x with
      | .nil => some 0
      | .boolean => some ((janetUnwrapBoolean x).toNat - (janetUnwrapBoolean y).toNat)
      | .number =>
        if (janetUnwrapNumber x).equal (janetUnwrapNumber y) then some 0
        else some (if (janetUnwrapNumber x).less (janetUnwrapNumber y) then -1 else 1)
      | .string | .symbol | .keyword =>
        match janetUnwrapString x, janetUnwrapString y with
        | some lhs, some rhs => some (janetStringCompare (heap.strings.get lhs) (heap.strings.get rhs))
        | _, _ => none
      | .abstract =>
        match janetUnwrapAbstract x, janetUnwrapAbstract y with
        | some xx, some yy => some (janetCompareAbstract types xx yy)
        | _, _ => none
      | .tuple =>
        match janetUnwrapTuple x, janetUnwrapTuple y with
        | some t₁, some t₂ =>
          let lhs := heap.tuples.get t₁
          let rhs := heap.tuples.get t₂
          if lhs.bracketed ≠ rhs.bracketed then some (if lhs.bracketed then 1 else -1)
          else match n with
            | 0 => none
            | n + 1 =>
              match compareEach (janetCompare n) lhs.data rhs.data with
              | some 0 =>
                if lhs.data.length ≠ rhs.data.length then
                  some (if lhs.data.length > rhs.data.length then 1 else -1)
                else some 0
              | answer => answer
        | _, _ => none
      | .struct =>
        match janetUnwrapStruct x, janetUnwrapStruct y, n with
        | some s₁, some s₂, n + 1 =>
          let lhs := heap.structs.get s₁
          let rhs := heap.structs.get s₂
          match janetHash types heap (n + 1) x, janetHash types heap (n + 1) y with
          | some lhash, some rhash =>
            if lhs.data.length < rhs.data.length then some (-1)
            else if lhs.data.length > rhs.data.length then some 1
            else if lhash.slt rhash then some (-1)
            else if rhash.slt lhash then some 1
            else match compareEach (janetCompare n) (alternate lhs.data) (alternate rhs.data) with
              | some 0 =>
                match lhs.proto, rhs.proto with
                | some sproto, some oproto => janetCompare n (janetWrapStruct sproto) (janetWrapStruct oproto)
                | some _, none => some 1
                | none, some _ => some (-1)
                | none, none => some 0
              | answer => answer
          | _, _ => none
        | _, _, _ => none
      | _ =>
        let p := (janetUnwrapPointer x).getD 0
        let q := (janetUnwrapPointer y).getD 0
        if p = q then some 0 else some (if p > q then 1 else -1)

end Heap

/-! ## Values that can be compared -/

/-- Values of the type compare by their address. -/
def JanetType.byAddress : JanetType → Bool
  | fiber | array | table | buffer | function | cfunction | pointer => true
  | _ => false

/-- A struct as `janet_struct_end` leaves it: it counts its entries, and has as many cells as a struct of that length. -/
structure JanetStruct.WellBuilt (s : JanetStruct) : Prop where
  length : s.length = (live s.data).length
  capacity : s.data.length = (janetStructBegin (BitVec.ofNat 32 s.length)).cells.length

/-- A value of the heap without a NaN inside, whose tuples and structs nest at most `n` deep. -/
inductive Heap.Comparable (heap : Heap) : Nat → Janet → Prop
  | nil {n p : Nat} : Comparable heap n (.box .nil p)
  | boolean {n p : Nat} : Comparable heap n (.box .boolean p)
  | number {n : Nat} {d : Double} (h : d.isNaN = false) : Comparable heap n (.number d)
  | string {n p : Nat} (h : 0 < p ∧ p < heap.strings.next) : Comparable heap n (.box .string p)
  | interned {n p : Nat} {t : JanetType} (ht : t = .symbol ∨ t = .keyword) (h : p ∈ heap.symcache) :
    Comparable heap n (.box t p)
  | address {n p : Nat} {t : JanetType} (ht : t.byAddress = true) : Comparable heap n (.box t p)
  | abstract {n p : Nat} (h : 0 < p) : Comparable heap n (.box .abstract p)
  | tuple {n p : Nat} (h : 0 < p ∧ p < heap.tuples.next)
    (hsub : ∀ x ∈ (heap.tuples.get p).data, Comparable heap n x) : Comparable heap (n + 1) (.box .tuple p)
  | struct {n p : Nat} (h : 0 < p ∧ p < heap.structs.next) (hbuilt : (heap.structs.get p).WellBuilt)
    (hsub : ∀ x ∈ heap.structNodes p, Comparable heap n x) : Comparable heap (n + 1) (.box .struct p)

/-- The comparison of abstract objects is an order, agrees with their equality, and equal objects have one hash. -/
structure AbstractTypes.Lawful (types : AbstractTypes) (heap : Heap) : Prop where
  sorts : Sorts (fun p q => some (janetCompareAbstract types p q)) fun _ => True
  equal : ∀ p q, (p == q || heap.equalAbstract p q) = (janetCompareAbstract types p q == 0)
  hash : ∀ p q, janetCompareAbstract types p q = 0 → p = q ∨ ∃ h, types.hash p = some h ∧ types.hash q = some h

section Comparable

variable {heap : Heap} {n m p q : Nat} {x y : Janet} {t : JanetType}

theorem rawValue_inj : ∀ {t u : JanetType}, t.rawValue = u.rawValue → t = u := by
  intro t u h
  cases t <;> cases u <;> first | rfl | cases h

theorem pos_of_interned (h : p ∈ heap.symcache) : 0 < p := (heap.interned p h).1

/-- The number of a value that is one. -/
theorem Heap.Comparable.of_number (h : heap.Comparable n x) (ht : janetType x = .number) :
    ∃ d : Double, x = .number d ∧ d.isNaN = false := by
  cases h with
  | number h => exact ⟨_, rfl, h⟩
  | interned ht' _ => rcases ht' with rfl | rfl <;> cases ht
  | address ht' =>
    rw [janetType_box] at ht
    rw [ht] at ht'
    cases ht'
  | _ => cases ht

/-- Whatever is no number is boxed. -/
theorem Heap.Comparable.of_box (h : heap.Comparable n x) (ht : janetType x ≠ .number) :
    ∃ p, x = .box (janetType x) p := by
  cases h with
  | number h => exact absurd (janetType_number h) ht
  | _ => exact ⟨_, rfl⟩

theorem Heap.Comparable.of_tuple (h : heap.Comparable n (.box .tuple p)) :
    (0 < p ∧ p < heap.tuples.next) ∧ ∃ m, n = m + 1 ∧ ∀ x ∈ (heap.tuples.get p).data, heap.Comparable m x := by
  cases h with
  | tuple h hsub => exact ⟨h, _, rfl, hsub⟩
  | interned ht _ => rcases ht with ht | ht <;> cases ht
  | address ht => cases ht

theorem Heap.Comparable.of_struct (h : heap.Comparable n (.box .struct p)) :
    (0 < p ∧ p < heap.structs.next) ∧ (heap.structs.get p).WellBuilt ∧
      ∃ m, n = m + 1 ∧ ∀ x ∈ heap.structNodes p, heap.Comparable m x := by
  cases h with
  | struct h hbuilt hsub => exact ⟨h, hbuilt, _, rfl, hsub⟩
  | interned ht _ => rcases ht with ht | ht <;> cases ht
  | address ht => cases ht

/-- Strings, symbols and keywords are objects. -/
theorem Heap.Comparable.pos (h : heap.Comparable n (.box t p))
    (ht : t = .string ∨ t = .symbol ∨ t = .keyword ∨ t = .abstract) : 0 < p := by
  cases h with
  | string h => exact h.1
  | interned _ h => exact pos_of_interned h
  | abstract h => exact h
  | address ht' => rcases ht with rfl | rfl | rfl | rfl <;> cases ht'
  | _ => rcases ht with ht | ht | ht | ht <;> cases ht

end Comparable

end SwiftJanet
