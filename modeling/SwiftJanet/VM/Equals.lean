import Mathlib.Data.List.Forall2
import SwiftJanet.VM.Heap

/-!
# `janet_equals`

Numbers, strings, tuples and structs compare by content, abstract objects as their type says, and everything else by
its address. Structs compare cell by cell, empty cells included. The hashes that strings, tuples and structs cache
only answer earlier what the contents answer as well, and are left out.

- `janetEquals` takes one unit of fuel for each nested tuple or struct; it has no answer without fuel, at `NULL` and
  past the end of a block;
- `Heap.ToldApart`: both ways round, `janet_equals` answers that the values differ.
-/

namespace SwiftJanet

/-- The pairs that `traversal_next` gives, as long as they are equal. -/
def equalsEach (equals : Janet → Janet → Option Bool) : List Janet → List Janet → Option Bool
  | [], _ => some true
  | _ :: _, [] => none
  | x :: xs, y :: ys =>
    match equals x y with
    | some true => equalsEach equals xs ys
    | answer => answer

/-- Keys and values in turn. -/
def alternate (kvs : List JanetKV) : List Janet := kvs.flatMap fun kv => [kv.key, kv.value]

namespace Heap

/-- `janet_string_equal`. -/
def janetStringEqual (heap : Heap) (lhs rhs : Nat) : Bool :=
  lhs == rhs || heap.strings.get lhs == heap.strings.get rhs

/-- What the walk over a struct meets: its cells, and the prototype. -/
def structNodes (heap : Heap) (p : Nat) : List Janet :=
  alternate (heap.structs.get p).data ++ ((heap.structs.get p).proto.map janetWrapStruct).toList

/-- The tests on two tuples before their elements. -/
def tupleHeadsEqual (heap : Heap) (t₁ t₂ : Nat) : Bool :=
  (heap.tuples.get t₁).bracketed == (heap.tuples.get t₂).bracketed &&
    (heap.tuples.get t₁).data.length == (heap.tuples.get t₂).data.length

/-- The tests on two structs before their cells. -/
def structHeadsEqual (heap : Heap) (s₁ s₂ : Nat) : Bool :=
  (heap.structs.get s₁).length == (heap.structs.get s₂).length &&
    (heap.structs.get s₁).proto.isSome == (heap.structs.get s₂).proto.isSome

/-- `janet_equals`. -/
def janetEquals (heap : Heap) : Nat → Janet → Janet → Option Bool
  | n, x, y =>
    if janetType x ≠ janetType y then some false
    else match janetType x with
      | .nil => some true
      | .boolean => some (janetUnwrapBoolean x == janetUnwrapBoolean y)
      | .number => some ((janetUnwrapNumber x).equal (janetUnwrapNumber y))
      | .string =>
        match janetUnwrapString x, janetUnwrapString y with
        | some lhs, some rhs => some (heap.janetStringEqual lhs rhs)
        | _, _ => none
      | .abstract =>
        match janetUnwrapAbstract x, janetUnwrapAbstract y with
        | some xx, some yy => some (xx == yy || heap.equalAbstract xx yy)
        | xx, yy => if xx = yy then some true else none
      | .tuple =>
        if janetUnwrapTuple x = janetUnwrapTuple y then some true
        else match janetUnwrapTuple x, janetUnwrapTuple y with
          | some t₁, some t₂ =>
            if !heap.tupleHeadsEqual t₁ t₂ then some false
            else match n with
              | 0 => none
              | n + 1 => equalsEach (janetEquals heap n) (heap.tuples.get t₁).data (heap.tuples.get t₂).data
          | _, _ => none
      | .struct =>
        if janetUnwrapStruct x = janetUnwrapStruct y then some true
        else match janetUnwrapStruct x, janetUnwrapStruct y with
          | some s₁, some s₂ =>
            if !heap.structHeadsEqual s₁ s₂ then some false
            else match n with
              | 0 => none
              | n + 1 => equalsEach (janetEquals heap n) (heap.structNodes s₁) (heap.structNodes s₂)
          | _, _ => none
      | _ => some (janetUnwrapPointer x == janetUnwrapPointer y)

/-- `janet_equals` answers that the two values differ. -/
def ToldApart (heap : Heap) (x y : Janet) : Prop :=
  ∃ n, heap.janetEquals n x y = some false ∧ heap.janetEquals n y x = some false

theorem ToldApart.symm {heap : Heap} {x y : Janet} (h : heap.ToldApart x y) : heap.ToldApart y x := by
  obtain ⟨n, h, h'⟩ := h
  exact ⟨n, h', h⟩

end Heap

/-! ## Elements in turn -/

section Each

variable {equals : Janet → Janet → Option Bool}

/-- Equal lists are equal element by element. -/
theorem equalsEach_true : ∀ {xs ys : List Janet}, equalsEach equals xs ys = some true → xs.length = ys.length →
    List.Forall₂ (fun x y => equals x y = some true) xs ys
  | [], [], _, _ => .nil
  | [], _ :: _, _, h => by cases h
  | _ :: _, [], h, _ => by cases h
  | x :: xs, y :: ys, h, hlen => by
    rw [equalsEach] at h
    split at h
    · next hxy => exact .cons hxy (equalsEach_true h (by simpa using hlen))
    · next hne => exact absurd h hne

/-- With an answer for every pair there is an answer for the lists. -/
theorem equalsEach_isSome : ∀ {xs ys : List Janet}, xs.length = ys.length →
    (∀ p ∈ xs.zip ys, (equals p.1 p.2).isSome) → (equalsEach equals xs ys).isSome
  | [], _, _, _ => rfl
  | _ :: _, [], h, _ => by cases h
  | x :: xs, y :: ys, hlen, h => by
    rw [equalsEach]
    split
    · exact equalsEach_isSome (by simpa using hlen) fun p hp => h p (List.mem_cons_of_mem _ hp)
    · exact h (x, y) (by simp)

end Each

/-! ## Equations -/

section Equations

variable {heap : Heap} {n p q : Nat} {x y : Janet}

theorem janetEquals_of_type_ne (h : janetType x ≠ janetType y) : heap.janetEquals n x y = some false := by
  rw [Heap.janetEquals.eq_def]; simp only [h, ne_eq, not_false_eq_true, if_true]

theorem janetEquals_nil : heap.janetEquals n janetWrapNil janetWrapNil = some true := by
  rw [Heap.janetEquals.eq_def]; rfl

/-- Nil equals nil only. -/
theorem janetEquals_nil_right : heap.janetEquals n x janetWrapNil = some (janetType x == .nil) := by
  by_cases h : janetType x = .nil
  · rw [Heap.janetEquals.eq_def]; simp [h, janetWrapNil]
  · rw [janetEquals_of_type_ne (by rw [janetWrapNil, janetType_box]; exact h), beq_eq_false_iff_ne.mpr h]

theorem janetEquals_nil_left : heap.janetEquals n janetWrapNil y = some (janetType y == .nil) := by
  by_cases h : janetType y = .nil
  · rw [Heap.janetEquals.eq_def]; simp [h, janetWrapNil]
  · rw [janetEquals_of_type_ne (by rw [janetWrapNil, janetType_box]; exact fun h' => h h'.symm),
      beq_eq_false_iff_ne.mpr h]

theorem janetEquals_boolean {c d : Bool} : heap.janetEquals n (janetWrapBoolean c) (janetWrapBoolean d) = some (c == d) := by
  rw [Heap.janetEquals.eq_def]; cases c <;> cases d <;> rfl

theorem janetEquals_number {c d : Double} (hc : c.isNaN = false) (hd : d.isNaN = false) :
    heap.janetEquals n (janetWrapNumber c) (janetWrapNumber d) = some (c.equal d) := by
  rw [Heap.janetEquals.eq_def]
  simp only [janetWrapNumber, janetType_number hc, janetType_number hd, janetUnwrapNumber, ne_eq, not_true_eq_false,
    if_false]

theorem janetEquals_string (hp : 0 < p) (hq : 0 < q) :
    heap.janetEquals n (janetWrapString p) (janetWrapString q) = some (heap.janetStringEqual p q) := by
  rw [Heap.janetEquals.eq_def]
  simp only [janetWrapString, janetType_box, janetUnwrapString, janetUnwrapPointer_box, pointer_pos hp, pointer_pos hq,
    ne_eq, not_true_eq_false, if_false]

/-- Everything but scalars, strings, abstract objects, tuples and structs compares by its address. -/
theorem janetEquals_address {t : JanetType} (ht : t = .keyword ∨ t = .symbol ∨ t = .array ∨ t = .table) (hp : 0 < p)
    (hq : 0 < q) : heap.janetEquals n (.box t p) (.box t q) = some (p == q) := by
  rw [Heap.janetEquals.eq_def]
  rcases ht with rfl | rfl | rfl | rfl <;> simp [pointer_pos hp, pointer_pos hq, janetType_box]

theorem janetEquals_tuple (hp : 0 < p) (hq : 0 < q) :
    heap.janetEquals (n + 1) (janetWrapTuple p) (janetWrapTuple q) =
      if p = q then some true
      else if heap.tupleHeadsEqual p q then
        equalsEach (heap.janetEquals n) (heap.tuples.get p).data (heap.tuples.get q).data
      else some false := by
  rw [Heap.janetEquals]
  simp only [janetWrapTuple, janetType_box, janetUnwrapTuple, janetUnwrapPointer_box, pointer_pos hp, pointer_pos hq,
    ne_eq, not_true_eq_false, if_false, Option.some.injEq]
  by_cases h : heap.tupleHeadsEqual p q <;> simp [h]

theorem janetEquals_struct (hp : 0 < p) (hq : 0 < q) :
    heap.janetEquals (n + 1) (janetWrapStruct p) (janetWrapStruct q) =
      if p = q then some true
      else if heap.structHeadsEqual p q then
        equalsEach (heap.janetEquals n) (heap.structNodes p) (heap.structNodes q)
      else some false := by
  rw [Heap.janetEquals]
  simp only [janetWrapStruct, janetType_box, janetUnwrapStruct, janetUnwrapPointer_box, pointer_pos hp, pointer_pos hq,
    ne_eq, not_true_eq_false, if_false, Option.some.injEq]
  by_cases h : heap.structHeadsEqual p q <;> simp [h]

end Equations

end SwiftJanet
