import Mathlib.Data.List.Basic
import SwiftJanet.VM.Heap

/-!
# Arrays

The operations of the VM on one array. An operation that panics, runs out of memory or writes through `NULL` gives
`none`. A block comes from `janetArrayImpl` with a positive capacity, from `janetArrayN`, or from `janetArrayEnsure`;
`cfunArrayTrim` frees the block of an empty array.

`JanetArray.All p a`: every element has the property `p`, which the operations keep (`all_ensure`, …).
-/

namespace SwiftJanet

def int32Max : Int := 2147483647

/-! ## Creation -/

/-- `janet_array_impl`: no block for a capacity that is not positive. -/
def janetArrayImpl (capacity : Int) : JanetArray where
  count := 0
  capacity := capacity
  data := if capacity > 0 then some [] else none
  count_eq := by split <;> rfl
  capacity_of_null h := by
    by_contra hc
    rw [if_pos (by omega)] at h
    cases h

/-- `janet_array`, behind `array/new` and `array/weak`. -/
def janetArray (capacity : Int) : JanetArray := janetArrayImpl capacity

/-- `janet_array_n`: `malloc` gives a block even for no elements, or the process ends. -/
def janetArrayN (elements : List Janet) : JanetArray where
  count := elements.length
  capacity := elements.length
  data := some elements
  count_eq := rfl
  capacity_of_null h := by cases h

/-! ## In place -/

/-- Overwrite the elements in the block there is; without one there is nothing to write. -/
def JanetArray.write (a : JanetArray) (elements : List Janet) : Option JanetArray :=
  match a.data with
  | some _ => some ⟨elements.length, a.capacity, some elements, rfl, fun h => by cases h⟩
  | none => if elements.isEmpty then some a else none

/-- `janet_array_ensure`. A new capacity below the count comes from a growth that is not positive: `realloc` fails for
a negative size and gives the elements up for zero. -/
def janetArrayEnsure (a : JanetArray) (capacity growth : Int) : Option JanetArray :=
  if capacity ≤ a.capacity then some a
  else
    let newCapacity := min (capacity * growth) int32Max
    if newCapacity < a.count then none
    else some ⟨a.count, newCapacity, some a.elements, a.count_eq, fun h => by cases h⟩

/-- `janet_array_setcount`. -/
def janetArraySetcount (a : JanetArray) (count : Int) : Option JanetArray :=
  if count < 0 then some a
  else if count > a.count then do
    let a ← janetArrayEnsure a count 1
    a.write (a.elements ++ List.replicate (count.toNat - a.count) janetWrapNil)
  else a.write (a.elements.take count.toNat)

/-- `janet_array_push`. -/
def janetArrayPush (a : JanetArray) (x : Janet) : Option JanetArray :=
  if a.count = int32Max then none
  else do
    let a ← janetArrayEnsure a (a.count + 1) 2
    a.write (a.elements ++ [x])

/-- `array/push`. -/
def cfunArrayPush (a : JanetArray) (xs : List Janet) : Option JanetArray :=
  if int32Max - xs.length ≤ a.count then none
  else do
    let a ← janetArrayEnsure a (a.count + xs.length) 2
    a.write (a.elements ++ xs)

/-- `janet_array_pop`. -/
def janetArrayPop (a : JanetArray) : Option JanetArray := a.write a.elements.dropLast

/-- `array/new-filled`. -/
def cfunArrayNewFilled (count : Nat) (x : Janet) : Option JanetArray :=
  (janetArray count).write (List.replicate count x)

/-- `array/fill`. -/
def cfunArrayFill (a : JanetArray) (x : Janet) : Option JanetArray := a.write (List.replicate a.count x)

/-- `array/slice`, of the elements of an array or a tuple. -/
def cfunArraySlice (items : List Janet) (start stop : Nat) : Option JanetArray :=
  (janetArray ((stop - start : Nat) : Int)).write ((items.drop start).take (stop - start))

/-- `array/insert`, at an index that is not negative. -/
def cfunArrayInsert (a : JanetArray) (at' : Nat) (xs : List Janet) : Option JanetArray :=
  if at' > a.count then none
  else if int32Max - xs.length < a.count then none
  else do
    let a ← janetArrayEnsure a (a.count + xs.length) 2
    a.write (a.elements.take at' ++ xs ++ a.elements.drop at')

/-- `array/remove`, at an index that is not negative. -/
def cfunArrayRemove (a : JanetArray) (at' n : Nat) : Option JanetArray :=
  if at' > a.count then none
  else a.write (a.elements.take at' ++ a.elements.drop (at' + n))

/-- `array/trim`: an empty array loses its block. -/
def cfunArrayTrim (a : JanetArray) : JanetArray :=
  if a.count ≠ 0 then
    if a.count < a.capacity then ⟨a.count, a.count, a.data, a.count_eq, fun h => by
      have := a.count_eq; have := a.capacity_of_null h; simp [h] at *; omega⟩
    else a
  else ⟨0, 0, none, rfl, fun _ => Int.le_refl 0⟩

/-- `array/clear`. -/
def cfunArrayClear (a : JanetArray) : Option JanetArray := a.write []

/-- `janet_put` on an array. -/
def janetPutArray (a : JanetArray) (index : Nat) (value : Janet) : Option JanetArray :=
  if index ≥ a.count then do
    let a ← janetArrayEnsure a (index + 1) 2
    a.write (a.elements ++ List.replicate (index - a.count) janetWrapNil ++ [value])
  else a.write (a.elements.set index value)

/-! ## What the operations keep -/

section All

variable {p : Janet → Prop} {a b : JanetArray} {xs : List Janet} {x : Janet}

/-- Every element has the property `p`. -/
def JanetArray.All (p : Janet → Prop) (a : JanetArray) : Prop := ∀ x ∈ a.elements, p x

theorem all_write (h : a.write xs = some b) (hxs : ∀ x ∈ xs, p x) : b.All p := by
  unfold JanetArray.write at h
  split at h
  · obtain rfl := Option.some.inj h
    exact hxs
  · next hnull =>
    split at h
    · obtain rfl := Option.some.inj h
      simp [JanetArray.All, JanetArray.elements, hnull]
    · cases h

theorem elements_ensure {capacity growth : Int} (h : janetArrayEnsure a capacity growth = some b) :
    b.elements = a.elements := by
  unfold janetArrayEnsure at h
  split at h
  · rw [Option.some.inj h]
  · simp only at h
    split at h
    · cases h
    · rw [← Option.some.inj h]; rfl

theorem all_ensure {capacity growth : Int} (h : janetArrayEnsure a capacity growth = some b) (ha : a.All p) :
    b.All p := by
  unfold JanetArray.All
  rw [elements_ensure h]
  exact ha

/-- Growing an array and then writing to it. -/
theorem all_ensure_write {capacity growth : Int} {f : JanetArray → List Janet}
    (h : (do let a ← janetArrayEnsure a capacity growth; a.write (f a)) = some b) (ha : a.All p)
    (hf : ∀ a' : JanetArray, a'.All p → ∀ x ∈ f a', p x) : b.All p := by
  obtain ⟨a', ha', hb⟩ := Option.bind_eq_some_iff.mp h
  exact all_write hb (hf a' (all_ensure ha' ha))

theorem all_replicate {n : Nat} (h : p x) : ∀ y ∈ List.replicate n x, p y := fun _ hy =>
  List.eq_of_mem_replicate hy ▸ h

theorem all_append {ys : List Janet} (hx : ∀ x ∈ xs, p x) (hy : ∀ y ∈ ys, p y) : ∀ z ∈ xs ++ ys, p z :=
  fun z hz => (List.mem_append.mp hz).elim (hx z) (hy z)

theorem all_setcount {count : Int} (h : janetArraySetcount a count = some b) (ha : a.All p) (hnil : p janetWrapNil) :
    b.All p := by
  unfold janetArraySetcount at h
  split at h
  · rw [← Option.some.inj h]; exact ha
  · split at h
    · exact all_ensure_write h ha fun a' ha' => all_append ha' (all_replicate hnil)
    · exact all_write h fun x hx => ha x (List.mem_of_mem_take hx)

theorem all_push (h : janetArrayPush a x = some b) (ha : a.All p) (hx : p x) : b.All p := by
  unfold janetArrayPush at h
  split at h
  · cases h
  · exact all_ensure_write h ha fun a' ha' => all_append ha' (by simpa using hx)

theorem all_cfunPush (h : cfunArrayPush a xs = some b) (ha : a.All p) (hxs : ∀ x ∈ xs, p x) : b.All p := by
  unfold cfunArrayPush at h
  split at h
  · cases h
  · exact all_ensure_write h ha fun a' ha' => all_append ha' hxs

theorem all_pop (h : janetArrayPop a = some b) (ha : a.All p) : b.All p :=
  all_write h fun x hx => ha x (List.dropLast_subset _ hx)

theorem all_newFilled {n : Nat} (h : cfunArrayNewFilled n x = some b) (hx : p x) : b.All p :=
  all_write h (all_replicate hx)

theorem all_fill (h : cfunArrayFill a x = some b) (hx : p x) : b.All p := all_write h (all_replicate hx)

theorem all_slice {start stop : Nat} (h : cfunArraySlice xs start stop = some b) (hxs : ∀ x ∈ xs, p x) : b.All p :=
  all_write h fun x hx => hxs x (List.mem_of_mem_drop (List.mem_of_mem_take hx))

theorem all_insert {i : Nat} (h : cfunArrayInsert a i xs = some b) (ha : a.All p) (hxs : ∀ x ∈ xs, p x) : b.All p := by
  unfold cfunArrayInsert at h
  split at h
  · cases h
  · split at h
    · cases h
    · exact all_ensure_write h ha fun a' ha' => all_append
        (all_append (fun x hx => ha' x (List.mem_of_mem_take hx)) hxs) fun x hx => ha' x (List.mem_of_mem_drop hx)

theorem all_remove {i n : Nat} (h : cfunArrayRemove a i n = some b) (ha : a.All p) : b.All p := by
  unfold cfunArrayRemove at h
  split at h
  · cases h
  · exact all_write h (all_append (fun x hx => ha x (List.mem_of_mem_take hx)) fun x hx =>
      ha x (List.mem_of_mem_drop hx))

theorem all_trim (ha : a.All p) : (cfunArrayTrim a).All p := by
  unfold cfunArrayTrim
  split
  · split
    · exact ha
    · exact ha
  · simp [JanetArray.All, JanetArray.elements]

theorem all_clear (h : cfunArrayClear a = some b) : b.All p := all_write h (by simp)

theorem all_put {i : Nat} (h : janetPutArray a i x = some b) (ha : a.All p) (hx : p x) (hnil : p janetWrapNil) :
    b.All p := by
  unfold janetPutArray at h
  split at h
  · exact all_ensure_write h ha fun a' ha' => all_append (all_append ha' (all_replicate hnil)) (by simpa using hx)
  · refine all_write h fun y hy => ?_
    rcases List.mem_or_eq_of_mem_set hy with hy | rfl
    · exact ha y hy
    · exact hx

end All

end SwiftJanet
