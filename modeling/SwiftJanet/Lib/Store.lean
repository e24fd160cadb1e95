import Mathlib.Logic.Function.Basic

/-!
# Stores

A store holds one kind of object at the addresses below `next`; address `0` is never given out.

- `alloc` takes the next address, `set` overwrites an object;
- `Store.Extends p s t`: the second store has what the first has, but for the object at `p`. Allocation changes no
  object (`extends_alloc`), and overwriting changes one (`extends_set`);
- `Store.All P s`: every object has the property `P`.
-/

namespace Lib

/-- Objects by address, with the next free address. -/
structure Store (α : Type) where
  next : Nat
  get : Nat → α
  pos : 0 < next

namespace Store

variable {α : Type} {s t u : Store α} {a : α} {p q : Nat}

/-- The store without objects. -/
def empty (a : α) : Store α := ⟨1, fun _ => a, Nat.one_pos⟩

/-- Put an object at the next address. -/
def alloc (s : Store α) (a : α) : Store α := ⟨s.next + 1, Function.update s.get s.next a, Nat.succ_pos _⟩

/-- Overwrite the object at an address. -/
def set (s : Store α) (p : Nat) (a : α) : Store α := ⟨s.next, Function.update s.get p a, s.pos⟩

@[simp] theorem next_alloc : (s.alloc a).next = s.next + 1 := rfl

@[simp] theorem get_alloc : (s.alloc a).get s.next = a := Function.update_self ..

theorem get_alloc_of_ne (h : p ≠ s.next) : (s.alloc a).get p = s.get p := Function.update_of_ne h ..

@[simp] theorem next_set : (s.set p a).next = s.next := rfl

@[simp] theorem get_set : (s.set p a).get p = a := Function.update_self ..

theorem get_set_of_ne (h : q ≠ p) : (s.set p a).get q = s.get q := Function.update_of_ne h ..

/-- The second store holds the objects of the first at their addresses, except perhaps the one at `p`. -/
structure Extends (p : Nat) (s t : Store α) : Prop where
  next_le : s.next ≤ t.next
  get_eq : ∀ q, 0 < q → q < s.next → q ≠ p → t.get q = s.get q

theorem Extends.refl : Extends p s s := ⟨Nat.le_refl _, fun _ _ _ _ => rfl⟩

theorem Extends.trans (h : Extends p s t) (h' : Extends p t u) : Extends p s u :=
  ⟨Nat.le_trans h.next_le h'.next_le, fun q hpos hq hne =>
    (h'.get_eq q hpos (Nat.lt_of_lt_of_le hq h.next_le) hne).trans (h.get_eq q hpos hq hne)⟩

/-- At address `0` there is no object to except. -/
theorem Extends.weaken (h : Extends 0 s t) : Extends p s t :=
  ⟨h.next_le, fun q hpos hq _ => h.get_eq q hpos hq (Nat.ne_of_gt hpos)⟩

theorem extends_alloc : Extends p s (s.alloc a) := ⟨Nat.le_succ _, fun _ _ hq _ => get_alloc_of_ne (by omega)⟩

theorem extends_set : Extends p s (s.set p a) := ⟨Nat.le_refl _, fun _ _ _ hne => get_set_of_ne hne⟩

/-- Every object has the property `P`. -/
def All (P : α → Prop) (s : Store α) : Prop := ∀ p, 0 < p → p < s.next → P (s.get p)

variable {P Q : α → Prop}

theorem all_empty : (empty a).All P := fun p h1 h2 => absurd h2 (by simp [empty]; omega)

theorem All.imp (h : s.All P) (hpq : ∀ a, P a → Q a) : s.All Q := fun p h1 h2 => hpq _ (h p h1 h2)

theorem All.alloc (h : s.All P) (ha : P a) : (s.alloc a).All P := fun p h1 h2 => by
  by_cases hp : p = s.next
  · rw [hp, get_alloc]; exact ha
  · rw [get_alloc_of_ne hp]; exact h p h1 (by simp at h2; omega)

theorem All.set (h : s.All P) (ha : P a) : (s.set p a).All P := fun q h1 h2 => by
  by_cases hq : q = p
  · rw [hq, get_set]; exact ha
  · rw [get_set_of_ne hq]; exact h q h1 h2

end Store

end Lib
