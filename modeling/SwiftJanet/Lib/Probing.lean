import Mathlib.Data.List.Basic

/-!
# Open addressing

A hash table is a list of slots; a key is looked for along a sequence of slots of its own (`order`), up to the first
free slot. Removing a key leaves a slot that is gone, which a search passes.

- `find` is the search: the slot of an equal key, or one where the key can go;
- `Inv`: no free slot stands before a key on its sequence, and no two keys are equal. Filling a slot that a search
  found (`Inv.fill`), changing a value (`Inv.replace`) and removing a key (`Inv.remove`) keep it;
- under the invariant a search finds the keys that are there and no others (`Inv.lookup_eq_some`).
-/

namespace Lib.Probing

/-- A slot of a hash table. -/
inductive Slot (K V : Type) where
  | free
  | gone
  | full (k : K) (v : V)

namespace Slot

variable {K V : Type}

def isFree : Slot K V → Bool
  | free => true
  | _ => false

def isFull : Slot K V → Bool
  | full _ _ => true
  | _ => false

/-- The slot has an equal key. -/
def holds (eq : K → K → Bool) (k : K) : Slot K V → Bool
  | full k' _ => eq k' k
  | _ => false

end Slot

section Find

variable {K V : Type} (eq : K → K → Bool) (slots : List (Slot K V)) (k : K)

/-- The search along a sequence of slots; `first` is the first slot seen that is gone. -/
def find : List Nat → Option Nat → Option Nat
  | [], first => first
  | i :: is, first =>
    match slots[i]? with
    | none => first
    | some .free => some i
    | some .gone => find is (first.or (some i))
    | some (.full k' _) => if eq k' k then some i else find is first

/-- The slot is there, and not free. -/
def passes (i : Nat) : Bool := (slots[i]?).any fun s => !s.isFree

/-- The slots that a search goes through before it comes to a free one. -/
def reach (is : List Nat) : List Nat := is.takeWhile (passes slots)

def isGone (i : Nat) : Bool := (slots[i]?).any fun s => !s.isFree && !s.isFull

def holdsAt (i : Nat) : Bool := (slots[i]?).any fun s => s.holds eq k

variable {eq slots k} {is pre : List Nat} {i j : Nat} {s : Slot K V} {v : V}

theorem passes_iff : passes slots i = true ↔ ∃ s, slots[i]? = some s ∧ s.isFree = false := by
  simp [passes, Option.any_eq_true]

/-- Through slots that are not free the search looks for an equal key, and notes the first slot that is gone. -/
theorem find_append : ∀ {pre : List Nat} {first : Option Nat}, (∀ i ∈ pre, passes slots i = true) →
    find eq slots k (pre ++ is) first =
      (pre.find? (holdsAt eq slots k)).or (find eq slots k is (first.or (pre.find? (isGone slots))))
  | [], first, _ => by simp
  | i :: pre, first, h => by
    obtain ⟨s, hs, hfree⟩ := passes_iff.mp (h i (by simp))
    have ih := fun first => @find_append pre first fun j hj => h j (List.mem_cons_of_mem i hj)
    rw [List.cons_append, find, hs]
    cases s with
    | free => cases hfree
    | gone =>
      have hholds : holdsAt eq slots k i = false := by simp [holdsAt, hs, Slot.holds]
      have hgone : isGone slots i = true := by simp [isGone, hs, Slot.isFree, Slot.isFull]
      simp only [ih, List.find?_cons, hholds, hgone, Option.or_assoc, Option.some_or]
    | full k' v =>
      have hgone : isGone slots i = false := by simp [isGone, hs, Slot.isFree, Slot.isFull]
      cases heq : eq k' k with
      | true =>
        have hholds : holdsAt eq slots k i = true := by simp [holdsAt, hs, Slot.holds, heq]
        simp only [heq, if_true, List.find?_cons, hholds, Option.some_or]
      | false =>
        have hholds : holdsAt eq slots k i = false := by simp [holdsAt, hs, Slot.holds, heq]
        simp only [heq, Bool.false_eq_true, if_false, ih, List.find?_cons, hholds, hgone]

theorem find_free {rest : List Nat} {first : Option Nat} (h : slots[i]? = some .free) :
    find eq slots k (i :: rest) first = some i := by
  rw [find, h]

theorem passes_of_mem_reach (hi : i ∈ reach slots is) : passes slots i = true := by
  induction is with
  | nil => cases hi
  | cons j is ih =>
    rw [reach, List.takeWhile_cons] at hi
    cases hj : passes slots j with
    | false => rw [hj] at hi; cases hi
    | true =>
      rw [hj] at hi
      rcases List.mem_cons.mp hi with rfl | hi
      · exact hj
      · exact ih hi

/-- A search goes through slots that are not free, up to the end or to a free slot. -/
theorem reach_split : ∀ {is : List Nat}, (∀ i ∈ is, i < slots.length) → ∃ rest, is = reach slots is ++ rest ∧
    (rest = [] ∨ ∃ i rest', rest = i :: rest' ∧ slots[i]? = some .free)
  | [], _ => ⟨[], rfl, Or.inl rfl⟩
  | i :: is, hin => by
    rw [reach, List.takeWhile_cons]
    have hi : i < slots.length := hin i List.mem_cons_self
    cases hpass : passes slots i with
    | true =>
      obtain ⟨rest, hsplit, hrest⟩ := reach_split fun j hj => hin j (List.mem_cons_of_mem i hj)
      refine ⟨rest, ?_, hrest⟩
      simp only [if_true, List.cons_append]
      exact congrArg (i :: ·) hsplit
    | false =>
      refine ⟨i :: is, rfl, Or.inr ⟨i, is, rfl, ?_⟩⟩
      cases hs : slots[i] with
      | free => rw [List.getElem?_eq_getElem hi, hs]
      | gone => simp [passes, List.getElem?_eq_getElem hi, hs, Slot.isFree] at hpass
      | full k' v => simp [passes, List.getElem?_eq_getElem hi, hs, Slot.isFree] at hpass

/-- Slots that are passed now are passed when more slots are filled. -/
theorem reach_mono {slots' : List (Slot K V)} (h : ∀ i, passes slots i = true → passes slots' i = true)
    (hi : i ∈ reach slots is) : i ∈ reach slots' is := by
  induction is with
  | nil => exact hi
  | cons j is ih =>
    rw [reach, List.takeWhile_cons] at hi ⊢
    cases hj : passes slots j with
    | false => rw [hj] at hi; cases hi
    | true =>
      rw [hj] at hi
      rw [h j hj]
      rcases List.mem_cons.mp hi with rfl | hi
      · exact List.mem_cons_self
      · exact List.mem_cons_of_mem j (ih hi)

/-- A slot behind slots that are passed is reached once it is passed itself. -/
theorem mem_reach_append {rest : List Nat} (hpre : ∀ j ∈ pre, passes slots j = true) (hi : passes slots i = true) :
    i ∈ reach slots (pre ++ i :: rest) := by
  rw [reach, List.takeWhile_append_of_pos hpre, List.takeWhile_cons_of_pos hi]
  simp

/-- The slot that a search gives can take the key: it is not full, and the search comes to it when it is filled. -/
def Takes (slots : List (Slot K V)) (is : List Nat) (i : Nat) : Prop :=
  i < slots.length ∧ (∀ k v, slots[i]? ≠ some (.full k v)) ∧
    ∀ s : Slot K V, s.isFree = false → i ∈ reach (slots.set i s) is

theorem passes_set (hi : i < slots.length) (hs : s.isFree = false) (hj : passes slots j = true) :
    passes (slots.set i s) j = true := by
  obtain ⟨t, ht, hfree⟩ := passes_iff.mp hj
  by_cases h : i = j
  · subst h
    exact passes_iff.mpr ⟨s, List.getElem?_set_self hi, hs⟩
  · exact passes_iff.mpr ⟨t, by rw [List.getElem?_set_ne h]; exact ht, hfree⟩

/-- A search gives a slot of the table. -/
theorem find_lt : ∀ {is : List Nat} {first : Option Nat}, (∀ j, first = some j → j < slots.length) →
    find eq slots k is first = some i → i < slots.length
  | [], _, hfirst, h => hfirst i h
  | j :: is, first, hfirst, h => by
    rw [find] at h
    cases hj : slots[j]? with
    | none =>
      rw [hj] at h
      exact hfirst i h
    | some s =>
      have hlt : j < slots.length := (List.getElem?_eq_some_iff.mp hj).1
      rw [hj] at h
      cases s with
      | free =>
        obtain rfl := Option.some.inj h
        exact hlt
      | gone =>
        refine find_lt (fun j' h' => ?_) h
        cases first with
        | none =>
          obtain rfl := Option.some.inj h'
          exact hlt
        | some j'' => exact hfirst j' h'
      | full k' v =>
        simp only at h
        split at h
        · obtain rfl := Option.some.inj h
          exact hlt
        · exact find_lt hfirst h

/-- **A search gives an equal key**, or there is none before the first free slot and it gives a slot that can take
the key, unless all slots are full. -/
theorem find_cases (hin : ∀ i ∈ is, i < slots.length) :
    (∃ i k' v, find eq slots k is none = some i ∧ i ∈ reach slots is ∧ slots[i]? = some (.full k' v) ∧ eq k' k = true) ∨
      ((∀ i ∈ reach slots is, holdsAt eq slots k i = false) ∧
        ((∃ i, find eq slots k is none = some i ∧ i ∈ is ∧ Takes slots is i) ∨
          find eq slots k is none = none ∧ ∀ i ∈ is, ∃ k' v, slots[i]? = some (.full k' v))) := by
  have hpass := fun i (hi : i ∈ reach slots is) => passes_of_mem_reach hi
  obtain ⟨rest, hsplit, hrest⟩ := reach_split hin
  generalize hreach : reach slots is = pre at *
  have hmem : ∀ i ∈ pre, i ∈ is := fun i hi => by rw [hsplit]; exact List.mem_append_left rest hi
  have hfind : find eq slots k is none = (pre.find? (holdsAt eq slots k)).or
      (find eq slots k rest (pre.find? (isGone slots))) := by
    rw [hsplit, find_append hpass, Option.none_or]
  cases hholds : pre.find? (holdsAt eq slots k) with
  | some i =>
    left
    have hi : holdsAt eq slots k i = true := List.find?_some hholds
    obtain ⟨s, hs, hsk⟩ := (Option.any_eq_true _ _).mp hi
    cases s with
    | full k' v => exact ⟨i, k', v, by rw [hfind, hholds]; rfl, List.mem_of_find?_eq_some hholds, hs, hsk⟩
    | free => cases hsk
    | gone => cases hsk
  | none =>
    right
    refine ⟨fun i hi => by simpa using List.find?_eq_none.mp hholds i hi, ?_⟩
    rw [hholds, Option.none_or] at hfind
    rcases hrest with rfl | ⟨i, rest', rfl, hfree⟩
    · -- no slot is free: the first one that is gone takes the key
      rw [List.append_nil] at hsplit
      rw [find] at hfind
      cases hgone : pre.find? (isGone slots) with
      | some i =>
        left
        have hi : i ∈ pre := List.mem_of_find?_eq_some hgone
        have hg : isGone slots i = true := List.find?_some hgone
        obtain ⟨s, hs, hsg⟩ := (Option.any_eq_true _ _).mp hg
        refine ⟨i, by rw [hfind, hgone], hmem i hi, hin i (hmem i hi), ?_, ?_⟩
        · intro k' v hk
          obtain rfl := Option.some.inj (hs.symm.trans hk)
          simp [Slot.isFull] at hsg
        · intro s' hs'
          refine reach_mono (fun j hj => passes_set (hin i (hmem i hi)) hs' hj) ?_
          rw [hreach]
          exact hi
      | none =>
        right
        refine ⟨by rw [hfind, hgone], fun i hi => ?_⟩
        rw [hsplit] at hi
        obtain ⟨s, hs, hfree⟩ := passes_iff.mp (hpass i hi)
        have hnot : isGone slots i = false := by simpa using List.find?_eq_none.mp hgone i hi
        cases s with
        | full k' v => exact ⟨k', v, hs⟩
        | free => cases hfree
        | gone => simp [isGone, hs, Slot.isFree, Slot.isFull] at hnot
    · left
      have hi : i ∈ is := by rw [hsplit]; simp
      refine ⟨i, by rw [hfind, find_free hfree], hi, hin i hi, ?_, ?_⟩
      · intro k' v hk
        cases hfree.symm.trans hk
      · intro s hs
        rw [hsplit]
        exact mem_reach_append (fun j hj => passes_set (hin i hi) hs (hpass j hj))
          (passes_iff.mpr ⟨s, List.getElem?_set_self (hin i hi), hs⟩)

end Find

/-! ## Tables -/

section Table

variable {K V : Type} (eq : K → K → Bool) (order : Nat → K → List Nat)

/-- What is found under a key. -/
def lookup (slots : List (Slot K V)) (k : K) : Option V :=
  match find eq slots k (order slots.length k) none with
  | none => none
  | some i => match slots[i]? with
    | some (.full _ v) => some v
    | _ => none

/-- Put a key into the slot that a search gives. -/
def put (slots : List (Slot K V)) (k : K) (v : V) : Option (List (Slot K V)) := do
  let i ← find eq slots k (order slots.length k) none
  some (slots.set i (.full k v))

/-- Put the keys of all full slots into another table. -/
def putAll : List (Slot K V) → List (Slot K V) → Option (List (Slot K V))
  | [], slots => some slots
  | .full k v :: old, slots => do putAll old (← put eq order slots k v)
  | _ :: old, slots => putAll old slots

/-- The key is in the table, with this value. -/
def Holds (slots : List (Slot K V)) (k : K) (v : V) : Prop :=
  ∃ k', Slot.full k' v ∈ slots ∧ eq k' k = true

/-- Keys with the property `P` have one sequence of slots if they are equal, and every sequence goes through all
slots. -/
structure Lawful (P : K → Prop) : Prop where
  symm : ∀ {k k'}, P k → P k' → eq k k' = true → eq k' k = true
  trans : ∀ {k k' k''}, P k → P k' → P k'' → eq k k' = true → eq k' k'' = true → eq k k'' = true
  along : ∀ {k k'} n, P k → P k' → eq k k' = true → order n k = order n k'
  covers : ∀ {i n k}, 0 < n → (i ∈ order n k ↔ i < n)

/-- The invariant: a search reaches every key, and no key is there twice. -/
structure Inv (P : K → Prop) (slots : List (Slot K V)) : Prop where
  nonempty : 0 < slots.length
  keys : ∀ {i : Nat} {k : K} {v : V}, slots[i]? = some (.full k v) → P k
  reached : ∀ {i : Nat} {k : K} {v : V}, slots[i]? = some (.full k v) → i ∈ reach slots (order slots.length k)
  unique : ∀ {i j : Nat} {k k' : K} {v v' : V}, slots[i]? = some (.full k v) → slots[j]? = some (.full k' v') →
    eq k' k = true → i = j

/-- The slot at `i` can be filled with the key: a search comes to it, and no other slot has an equal key. -/
structure Fits (slots : List (Slot K V)) (k : K) (i : Nat) : Prop where
  lt : i < slots.length
  reached : ∀ v, i ∈ reach (slots.set i (.full k v)) (order slots.length k)
  same : ∀ {k' : K} {v : V}, slots[i]? = some (.full k' v) → k' = k
  apart : ∀ {j : Nat} {k' : K} {v : V}, slots[j]? = some (.full k' v) → eq k' k = true → j = i

variable {eq order} {P : K → Prop} {slots slots' old : List (Slot K V)} {k k' : K} {v v' : V} {i : Nat}

/-! ## Searching under the invariant -/

/-- **Under the invariant a search finds the keys that are there.** -/
theorem Inv.lookup_eq_some (hl : Lawful eq order P) (hi : Inv eq order P slots) (hk : P k) :
    lookup eq order slots k = some v ↔ Holds eq slots k v := by
  have hcases := @find_cases K V eq slots k (order slots.length k) fun i h => (hl.covers hi.nonempty).mp h
  rw [lookup]
  constructor
  · intro h
    rcases hcases with ⟨i, k', v', hf, _, hs, heq⟩ | ⟨_, ⟨i, hf, _, ht⟩ | ⟨hf, _⟩⟩
    · rw [hf] at h
      simp only [hs, Option.some.injEq] at h
      exact ⟨k', List.mem_of_getElem? (h ▸ hs), heq⟩
    · rw [hf] at h
      simp only at h
      split at h
      · next hs => exact absurd hs (ht.2.1 _ _)
      · cases h
    · rw [hf] at h
      cases h
  · rintro ⟨k', hmem, heq⟩
    obtain ⟨j, hj⟩ := List.mem_iff_getElem?.mp hmem
    have hreach : j ∈ reach slots (order slots.length k) := by
      rw [← hl.along _ (hi.keys hj) hk heq]
      exact hi.reached hj
    rcases hcases with ⟨i, k'', v', hf, _, hs, heq'⟩ | ⟨hno, _⟩
    · have hsame : eq k' k'' = true :=
        hl.trans (hi.keys hj) hk (hi.keys hs) heq (hl.symm (hi.keys hs) hk heq')
      obtain rfl := hi.unique hs hj hsame
      cases Option.some.inj (hs.symm.trans hj)
      rw [hf]
      simp only [hs]
    · have := hno j hreach
      simp [holdsAt, hj, Slot.holds, heq] at this

/-- What is found is there, whatever the keys are. -/
theorem holds_of_lookup (hin : ∀ i ∈ order slots.length k, i < slots.length) (h : lookup eq order slots k = some v) :
    Holds eq slots k v := by
  rw [lookup] at h
  rcases @find_cases K V eq slots k (order slots.length k) hin with
    ⟨i, k', v', hfind, _, hs, heq⟩ | ⟨_, ⟨i, hfind, _, htakes⟩ | ⟨hfind, _⟩⟩
  · simp only [hfind, hs, Option.some.injEq] at h
    subst h
    exact ⟨k', List.mem_of_getElem? hs, heq⟩
  · simp only [hfind] at h
    cases hs : slots[i]? with
    | none =>
      rw [hs] at h
      cases h
    | some s =>
      cases s with
      | full k' v' => exact absurd hs (htakes.2.1 k' v')
      | _ =>
        rw [hs] at h
        cases h
  · simp only [hfind] at h
    cases h

/-! ## Putting a key -/

/-- What stands in a slot after another one, or itself, was filled. -/
theorem getElem?_fill (hlt : i < slots.length) {j : Nat} {s : Slot K V} :
    (slots.set i (.full k v))[j]? = some s ↔ (j = i ∧ s = .full k v) ∨ (j ≠ i ∧ slots[j]? = some s) := by
  by_cases h : j = i
  · subst h
    rw [List.getElem?_set_self hlt]
    simp [eq_comm]
  · rw [List.getElem?_set_ne (Ne.symm h)]
    simp [h]

/-- **Filling a slot that fits keeps the invariant.** -/
theorem Inv.fill (hl : Lawful eq order P) (hi : Inv eq order P slots) (hk : P k) (hf : Fits eq order slots k i) :
    Inv eq order P (slots.set i (.full k v)) := by
  constructor
  · rw [List.length_set]
    exact hi.nonempty
  · intro j k' v' hj
    rcases (getElem?_fill hf.lt).mp hj with ⟨rfl, heq⟩ | ⟨_, hj⟩
    · cases heq
      exact hk
    · exact hi.keys hj
  · intro j k' v' hj
    rw [List.length_set]
    rcases (getElem?_fill hf.lt).mp hj with ⟨rfl, heq⟩ | ⟨_, hj⟩
    · cases heq
      exact hf.reached v
    · exact reach_mono (fun _ h => passes_set hf.lt rfl h) (hi.reached hj)
  · intro j j' k' k'' v' v'' hj hj' heq
    rcases (getElem?_fill hf.lt).mp hj with ⟨rfl, h⟩ | ⟨hne, hj⟩
    · cases h
      rcases (getElem?_fill hf.lt).mp hj' with ⟨h', _⟩ | ⟨_, hj'⟩
      · exact h'.symm
      · exact (hf.apart hj' heq).symm
    · rcases (getElem?_fill hf.lt).mp hj' with ⟨h, h'⟩ | ⟨_, hj'⟩
      · cases h'
        exact (hf.apart hj (hl.symm hk (hi.keys hj) heq)).trans h.symm
      · exact hi.unique hj hj' heq

/-- The filled table holds the new value for the new key, and for the others what it held before. -/
theorem Inv.holds_fill (hl : Lawful eq order P) (hi : Inv eq order P slots) (hk : P k) (hf : Fits eq order slots k i)
    (hk' : P k') : Holds eq (slots.set i (.full k v)) k' v' ↔ if eq k k' = true then v' = v else Holds eq slots k' v' := by
  have hold : Holds eq (slots.set i (.full k v)) k' v' ↔
      (eq k k' = true ∧ v' = v) ∨ ∃ j k'', j ≠ i ∧ slots[j]? = some (.full k'' v') ∧ eq k'' k' = true := by
    constructor
    · rintro ⟨k'', hmem, heq⟩
      obtain ⟨j, hj⟩ := List.mem_iff_getElem?.mp hmem
      rcases (getElem?_fill hf.lt).mp hj with ⟨rfl, h⟩ | ⟨hne, hj⟩
      · cases h
        exact Or.inl ⟨heq, rfl⟩
      · exact Or.inr ⟨j, k'', hne, hj, heq⟩
    · rintro (⟨heq, rfl⟩ | ⟨j, k'', hne, hj, heq⟩)
      · exact ⟨k, List.mem_of_getElem? ((getElem?_fill hf.lt).mpr (Or.inl ⟨rfl, rfl⟩)), heq⟩
      · exact ⟨k'', List.mem_of_getElem? ((getElem?_fill hf.lt).mpr (Or.inr ⟨hne, hj⟩)), heq⟩
  rw [hold]
  split
  · next heq =>
    rw [and_iff_right heq]
    refine or_iff_left ?_
    rintro ⟨j, k'', hne, hj, heq'⟩
    exact hne (hf.apart hj (hl.trans (hi.keys hj) hk' hk heq' (hl.symm hk hk' heq)))
  · next hne =>
    constructor
    · rintro (⟨heq, _⟩ | ⟨j, k'', _, hj, heq⟩)
      · exact absurd heq hne
      · exact ⟨k'', List.mem_of_getElem? hj, heq⟩
    · rintro ⟨k'', hmem, heq⟩
      obtain ⟨j, hj⟩ := List.mem_iff_getElem?.mp hmem
      refine Or.inr ⟨j, k'', ?_, hj, heq⟩
      rintro rfl
      exact hne (hf.same hj ▸ heq)

/-- A full slot can be filled with its own key. -/
theorem Inv.fits_full (hi : Inv eq order P slots) (hs : slots[i]? = some (.full k v)) : Fits eq order slots k i := by
  have hlt : i < slots.length := (List.getElem?_eq_some_iff.mp hs).1
  refine ⟨hlt, fun v' => reach_mono (fun _ h => passes_set hlt rfl h) (hi.reached hs), ?_, ?_⟩
  · intro k' v' h
    cases Option.some.inj (hs.symm.trans h)
    rfl
  · intro j k' v' hj heq
    exact (hi.unique hs hj heq).symm

/-- **The slot that a search gives can be filled**: with the equal key that stands there, or with the key itself. -/
theorem Inv.fits_of_find (hl : Lawful eq order P) (hi : Inv eq order P slots) (hk : P k)
    (hfind : find eq slots k (order slots.length k) none = some i) :
    (∃ k' v, slots[i]? = some (.full k' v) ∧ eq k' k = true ∧ Fits eq order slots k' i) ∨
      (∃ s, slots[i]? = some s ∧ s.isFull = false ∧ Fits eq order slots k i) := by
  rcases @find_cases K V eq slots k (order slots.length k) fun i h => (hl.covers hi.nonempty).mp h with
    ⟨j, k', v, hj, _, hs, heq⟩ | ⟨hno, ⟨j, hj, _, hlt, hfull, hreach⟩ | ⟨hnone, _⟩⟩
  · obtain rfl := Option.some.inj (hfind.symm.trans hj)
    exact Or.inl ⟨k', v, hs, heq, hi.fits_full hs⟩
  · obtain rfl := Option.some.inj (hfind.symm.trans hj)
    refine Or.inr ⟨slots[i], List.getElem?_eq_getElem hlt, ?_, hlt, ?_, ?_, ?_⟩
    · cases hs : slots[i] with
      | full k' v => exact absurd (by rw [List.getElem?_eq_getElem hlt, hs]) (hfull k' v)
      | _ => rfl
    · intro v
      exact hreach _ rfl
    · intro k' v h
      exact absurd h (hfull k' v)
    · intro j k' v hj heq
      have hreached := hi.reached hj
      rw [hl.along _ (hi.keys hj) hk heq] at hreached
      have := hno j hreached
      simp [holdsAt, hj, Slot.holds, heq] at this
  · cases hfind.symm.trans hnone

/-! ## Full slots -/

/-- The full slots. -/
def fulls (slots : List (Slot K V)) : List (Slot K V) := slots.filter Slot.isFull

/-- No key of the table is equal to this one. -/
def Fresh (eq : K → K → Bool) (slots : List (Slot K V)) (k : K) : Prop :=
  ∀ {k' v}, Slot.full k' v ∈ slots → eq k' k = false

/-- The keys of two slots are told apart. -/
def Apart (eq : K → K → Bool) (s t : Slot K V) : Prop :=
  ∀ {k k' v v'}, s = .full k v → t = .full k' v' → eq k k' = false

theorem mem_fulls : Slot.full k v ∈ fulls slots ↔ Slot.full k v ∈ slots := by simp [fulls, Slot.isFull]

theorem exists_room (h : (fulls slots).length < slots.length) : ∃ s ∈ slots, s.isFull = false := by
  by_contra hno
  have hall : slots.filter Slot.isFull = slots := by
    refine List.filter_eq_self.mpr fun s hs => ?_
    by_contra hfull
    exact hno ⟨s, hs, by simpa using hfull⟩
  rw [fulls, hall] at h
  omega

/-- Overwriting an element without a property by one that has it. -/
theorem filter_set_perm {α : Type} {p : α → Bool} {l : List α} {x y : α} (hx : l[i]? = some x) (hp : p x = false)
    (hy : p y = true) : ((l.set i y).filter p).Perm (y :: l.filter p) := by
  obtain ⟨hlt, rfl⟩ := List.getElem?_eq_some_iff.mp hx
  have hold : l.filter p = (l.take i).filter p ++ (l.drop (i + 1)).filter p := by
    have hsplit : l.filter p = (l.take i ++ l[i] :: l.drop (i + 1)).filter p := by simp
    rw [hsplit]
    simp only [List.filter_append, List.filter_cons, hp, Bool.false_eq_true, if_false]
  rw [List.set_eq_take_append_cons_drop, if_pos hlt, hold]
  simp only [List.filter_append, List.filter_cons, hy, if_true]
  exact List.perm_middle

theorem fulls_fill {s : Slot K V} (hs : slots[i]? = some s) (hfull : s.isFull = false) :
    (fulls (slots.set i (.full k v))).Perm (.full k v :: fulls slots) :=
  filter_set_perm hs hfull rfl

theorem Inv.pairwise (hi : Inv eq order P slots) : slots.Pairwise (Apart eq) := by
  rw [List.pairwise_iff_getElem]
  intro i j hlt hlt' hij k k' v v' hs ht
  by_contra heq
  have := hi.unique (by rw [List.getElem?_eq_getElem hlt', ht]) (by rw [List.getElem?_eq_getElem hlt, hs])
    (by simpa using heq)
  omega

/-! ## Putting many keys -/

/-- As long as not all slots are full, a key that is told apart from all others gets a slot that was not full. -/
theorem put_fresh (hcovers : ∀ {i n k}, 0 < n → (i ∈ order n k ↔ i < n)) (hroom : (fulls slots).length < slots.length)
    (hfresh : Fresh eq slots k) : ∃ slots', put eq order slots k v = some slots' ∧
      slots'.length = slots.length ∧ (fulls slots').Perm (.full k v :: fulls slots) ∧
      ∀ {P}, Lawful eq order P → P k → Inv eq order P slots → Inv eq order P slots' := by
  rcases @find_cases K V eq slots k (order slots.length k) fun i h => (hcovers (by omega)).mp h with
    ⟨i, k', w, _, _, hs, heq⟩ | ⟨_, ⟨i, hfind, _, hlt, hfull, hreach⟩ | ⟨_, hall⟩⟩
  · rw [hfresh (List.mem_of_getElem? hs)] at heq
    cases heq
  · have hfull' : slots[i].isFull = false := by
      cases hs : slots[i] with
      | full k' w => exact absurd (by rw [List.getElem?_eq_getElem hlt, hs]) (hfull k' w)
      | _ => rfl
    refine ⟨slots.set i (.full k v), by rw [put, hfind]; rfl, List.length_set,
      fulls_fill (List.getElem?_eq_getElem hlt) hfull', ?_⟩
    intro P hl hk hi
    refine hi.fill hl hk ⟨hlt, fun v => hreach _ rfl, fun h => absurd h (hfull _ _), ?_⟩
    intro j k' w hj heq
    rw [hfresh (List.mem_of_getElem? hj)] at heq
    cases heq
  · obtain ⟨s, hmem, hs⟩ := exists_room hroom
    obtain ⟨j, hj⟩ := List.mem_iff_getElem?.mp hmem
    obtain ⟨k', w, h⟩ := hall j ((hcovers (by omega)).mpr (List.getElem?_eq_some_iff.mp hj).1)
    cases Option.some.inj (hj.symm.trans h)
    cases hs

theorem putAll_of_not_full {s : Slot K V} (h : s.isFull = false) :
    putAll eq order (s :: old) slots = putAll eq order old slots := by
  cases s with
  | full k v => cases h
  | _ => rfl

/-- **A table that is made anew has the keys of the old one**, if there is room for them. -/
theorem putAll_fresh (hcovers : ∀ {i n k}, 0 < n → (i ∈ order n k ↔ i < n)) : ∀ {old slots : List (Slot K V)},
    old.Pairwise (Apart eq) → (∀ k v, Slot.full k v ∈ old → Fresh eq slots k) →
    (fulls old).length + (fulls slots).length ≤ slots.length →
    ∃ slots', putAll eq order old slots = some slots' ∧ slots'.length = slots.length ∧
      (fulls slots').Perm (fulls old ++ fulls slots) ∧
      ∀ {P}, Lawful eq order P → (∀ k v, Slot.full k v ∈ old → P k) → Inv eq order P slots → Inv eq order P slots'
  | [], slots, _, _, _ => ⟨slots, rfl, rfl, List.Perm.refl _, fun _ _ hi => hi⟩
  | .full k v :: old, slots, hpair, hfresh, hroom => by
    obtain ⟨hk, hrest⟩ := List.pairwise_cons.mp hpair
    have hroom₁ : (fulls old).length + 1 + (fulls slots).length ≤ slots.length := hroom
    obtain ⟨slots₁, hput, hlen₁, hfulls₁, hinv₁⟩ := @put_fresh K V eq order slots k v hcovers (by omega)
      (hfresh k v List.mem_cons_self)
    have hlength := hfulls₁.length_eq
    rw [List.length_cons] at hlength
    have hfresh₁ : ∀ k' v', Slot.full k' v' ∈ old → Fresh eq slots₁ k' := by
      intro k' v' hmem k'' v'' hmem'
      rcases List.mem_cons.mp (hfulls₁.mem_iff.mp (mem_fulls.mpr hmem')) with h | h
      · cases h
        exact hk _ hmem rfl rfl
      · exact hfresh k' v' (List.mem_cons_of_mem _ hmem) (mem_fulls.mp h)
    obtain ⟨slots', hall, hlen, hfulls, hinv⟩ := putAll_fresh hcovers hrest hfresh₁ (by omega)
    refine ⟨slots', by rw [putAll, hput]; exact hall, hlen.trans hlen₁, ?_, ?_⟩
    · refine hfulls.trans ((hfulls₁.append_left (fulls old)).trans ?_)
      exact List.perm_middle
    · intro P hl hp hi
      exact hinv hl (fun k' v' hmem => hp k' v' (List.mem_cons_of_mem _ hmem)) (hinv₁ hl (hp k v List.mem_cons_self) hi)
  | .free :: old, slots, hpair, hfresh, hroom => by
    obtain ⟨slots', hall, hlen, hfulls, hinv⟩ := putAll_fresh hcovers (List.pairwise_cons.mp hpair).2
      (fun k v hmem => hfresh k v (List.mem_cons_of_mem _ hmem)) hroom
    exact ⟨slots', hall, hlen, hfulls, fun hl hp => hinv hl fun k v hmem => hp k v (List.mem_cons_of_mem _ hmem)⟩
  | .gone :: old, slots, hpair, hfresh, hroom => by
    obtain ⟨slots', hall, hlen, hfulls, hinv⟩ := putAll_fresh hcovers (List.pairwise_cons.mp hpair).2
      (fun k v hmem => hfresh k v (List.mem_cons_of_mem _ hmem)) hroom
    exact ⟨slots', hall, hlen, hfulls, fun hl hp => hinv hl fun k v hmem => hp k v (List.mem_cons_of_mem _ hmem)⟩

/-- A key that is told apart from all others was put where there was room. -/
theorem room_of_put (hcovers : ∀ {i n k}, 0 < n → (i ∈ order n k ↔ i < n)) (hfresh : Fresh eq slots k)
    (h : put eq order slots k v = some slots') : (fulls slots).length < slots.length := by
  obtain ⟨i, hfind, _⟩ := Option.bind_eq_some_iff.mp h
  have hlt : i < slots.length := find_lt (fun j hj => by cases hj) hfind
  rcases @find_cases K V eq slots k (order slots.length k) fun i h => (hcovers (by omega)).mp h with
    ⟨j, k', w, _, _, hs, heq⟩ | ⟨_, ⟨j, _, _, ht⟩ | ⟨hnone, _⟩⟩
  · rw [hfresh (List.mem_of_getElem? hs)] at heq
    cases heq
  · have hj : j < slots.length := ht.1
    refine List.length_filter_lt_length_iff_exists.mpr ⟨slots[j], List.getElem_mem hj, ?_⟩
    intro hfull
    cases hs : slots[j] with
    | full k' w => exact ht.2.1 k' w (by rw [List.getElem?_eq_getElem hj, hs])
    | _ => rw [hs] at hfull; cases hfull
  · cases hfind.symm.trans hnone

/-- All keys of a table were put where there was room. -/
theorem room_of_putAll (hcovers : ∀ {i n k}, 0 < n → (i ∈ order n k ↔ i < n)) : ∀ {old slots : List (Slot K V)},
    old.Pairwise (Apart eq) → (∀ k v, Slot.full k v ∈ old → Fresh eq slots k) → putAll eq order old slots = some slots' →
      (fulls old).length + (fulls slots).length ≤ slots.length
  | [], slots, _, _, _ => by
    rw [show fulls ([] : List (Slot K V)) = [] from rfl, List.length_nil, Nat.zero_add]
    exact List.length_filter_le ..
  | .full k v :: old, slots, hpair, hfresh, h => by
    obtain ⟨hk, hrest⟩ := List.pairwise_cons.mp hpair
    obtain ⟨slots₁, hput, h⟩ := Option.bind_eq_some_iff.mp h
    have hroom := room_of_put hcovers (hfresh k v List.mem_cons_self) hput
    obtain ⟨slots₂, hput', hlen, hfulls, _⟩ := @put_fresh K V eq order slots k v hcovers hroom
      (hfresh k v List.mem_cons_self)
    obtain rfl := Option.some.inj (hput.symm.trans hput')
    have hlength := hfulls.length_eq
    rw [List.length_cons] at hlength
    have hfresh₁ : ∀ k' v', Slot.full k' v' ∈ old → Fresh eq slots₁ k' := by
      intro k' v' hmem k'' v'' hmem'
      rcases List.mem_cons.mp (hfulls.mem_iff.mp (mem_fulls.mpr hmem')) with h | h
      · cases h
        exact hk _ hmem rfl rfl
      · exact hfresh k' v' (List.mem_cons_of_mem _ hmem) (mem_fulls.mp h)
    have hcount : (fulls (.full k v :: old)).length = (fulls old).length + 1 := rfl
    have := room_of_putAll hcovers hrest hfresh₁ h
    omega
  | .free :: old, slots, hpair, hfresh, h =>
    @room_of_putAll hcovers old slots (List.pairwise_cons.mp hpair).2
      (fun k v hmem => hfresh k v (List.mem_cons_of_mem _ hmem)) h
  | .gone :: old, slots, hpair, hfresh, h =>
    @room_of_putAll hcovers old slots (List.pairwise_cons.mp hpair).2
      (fun k v hmem => hfresh k v (List.mem_cons_of_mem _ hmem)) h

/-! ## Room -/

/-- Whatever keys are equal, a search gives a slot as long as not all of them are full. -/
theorem find_room (hcovers : ∀ {i n k}, 0 < n → (i ∈ order n k ↔ i < n)) (hroom : (fulls slots).length < slots.length) :
    ∃ i, find eq slots k (order slots.length k) none = some i ∧ i < slots.length := by
  rcases @find_cases K V eq slots k (order slots.length k) fun i h => (hcovers (by omega)).mp h with
    ⟨i, k', w, hfind, _, hs, _⟩ | ⟨_, ⟨i, hfind, _, ht⟩ | ⟨_, hall⟩⟩
  · exact ⟨i, hfind, (List.getElem?_eq_some_iff.mp hs).1⟩
  · exact ⟨i, hfind, ht.1⟩
  · obtain ⟨s, hmem, hs⟩ := exists_room hroom
    obtain ⟨j, hj⟩ := List.mem_iff_getElem?.mp hmem
    obtain ⟨k', w, h⟩ := hall j ((hcovers (by omega)).mpr (List.getElem?_eq_some_iff.mp hj).1)
    cases Option.some.inj (hj.symm.trans h)
    cases hs

theorem length_fulls_set {s : Slot K V} : (fulls (slots.set i s)).length ≤ (fulls slots).length + 1 := by
  by_cases hlt : i < slots.length
  · simp only [fulls, ← List.countP_eq_length_filter, List.countP_set hlt]
    split <;> split <;> omega
  · rw [List.set_eq_of_length_le (by omega)]
    omega

/-- A table that is made anew takes all keys of the old one, if there is room for them. -/
theorem putAll_room (hcovers : ∀ {i n k}, 0 < n → (i ∈ order n k ↔ i < n)) : ∀ {old slots : List (Slot K V)},
    (fulls old).length + (fulls slots).length ≤ slots.length → ∃ slots', putAll eq order old slots = some slots' ∧
      slots'.length = slots.length ∧ (fulls slots').length ≤ (fulls old).length + (fulls slots).length
  | [], slots, _ => ⟨slots, rfl, rfl, by omega⟩
  | .full k v :: old, slots, hroom => by
    have hcount : (fulls (.full k v :: old)).length = (fulls old).length + 1 := rfl
    obtain ⟨i, hfind, _⟩ := @find_room K V eq order slots k hcovers (by omega)
    have hset := @length_fulls_set K V slots i (.full k v)
    obtain ⟨slots', hall, hlen, hfulls⟩ := @putAll_room hcovers old (slots.set i (.full k v))
      (by rw [List.length_set]; omega)
    refine ⟨slots', ?_, hlen.trans List.length_set, by omega⟩
    rw [putAll, put, hfind]
    exact hall
  | .free :: old, slots, hroom => @putAll_room hcovers old slots hroom
  | .gone :: old, slots, hroom => @putAll_room hcovers old slots hroom

end Table

end Lib.Probing
