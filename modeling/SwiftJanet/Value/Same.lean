import SwiftJanet.Value.JanetValue

/-!
# The same value

Two values are the same when they are built alike from the same leaves, but for the order in which dictionaries list
their entries. A NaN is the same as itself, which it does not equal.

- `Same.equal_left`, `Same.equal_right`: values that are the same compare alike with any value;
- `Same.equal`: without a NaN inside, values that are the same are equal.
-/

namespace SwiftJanet.JanetValue

open Lib

/-- The same value, with dictionaries in any order. -/
inductive Same : JanetValue → JanetValue → Prop
  | leaf {v : JanetValue} (h : v.isLeaf = true) : Same v v
  | tuple {xs ys : List JanetValue} (h : List.Forall₂ Same xs ys) : Same (tuple xs) (tuple ys)
  | array {xs ys : List JanetValue} (h : List.Forall₂ Same xs ys) : Same (array xs) (array ys)
  | struct {es fs fs' : List (JanetValue × JanetValue)} (hlen : es.length = fs.length)
      (hkey : ∀ e f, (e, f) ∈ es.zip fs → Same e.1 f.1) (hvalue : ∀ e f, (e, f) ∈ es.zip fs → Same e.2 f.2)
      (hperm : fs.Perm fs') : Same (struct es) (struct fs')
  | table {es fs fs' : List (JanetValue × JanetValue)} (hlen : es.length = fs.length)
      (hkey : ∀ e f, (e, f) ∈ es.zip fs → Same e.1 f.1) (hvalue : ∀ e f, (e, f) ∈ es.zip fs → Same e.2 f.2)
      (hperm : fs.Perm fs') : Same (table es) (table fs')

/-- The same entry. -/
def SameEntry (e f : JanetValue × JanetValue) : Prop := Same e.1 f.1 ∧ Same e.2 f.2

section Same

variable {v w : JanetValue} {es fs fs' : List (JanetValue × JanetValue)}

theorem Same.struct_of (h : List.Forall₂ SameEntry es fs) (hperm : fs.Perm fs') :
    Same (JanetValue.struct es) (JanetValue.struct fs') := by
  obtain ⟨hlen, hsame⟩ := List.forall₂_iff_zip.mp h
  exact .struct hlen (fun e f hef => (hsame hef).1) (fun e f hef => (hsame hef).2) hperm

theorem Same.table_of (h : List.Forall₂ SameEntry es fs) (hperm : fs.Perm fs') :
    Same (JanetValue.table es) (JanetValue.table fs') := by
  obtain ⟨hlen, hsame⟩ := List.forall₂_iff_zip.mp h
  exact .table hlen (fun e f hef => (hsame hef).1) (fun e f hef => (hsame hef).2) hperm

theorem sameEntries (hlen : es.length = fs.length) (hkey : ∀ e f, (e, f) ∈ es.zip fs → Same e.1 f.1)
    (hvalue : ∀ e f, (e, f) ∈ es.zip fs → Same e.2 f.2) : List.Forall₂ SameEntry es fs :=
  List.forall₂_iff_zip.mpr ⟨hlen, fun hef => ⟨hkey _ _ hef, hvalue _ _ hef⟩⟩

variable [CanonicalForm]

/-- The two entries equal the same entries. -/
def EqualAlike (e f : JanetValue × JanetValue) : Prop := ∀ g : JanetValue × JanetValue,
  (equal e.1 g.1 = true ∧ equal e.2 g.2 = true) ↔ (equal f.1 g.1 = true ∧ equal f.2 g.2 = true)

/-- Dictionaries whose entries compare alike compare alike, in any order. -/
theorem dictEqual_same {gs : List (JanetValue × JanetValue)} (hperm : fs.Perm fs')
    (h : List.Forall₂ EqualAlike es fs) : DictEqual es gs ↔ DictEqual fs' gs := by
  unfold DictEqual
  rw [h.length_eq, hperm.length_eq]
  refine and_congr_right fun _ => ?_
  have hall : (∀ e ∈ es, ∃ g ∈ gs, equal e.1 g.1 = true ∧ equal e.2 g.2 = true) ↔
      ∀ f ∈ fs, ∃ g ∈ gs, equal f.1 g.1 = true ∧ equal f.2 g.2 = true :=
    Assoc.forall_forall₂ h fun e f hef => exists_congr fun g => and_congr_right fun _ => hef g
  rw [hall]
  exact forall_congr' fun f => by rw [hperm.mem_iff]

/-- Lists whose elements compare alike compare alike. -/
theorem forall₂_same {xs ys zs : List JanetValue}
    (h : List.Forall₂ (fun x y => ∀ z, equal x z = true ↔ equal y z = true) xs ys) :
    List.Forall₂ (fun x z => equal x z = true) xs zs ↔ List.Forall₂ (fun y z => equal y z = true) ys zs := by
  induction h generalizing zs with
  | nil => exact Iff.rfl
  | cons hxy _ ih => cases zs <;> simp [hxy _, ih]

/-- Values that are the same equal the same values. -/
theorem Same.equal_left (h : Same v w) (u : JanetValue) : equal v u = true ↔ equal w u = true := by
  induction v using partsInduction generalizing w u with
  | h v ih =>
    have elements : ∀ {xs ys : List JanetValue}, (∀ x ∈ xs, x ∈ v.parts) → List.Forall₂ Same xs ys →
        List.Forall₂ (fun x y => ∀ z, equal x z = true ↔ equal y z = true) xs ys := by
      intro xs ys hparts hxy
      induction hxy with
      | nil => exact .nil
      | @cons x y xs ys hxy _ ihs =>
        exact .cons (fun z => ih x (hparts x (by simp)) hxy z) (ihs fun x hx => hparts x (List.mem_cons_of_mem _ hx))
    have entries : ∀ {es fs : List (JanetValue × JanetValue)}, (∀ e ∈ es, e.1 ∈ v.parts ∧ e.2 ∈ v.parts) →
        List.Forall₂ SameEntry es fs → List.Forall₂ EqualAlike es fs := by
      intro es fs hparts hef
      induction hef with
      | nil => exact .nil
      | @cons e f es fs hef _ ihs =>
        obtain ⟨hkey, hvalue⟩ := hparts e (by simp)
        refine .cons (fun g => ?_) (ihs fun e he => hparts e (List.mem_cons_of_mem _ he))
        exact and_congr (ih e.1 hkey hef.1 g.1) (ih e.2 hvalue hef.2 g.2)
    cases h with
    | leaf => exact Iff.rfl
    | tuple h =>
      rw [equal_tuple, equal_tuple]
      exact exists_congr fun zs => and_congr_right fun _ => forall₂_same (elements (fun _ hx => hx) h)
    | array h =>
      rw [equal_array, equal_array]
      exact exists_congr fun zs => and_congr_right fun _ => forall₂_same (elements (fun _ hx => hx) h)
    | struct hlen hkey hvalue hperm =>
      rw [equal_struct, equal_struct]
      refine exists_congr fun gs => and_congr_right fun _ => dictEqual_same hperm (entries ?_ (sameEntries hlen hkey hvalue))
      exact fun e he => ⟨mem_keys he, mem_values he⟩
    | table hlen hkey hvalue hperm =>
      rw [equal_table, equal_table]
      refine exists_congr fun gs => and_congr_right fun _ => dictEqual_same hperm (entries ?_ (sameEntries hlen hkey hvalue))
      exact fun e he => ⟨mem_keys he, mem_values he⟩

/-- Values that are the same are equalled by the same values. -/
theorem Same.equal_right {u : JanetValue} (h : Same v w) (hu : Lawful u) (hv : Lawful v) (hw : Lawful w) :
    equal u v = true ↔ equal u w = true := by
  constructor
  · exact fun huv => equal_symm hw hu ((h.equal_left u).mp (equal_symm hu hv huv))
  · exact fun huw => equal_symm hv hu ((h.equal_left u).mpr (equal_symm hu hw huw))

/-- **Without a NaN inside, what is the same is equal.** -/
theorem Same.equal (h : Same v w) (hv : Lawful v) (hw : Lawful w) (hnan : NoNaN v) : equal v w = true :=
  (h.equal_right hv hv hw).mp (equal_refl hnan)

end Same

end SwiftJanet.JanetValue
