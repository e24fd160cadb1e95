import SwiftJanet.Lib.Assoc
import SwiftJanet.Value.Scalar

/-!
# `JanetValue`

The Swift-owned copy of a Janet value. A Swift dictionary is the list of its entries in iteration order; its keys are
distinct under `==` (`Lawful`).

- `equal`: the synthesized `==`, with the dictionary comparison of Swift: equally many entries, and every entry of the
  left finds its key with an equal value on the right;
- `depth`: how deep containers nest; `parts`: the values one level down, with their induction (`partsInduction`);
- on lawful values `==` is symmetric and transitive (`equal_per`), and reflexive on those without a NaN
  (`equal_refl`).
-/

namespace SwiftJanet

open Lib

/-- A Janet value copied into Swift-owned storage. -/
inductive JanetValue where
  | nil
  | boolean (flag : Bool)
  | number (number : Double)
  | string (text : Text)
  | keyword (text : Text)
  | symbol (text : Text)
  | tuple (elements : List JanetValue)
  | array (elements : List JanetValue)
  | struct (entries : List (JanetValue × JanetValue))
  | table (entries : List (JanetValue × JanetValue))
  | unsupported (typeName : Text)

namespace JanetValue

/-! ## Parts and depth -/

/-- The values one level down: elements, or keys and values. -/
def parts : JanetValue → List JanetValue
  | tuple xs | array xs => xs
  | struct es | table es => es.flatMap fun e => [e.1, e.2]
  | _ => []

mutual
/-- How many containers nest, at most, along any way down. -/
def depth : JanetValue → Nat
  | tuple xs | array xs => depthList xs + 1
  | struct es | table es => depthEntries es + 1
  | _ => 0
def depthList : List JanetValue → Nat
  | [] => 0
  | x :: xs => max (depth x) (depthList xs)
def depthEntries : List (JanetValue × JanetValue) → Nat
  | [] => 0
  | (k, v) :: es => max (max (depth k) (depth v)) (depthEntries es)
end

/-- The value is not a container. -/
def isLeaf : JanetValue → Bool
  | tuple _ | array _ | struct _ | table _ => false
  | _ => true

theorem parts_leaf {v : JanetValue} (h : v.isLeaf = true) : v.parts = [] := by
  cases v <;> first | rfl | cases h

theorem depth_leaf {v : JanetValue} (h : v.isLeaf = true) : v.depth = 0 := by
  cases v <;> first | rfl | cases h

/-- The property `p` holds of the value and of everything below it. -/
inductive All (p : JanetValue → Prop) : JanetValue → Prop
  | intro {v : JanetValue} (h : p v) (hp : ∀ w ∈ v.parts, All p w) : All p v

theorem All.here {p : JanetValue → Prop} {v : JanetValue} (h : All p v) : p v := by
  cases h with
  | intro h _ => exact h

theorem All.part {p : JanetValue → Prop} {v w : JanetValue} (h : All p v) (hw : w ∈ v.parts) : All p w := by
  cases h with
  | intro _ hp => exact hp w hw

theorem sizeOf_parts {v w : JanetValue} (h : w ∈ v.parts) : sizeOf w < sizeOf v := by
  have entries : ∀ es : List (JanetValue × JanetValue), w ∈ es.flatMap (fun e => [e.1, e.2]) →
      sizeOf w < 1 + sizeOf es := by
    intro es hw
    obtain ⟨⟨k, x⟩, he, hw⟩ := List.mem_flatMap.mp hw
    have hlt := List.sizeOf_lt_of_mem he
    simp only [Prod.mk.sizeOf_spec] at hlt
    simp only [List.mem_cons, List.not_mem_nil, or_false] at hw
    rcases hw with rfl | rfl <;> omega
  cases v with
  | tuple xs =>
    have := List.sizeOf_lt_of_mem (show w ∈ xs from h)
    simp only [tuple.sizeOf_spec]; omega
  | array xs =>
    have := List.sizeOf_lt_of_mem (show w ∈ xs from h)
    simp only [array.sizeOf_spec]; omega
  | struct es => simpa using entries es h
  | table es => simpa using entries es h
  | _ => simp [parts] at h

/-- Induction over the parts of a value. -/
theorem partsInduction {motive : JanetValue → Prop} (h : ∀ v, (∀ w ∈ v.parts, motive w) → motive v) (v : JanetValue) :
    motive v :=
  h v fun w hw =>
    have := sizeOf_parts hw
    partsInduction h w
termination_by sizeOf v

theorem depthList_le {n : Nat} : ∀ (xs : List JanetValue), depthList xs ≤ n ↔ ∀ x ∈ xs, depth x ≤ n
  | [] => by simp [depthList]
  | x :: xs => by simp only [depthList, Nat.max_le, depthList_le xs, List.forall_mem_cons]

theorem depthEntries_le {n : Nat} : ∀ (es : List (JanetValue × JanetValue)),
    depthEntries es ≤ n ↔ ∀ w ∈ es.flatMap (fun e => [e.1, e.2]), depth w ≤ n
  | [] => by simp [depthEntries]
  | (k, v) :: es => by
    simp only [depthEntries, Nat.max_le, depthEntries_le es, List.flatMap_cons, List.cons_append,
      List.nil_append, List.forall_mem_cons, and_assoc]

/-- A value nests at most one container more than its parts. -/
theorem depth_le_of_parts {v : JanetValue} {n : Nat} (h : ∀ w ∈ v.parts, w.depth ≤ n) : v.depth ≤ n + 1 := by
  cases v with
  | tuple xs => exact Nat.succ_le_succ ((depthList_le _).mpr h)
  | array xs => exact Nat.succ_le_succ ((depthList_le _).mpr h)
  | struct es => exact Nat.succ_le_succ ((depthEntries_le _).mpr h)
  | table es => exact Nat.succ_le_succ ((depthEntries_le _).mpr h)
  | _ => exact Nat.zero_le _

/-- The parts nest one container less. -/
theorem depth_parts {v : JanetValue} {n : Nat} (h : v.depth ≤ n + 1) : ∀ w ∈ v.parts, w.depth ≤ n := by
  cases v with
  | tuple xs => exact (depthList_le _).mp (Nat.le_of_succ_le_succ h)
  | array xs => exact (depthList_le _).mp (Nat.le_of_succ_le_succ h)
  | struct es => exact (depthEntries_le _).mp (Nat.le_of_succ_le_succ h)
  | table es => exact (depthEntries_le _).mp (Nat.le_of_succ_le_succ h)
  | _ => simp [parts]

theorem mem_keys {es : List (JanetValue × JanetValue)} {e : JanetValue × JanetValue} (he : e ∈ es) :
    e.1 ∈ es.flatMap (fun e => [e.1, e.2]) := List.mem_flatMap.mpr ⟨e, he, by simp⟩

theorem mem_values {es : List (JanetValue × JanetValue)} {e : JanetValue × JanetValue} (he : e ∈ es) :
    e.2 ∈ es.flatMap (fun e => [e.1, e.2]) := List.mem_flatMap.mpr ⟨e, he, by simp⟩

/-! ## `==` -/

section Equal

variable [CanonicalForm]

mutual
/-- `==`, synthesized for the enum. -/
def equal : JanetValue → JanetValue → Bool
  | nil, nil => true
  | boolean a, boolean b => a == b
  | number a, number b => a.equal b
  | string a, string b => a.equal b
  | keyword a, keyword b => a.equal b
  | symbol a, symbol b => a.equal b
  | tuple xs, tuple ys => equalList xs ys
  | array xs, array ys => equalList xs ys
  | struct es, struct fs => es.length == fs.length && equalEntries es fs
  | table es, table fs => es.length == fs.length && equalEntries es fs
  | unsupported a, unsupported b => a.equal b
  | _, _ => false
def equalList : List JanetValue → List JanetValue → Bool
  | [], [] => true
  | x :: xs, y :: ys => equal x y && equalList xs ys
  | _, _ => false
/-- Every entry on the left finds its key on the right, with an equal value. -/
def equalEntries : List (JanetValue × JanetValue) → List (JanetValue × JanetValue) → Bool
  | [], _ => true
  | (k, v) :: es, fs => fs.any (fun f => equal k f.1 && equal v f.2) && equalEntries es fs
end

theorem equalList_iff : ∀ (xs ys : List JanetValue),
    equalList xs ys = true ↔ List.Forall₂ (fun x y => equal x y = true) xs ys
  | [], ys => by cases ys <;> simp [equalList]
  | x :: xs, ys => by cases ys <;> simp [equalList, equalList_iff xs]

theorem equalEntries_iff {fs : List (JanetValue × JanetValue)} : ∀ (es : List (JanetValue × JanetValue)),
    equalEntries es fs = true ↔ ∀ e ∈ es, ∃ f ∈ fs, equal e.1 f.1 = true ∧ equal e.2 f.2 = true
  | [] => by simp [equalEntries]
  | (k, v) :: es => by simp [equalEntries, equalEntries_iff es, List.any_eq_true]

/-- `==` on dictionaries. -/
def DictEqual (es fs : List (JanetValue × JanetValue)) : Prop :=
  es.length = fs.length ∧ ∀ e ∈ es, ∃ f ∈ fs, equal e.1 f.1 = true ∧ equal e.2 f.2 = true

section Shapes

variable {b : JanetValue}

attribute [local simp] equal

theorem equal_nil : equal nil b = true ↔ b = nil := by cases b <;> simp

theorem equal_boolean {x : Bool} : equal (boolean x) b = true ↔ b = boolean x := by
  cases b with
  | boolean y => simpa using eq_comm
  | _ => simp

theorem equal_number {x : Double} : equal (number x) b = true ↔ ∃ y, b = number y ∧ x.equal y = true := by
  cases b <;> simp

theorem equal_string {s : Text} : equal (string s) b = true ↔ ∃ t, b = string t ∧ s.equal t = true := by
  cases b <;> simp

theorem equal_keyword {s : Text} : equal (keyword s) b = true ↔ ∃ t, b = keyword t ∧ s.equal t = true := by
  cases b <;> simp

theorem equal_symbol {s : Text} : equal (symbol s) b = true ↔ ∃ t, b = symbol t ∧ s.equal t = true := by
  cases b <;> simp

theorem equal_unsupported {s : Text} :
    equal (unsupported s) b = true ↔ ∃ t, b = unsupported t ∧ s.equal t = true := by
  cases b <;> simp

theorem equal_tuple {xs : List JanetValue} :
    equal (tuple xs) b = true ↔ ∃ ys, b = tuple ys ∧ List.Forall₂ (fun x y => equal x y = true) xs ys := by
  cases b <;> simp [equalList_iff]

theorem equal_array {xs : List JanetValue} :
    equal (array xs) b = true ↔ ∃ ys, b = array ys ∧ List.Forall₂ (fun x y => equal x y = true) xs ys := by
  cases b <;> simp [equalList_iff]

theorem equal_struct {es : List (JanetValue × JanetValue)} :
    equal (struct es) b = true ↔ ∃ fs, b = struct fs ∧ DictEqual es fs := by
  cases b <;> simp [DictEqual, equalEntries_iff]

theorem equal_table {es : List (JanetValue × JanetValue)} :
    equal (table es) b = true ↔ ∃ fs, b = table fs ∧ DictEqual es fs := by
  cases b <;> simp [DictEqual, equalEntries_iff]

end Shapes

/-- The keys of a dictionary are distinct. -/
def DistinctKeys : JanetValue → Prop
  | struct es | table es => Assoc.Distinct equal es
  | _ => True

/-- The keys of every dictionary in the value are distinct. -/
def Lawful : JanetValue → Prop := All DistinctKeys

theorem lawful_leaf {v : JanetValue} (h : v.isLeaf = true) : Lawful v :=
  .intro (by cases v <;> trivial) (by simp [parts_leaf h])

/-- A number is no NaN. -/
def NotNaN : JanetValue → Prop
  | number d => d.isNaN = false
  | _ => True

/-- No number in the value is a NaN. -/
def NoNaN : JanetValue → Prop := All NotNaN

/-! ## `==` is symmetric and transitive -/

/-- On the value `a`, `==` is symmetric and transitive. -/
def PerAt (a : JanetValue) : Prop :=
  (∀ b, Lawful a → Lawful b → equal a b = true → equal b a = true) ∧
    ∀ b c, equal a b = true → equal b c = true → equal a c = true

theorem equalList_symm {xs ys : List JanetValue} (h : ∀ x ∈ xs, PerAt x) (hx : ∀ x ∈ xs, Lawful x)
    (hy : ∀ y ∈ ys, Lawful y) (hxy : List.Forall₂ (fun x y => equal x y = true) xs ys) :
    List.Forall₂ (fun x y => equal x y = true) ys xs := by
  induction hxy with
  | nil => exact .nil
  | cons hab _ ih =>
    exact .cons ((h _ (by simp)).1 _ (hx _ (by simp)) (hy _ (by simp)) hab)
      (ih (fun x hx => h x (List.mem_cons_of_mem _ hx)) (fun x hm => hx x (List.mem_cons_of_mem _ hm))
        fun y hm => hy y (List.mem_cons_of_mem _ hm))

theorem equalList_trans {xs ys zs : List JanetValue} (h : ∀ x ∈ xs, PerAt x)
    (hxy : List.Forall₂ (fun x y => equal x y = true) xs ys)
    (hyz : List.Forall₂ (fun x y => equal x y = true) ys zs) :
    List.Forall₂ (fun x y => equal x y = true) xs zs := by
  induction hxy generalizing zs with
  | nil => exact hyz
  | cons hab _ ih =>
    cases hyz with
    | cons hbc hrest =>
      exact .cons ((h _ (by simp)).2 _ _ hab hbc) (ih (fun x hx => h x (List.mem_cons_of_mem _ hx)) hrest)

theorem dictEqual_trans {es fs gs : List (JanetValue × JanetValue)}
    (h : ∀ x ∈ es.flatMap (fun e => [e.1, e.2]), PerAt x) (hef : DictEqual es fs) (hfg : DictEqual fs gs) :
    DictEqual es gs := by
  refine ⟨hef.1.trans hfg.1, fun e he => ?_⟩
  obtain ⟨f, hf, hk, hv⟩ := hef.2 e he
  obtain ⟨g, hg, hk', hv'⟩ := hfg.2 f hf
  exact ⟨g, hg, (h _ (mem_keys he)).2 _ _ hk hk', (h _ (mem_values he)).2 _ _ hv hv'⟩

/-- No two entries of a lawful dictionary have the same partner. -/
theorem unshared {es fs : List (JanetValue × JanetValue)} (h : ∀ x ∈ es.flatMap (fun e => [e.1, e.2]), PerAt x)
    (hes : Assoc.Distinct equal es) (hle : ∀ x ∈ es.flatMap (fun e => [e.1, e.2]), Lawful x)
    (hlf : ∀ x ∈ fs.flatMap (fun e => [e.1, e.2]), Lawful x) :
    es.Pairwise fun e e' => ∀ f ∈ fs, (equal e.1 f.1 = true ∧ equal e.2 f.2 = true) →
      ¬(equal e'.1 f.1 = true ∧ equal e'.2 f.2 = true) := by
  refine List.Pairwise.imp_of_mem ?_ hes
  rintro e e' he he' hne f hf ⟨hk, _⟩ ⟨hk', _⟩
  have hback := (h _ (mem_keys he')).1 _ (hle _ (mem_keys he')) (hlf _ (mem_keys hf)) hk'
  rw [(h _ (mem_keys he)).2 _ _ hk hback] at hne
  cases hne

/-- The entries on the right are found from the left too: there are equally many, and no two on the left share one. -/
theorem dictEqual_symm {es fs : List (JanetValue × JanetValue)}
    (h : ∀ x ∈ es.flatMap (fun e => [e.1, e.2]), PerAt x) (hes : Assoc.Distinct equal es)
    (hle : ∀ x ∈ es.flatMap (fun e => [e.1, e.2]), Lawful x)
    (hlf : ∀ x ∈ fs.flatMap (fun e => [e.1, e.2]), Lawful x) (hef : DictEqual es fs) : DictEqual fs es := by
  refine ⟨hef.1.symm, fun f hf => ?_⟩
  obtain ⟨e, he, hk, hv⟩ := Assoc.exists_left_of_exists_right hef.1 hef.2 (unshared h hes hle hlf) f hf
  exact ⟨e, he, (h _ (mem_keys he)).1 _ (hle _ (mem_keys he)) (hlf _ (mem_keys hf)) hk,
    (h _ (mem_values he)).1 _ (hle _ (mem_values he)) (hlf _ (mem_values hf)) hv⟩

theorem perAt (a : JanetValue) : PerAt a := by
  induction a using partsInduction with
  | h a ih =>
    constructor
    · intro b ha hb hab
      have hap : ∀ w ∈ a.parts, Lawful w := fun _ h => ha.part h
      have hbp : ∀ w ∈ b.parts, Lawful w := fun _ h => hb.part h
      cases a with
      | nil => obtain rfl := equal_nil.mp hab; exact hab
      | boolean x => obtain rfl := equal_boolean.mp hab; exact hab
      | number x =>
        obtain ⟨y, rfl, h⟩ := equal_number.mp hab
        exact equal_number.mpr ⟨x, rfl, Double.equal_symm h⟩
      | string s =>
        obtain ⟨t, rfl, h⟩ := equal_string.mp hab
        exact equal_string.mpr ⟨s, rfl, Text.equal_symm h⟩
      | keyword s =>
        obtain ⟨t, rfl, h⟩ := equal_keyword.mp hab
        exact equal_keyword.mpr ⟨s, rfl, Text.equal_symm h⟩
      | symbol s =>
        obtain ⟨t, rfl, h⟩ := equal_symbol.mp hab
        exact equal_symbol.mpr ⟨s, rfl, Text.equal_symm h⟩
      | unsupported s =>
        obtain ⟨t, rfl, h⟩ := equal_unsupported.mp hab
        exact equal_unsupported.mpr ⟨s, rfl, Text.equal_symm h⟩
      | tuple xs =>
        obtain ⟨ys, rfl, h⟩ := equal_tuple.mp hab
        exact equal_tuple.mpr ⟨xs, rfl, equalList_symm ih hap hbp h⟩
      | array xs =>
        obtain ⟨ys, rfl, h⟩ := equal_array.mp hab
        exact equal_array.mpr ⟨xs, rfl, equalList_symm ih hap hbp h⟩
      | struct es =>
        obtain ⟨fs, rfl, h⟩ := equal_struct.mp hab
        exact equal_struct.mpr ⟨es, rfl, dictEqual_symm ih ha.here hap hbp h⟩
      | table es =>
        obtain ⟨fs, rfl, h⟩ := equal_table.mp hab
        exact equal_table.mpr ⟨es, rfl, dictEqual_symm ih ha.here hap hbp h⟩
    · intro b c hab hbc
      cases a with
      | nil => obtain rfl := equal_nil.mp hab; exact hbc
      | boolean x => obtain rfl := equal_boolean.mp hab; exact hbc
      | number x =>
        obtain ⟨y, rfl, h⟩ := equal_number.mp hab
        obtain ⟨z, rfl, h'⟩ := equal_number.mp hbc
        exact equal_number.mpr ⟨z, rfl, Double.equal_trans h h'⟩
      | string s =>
        obtain ⟨t, rfl, h⟩ := equal_string.mp hab
        obtain ⟨u, rfl, h'⟩ := equal_string.mp hbc
        exact equal_string.mpr ⟨u, rfl, Text.equal_trans h h'⟩
      | keyword s =>
        obtain ⟨t, rfl, h⟩ := equal_keyword.mp hab
        obtain ⟨u, rfl, h'⟩ := equal_keyword.mp hbc
        exact equal_keyword.mpr ⟨u, rfl, Text.equal_trans h h'⟩
      | symbol s =>
        obtain ⟨t, rfl, h⟩ := equal_symbol.mp hab
        obtain ⟨u, rfl, h'⟩ := equal_symbol.mp hbc
        exact equal_symbol.mpr ⟨u, rfl, Text.equal_trans h h'⟩
      | unsupported s =>
        obtain ⟨t, rfl, h⟩ := equal_unsupported.mp hab
        obtain ⟨u, rfl, h'⟩ := equal_unsupported.mp hbc
        exact equal_unsupported.mpr ⟨u, rfl, Text.equal_trans h h'⟩
      | tuple xs =>
        obtain ⟨ys, rfl, h⟩ := equal_tuple.mp hab
        obtain ⟨zs, rfl, h'⟩ := equal_tuple.mp hbc
        exact equal_tuple.mpr ⟨zs, rfl, equalList_trans ih h h'⟩
      | array xs =>
        obtain ⟨ys, rfl, h⟩ := equal_array.mp hab
        obtain ⟨zs, rfl, h'⟩ := equal_array.mp hbc
        exact equal_array.mpr ⟨zs, rfl, equalList_trans ih h h'⟩
      | struct es =>
        obtain ⟨fs, rfl, h⟩ := equal_struct.mp hab
        obtain ⟨gs, rfl, h'⟩ := equal_struct.mp hbc
        exact equal_struct.mpr ⟨gs, rfl, dictEqual_trans ih h h'⟩
      | table es =>
        obtain ⟨fs, rfl, h⟩ := equal_table.mp hab
        obtain ⟨gs, rfl, h'⟩ := equal_table.mp hbc
        exact equal_table.mpr ⟨gs, rfl, dictEqual_trans ih h h'⟩

theorem equal_symm {a b : JanetValue} (ha : Lawful a) (hb : Lawful b) (h : equal a b = true) : equal b a = true :=
  (perAt a).1 b ha hb h

theorem equal_trans {a b c : JanetValue} (h₁ : equal a b = true) (h₂ : equal b c = true) : equal a c = true :=
  (perAt a).2 b c h₁ h₂

/-- **On lawful values `==` is symmetric and transitive.** -/
theorem equal_per : Assoc.Per equal Lawful := ⟨equal_symm, fun _ _ _ => equal_trans⟩

/-- Equal values compare alike. -/
theorem equal_congr {a a' b b' : JanetValue} (ha : Lawful a) (ha' : Lawful a') (hb : Lawful b) (hb' : Lawful b')
    (haa : equal a a' = true) (hbb : equal b b' = true) : equal a b = equal a' b' := by
  rw [Bool.eq_iff_iff]
  exact ⟨fun h => equal_trans (equal_symm ha ha' haa) (equal_trans h hbb),
    fun h => equal_trans haa (equal_trans h (equal_symm hb hb' hbb))⟩

/-- **Dictionaries are equal when the entries of either are found in the other.** -/
theorem dictEqual_iff {es fs : List (JanetValue × JanetValue)} (hes : Assoc.Distinct equal es)
    (hfs : Assoc.Distinct equal fs) (hle : ∀ x ∈ es.flatMap (fun e => [e.1, e.2]), Lawful x)
    (hlf : ∀ x ∈ fs.flatMap (fun e => [e.1, e.2]), Lawful x) :
    DictEqual es fs ↔ (∀ e ∈ es, ∃ f ∈ fs, equal e.1 f.1 = true ∧ equal e.2 f.2 = true) ∧
      ∀ f ∈ fs, ∃ e ∈ es, equal e.1 f.1 = true ∧ equal e.2 f.2 = true := by
  have hes' := unshared (fun x _ => perAt x) hes hle hlf
  constructor
  · exact fun h => ⟨h.2, Assoc.exists_left_of_exists_right h.1 h.2 hes'⟩
  · rintro ⟨hef, hfe⟩
    have hfs' : fs.Pairwise fun f f' => ∀ e ∈ es, (equal e.1 f.1 = true ∧ equal e.2 f.2 = true) →
        ¬(equal e.1 f'.1 = true ∧ equal e.2 f'.2 = true) := by
      refine List.Pairwise.imp_of_mem ?_ hfs
      rintro f f' hf hf' hne e he ⟨hk, _⟩ ⟨hk', _⟩
      rw [equal_trans (equal_symm (hle _ (mem_keys he)) (hlf _ (mem_keys hf)) hk) hk'] at hne
      cases hne
    exact ⟨Nat.le_antisymm (Assoc.length_le_of_partners hef hes') (Assoc.length_le_of_partners hfe hfs'), hef⟩

/-- Without a NaN a value equals itself. -/
theorem equal_refl {v : JanetValue} (h : NoNaN v) : equal v v = true := by
  induction v using partsInduction with
  | h v ih =>
    have hp : ∀ w ∈ v.parts, equal w w = true := fun w hw => ih w hw (h.part hw)
    have dict : ∀ es : List (JanetValue × JanetValue), (∀ w ∈ es.flatMap (fun e => [e.1, e.2]), equal w w = true) →
        DictEqual es es := fun es hes => ⟨rfl, fun e he => ⟨e, he, hes _ (mem_keys he), hes _ (mem_values he)⟩⟩
    cases v with
    | nil => rfl
    | boolean b => simp [equal]
    | number d => exact equal_number.mpr ⟨d, rfl, Double.equal_refl h.here⟩
    | string s => exact equal_string.mpr ⟨s, rfl, Text.equal_refl s⟩
    | keyword s => exact equal_keyword.mpr ⟨s, rfl, Text.equal_refl s⟩
    | symbol s => exact equal_symbol.mpr ⟨s, rfl, Text.equal_refl s⟩
    | unsupported s => exact equal_unsupported.mpr ⟨s, rfl, Text.equal_refl s⟩
    | tuple xs => exact equal_tuple.mpr ⟨xs, rfl, List.forall₂_same.mpr hp⟩
    | array xs => exact equal_array.mpr ⟨xs, rfl, List.forall₂_same.mpr hp⟩
    | struct es => exact equal_struct.mpr ⟨es, rfl, dict es hp⟩
    | table es => exact equal_table.mpr ⟨es, rfl, dict es hp⟩

end Equal

end JanetValue

end SwiftJanet
