import SwiftJanet.Copy.Alike
import SwiftJanet.VM.Script

/-!
# Entries lost on the way out

A dictionary is copied by `result[key] = value`, so two keys whose copies are equal share one entry.
`copyOut_lossless_iff`: the copy has one entry for every live entry exactly when no two live keys are alike.
-/

namespace SwiftJanet

open Lib JanetValue

section Loss

variable [CanonicalForm] {heap : Heap} {raw : Janet} {c : Container}

/-- The Swift dictionary of a struct or a table. -/
def Container.wrap : Container → List (JanetValue × JanetValue) → JanetValue
  | .struct _, d => .struct d
  | _, d => .table d

/-- The dictionary has one entry for every entry on the list, with the copies of its key and its value. -/
def Heap.Lossless (heap : Heap) (entries : List (Janet × Janet)) (d : List (JanetValue × JanetValue)) : Prop :=
  List.Forall₂ (fun e f => copyOut heap e.1 = .returns f.1 ∧ copyOut heap e.2 = .returns f.2) entries d

/-- The copy of a dictionary puts the copies of its live entries one after the other. -/
theorem copyOut_dictionary {v : JanetValue} (hc : c.IsAt raw) (hd : c.isDictionary = true)
    (h : copyOut heap raw = .returns v) : ∃ es, v = c.wrap (Assoc.ofEntries equal es) ∧
      List.Forall₂ (fun e f => copyOut heap e.1 = .returns f.1 ∧ copyOut heap e.2 = .returns f.2) (heap.entries c) es ∧
      List.Forall₂ (fun e f => unfold heap.view (maxValueNestingDepth - 1) e.1 = some f.1 ∧
        unfold heap.view (maxValueNestingDepth - 1) e.2 = some f.2) (heap.entries c) es := by
  have hx := copyOut_explains heap raw
  rw [h] at hx
  obtain ⟨hu, hw⟩ := hx
  obtain ⟨rs, hrs, _, rfl⟩ := unfold_container (n := maxValueNestingDepth - 1) hc hu
  have hkids := ((within_node (n := maxValueNestingDepth - 1) (view_of_isAt heap hc)).mp hw).2
  have hcopies : List.Forall₂ (fun w r => copyOut heap w = .returns r) (heap.children c) rs := by
    refine List.Forall₂.imp ?_ ((List.forall₂_and_left _ _).mpr ⟨hkids, hrs⟩)
    exact fun w r ⟨hw, hr⟩ => copyOut_of_within hw (Nat.sub_le _ _) hr
  refine ⟨pairUp rs, ?_, ?_, ?_⟩
  · cases c with
    | struct p => rfl
    | table p => rfl
    | _ => cases hd
  · cases c with
    | struct p => exact forall₂_pairUp hcopies
    | table p => exact forall₂_pairUp hcopies
    | _ => cases hd
  · cases c with
    | struct p => exact forall₂_pairUp hrs
    | table p => exact forall₂_pairUp hrs
    | _ => cases hd

/-- **A copied dictionary has one entry for every live entry exactly when no two live keys are alike.** -/
theorem copyOut_lossless_iff {v : JanetValue} (hc : c.IsAt raw) (hd : c.isDictionary = true)
    (h : copyOut heap raw = .returns v) :
    (∃ d, v = c.wrap d ∧ heap.Lossless (heap.entries c) d) ↔
      (heap.entries c).Pairwise fun e f => heap.alike (maxValueNestingDepth - 1) e.1 f.1 = false := by
  obtain ⟨es, rfl, hcopies, hunfold⟩ := copyOut_dictionary hc hd h
  have hdistinct : (heap.entries c).Pairwise (fun e f => heap.alike (maxValueNestingDepth - 1) e.1 f.1 = false) ↔
      Assoc.Distinct equal es := by
    refine Assoc.pairwise_forall₂ hunfold fun e e' f f' he hf => ?_
    have := alike_iff _ _ _ _ _ he.1 hf.1
    rw [Bool.eq_false_iff, Bool.eq_false_iff, ne_eq, ne_eq, this]
  rw [hdistinct, ← Assoc.length_ofEntries_iff]
  constructor
  · rintro ⟨d, hd', hloss⟩
    have : Assoc.ofEntries equal es = d := by
      cases c with
      | struct p => exact JanetValue.struct.inj hd'
      | table p => exact JanetValue.table.inj hd'
      | _ => cases hd
    rw [this, ← hloss.length_eq, hcopies.length_eq]
  · intro hlen
    refine ⟨_, rfl, ?_⟩
    rw [Assoc.ofEntries_distinct (Assoc.length_ofEntries_iff.mp hlen)]
    exact hcopies

end Loss

/-! ## Two functions as keys -/

/-- Hashing and equality of numbers and pointers. -/
def pointerHashing : Hashing where
  hash
    | .number d => d.bits.setWidth 32
    | .box _ p => BitVec.ofNat 32 p
  equals x y := x == y
  compare _ _ := 0

/-- The numbers one and two. -/
def one : Janet := janetWrapNumber ⟨0x3FF0000000000000#64⟩
def two : Janet := janetWrapNumber ⟨0x4000000000000000#64⟩

/-- Functions, as the VM has them. -/
def someFunction (p : Nat) : Janet := .box .function p

/-- The heap of a script that makes a table. -/
def newTable : Heap := (Heap.empty.allocTable (janetTable 2#32)).1

/-- Put an entry into that table. -/
def putEntry (heap : Heap) (key value : Janet) : Heap :=
  let t := (janetTablePut pointerHashing (heap.tables.get 1) key value).getD (heap.tables.get 1)
  { heap with tables := heap.tables.set 1 t }

/-- The table with one function as a key. -/
def oneFunction : Heap := putEntry newTable (someFunction 1) one

/-- The table with two functions as keys. -/
def twoFunctions : Heap := putEntry oneFunction (someFunction 2) two

theorem reachable_putEntry {heap : Heap} {key value : Janet} (h : Reachable (fun _ => pointerHashing) heap)
    (hk : heap.Valid key) (hv : heap.Valid value) (ht : 1 < heap.tables.next)
    (hput : (janetTablePut pointerHashing (heap.tables.get 1) key value).isSome) :
    Reachable (fun _ => pointerHashing) (putEntry heap key value) := by
  obtain ⟨t, ht'⟩ := Option.isSome_iff_exists.mp hput
  refine @Reachable.step _ _ _ (.tablePut 1 key value) h ?_ ⟨Nat.one_pos, ht⟩ ?_
  · intro x hx
    simp only [Operation.args, List.mem_cons, List.not_mem_nil, or_false] at hx
    rcases hx with rfl | rfl
    · exact hk
    · exact hv
  · rw [Heap.step, putEntry, ht']
    rfl

theorem reachable_oneFunction : Reachable (fun _ => pointerHashing) oneFunction :=
  reachable_putEntry (@Reachable.step _ _ _ (.tableNew 2) .start (by simp [Operation.args]) trivial rfl)
    Nat.one_pos rfl (by decide) (by decide)

theorem reachable_twoFunctions : Reachable (fun _ => pointerHashing) twoFunctions :=
  reachable_putEntry reachable_oneFunction (Nat.succ_pos 1) rfl (by decide) (by decide)

/-- A function and a number as keys. -/
def functionAndNumber : Heap := putEntry oneFunction one two

/-- Two keys that are not alike are both kept. -/
theorem copyOut_lossless_functionAndNumber :
    (∃ d, JanetValue.table [(.number ⟨0x3FF0000000000000#64⟩, .number ⟨0x4000000000000000#64⟩),
          (.unsupported "function".toList, .number ⟨0x3FF0000000000000#64⟩)] =
        (Container.table 1).wrap d ∧
          @Heap.Lossless ⟨id⟩ functionAndNumber (functionAndNumber.entries (.table 1)) d) ↔
      (functionAndNumber.entries (.table 1)).Pairwise fun e f =>
        @Heap.alike ⟨id⟩ functionAndNumber (maxValueNestingDepth - 1) e.1 f.1 = false :=
  @copyOut_lossless_iff ⟨id⟩ functionAndNumber (janetWrapTable 1) (.table 1) _ ⟨rfl, rfl⟩ rfl rfl

/-- Of two functions as keys one entry is lost. -/
theorem copyOut_loses_twoFunctions :
    ¬∀ (heap : Heap) (raw : Janet) (c : Container) (v : JanetValue), Reachable (fun _ => pointerHashing) heap →
      heap.Valid raw → c.IsAt raw → c.isDictionary = true → @copyOut ⟨id⟩ heap raw = .returns v →
        ∃ d, v = c.wrap d ∧ @Heap.Lossless ⟨id⟩ heap (heap.entries c) d := by
  intro h
  obtain ⟨d, hd, hloss⟩ := h twoFunctions (janetWrapTable 1) (.table 1)
    (.table [(.unsupported "function".toList, .number ⟨0x4000000000000000#64⟩)]) reachable_twoFunctions
    ⟨by decide, by decide⟩ ⟨rfl, rfl⟩ rfl rfl
  obtain rfl := JanetValue.table.inj hd
  exact absurd hloss.length_eq (by decide)

end SwiftJanet
