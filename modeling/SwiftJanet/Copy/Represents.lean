import Mathlib.Data.List.Perm.Basic
import SwiftJanet.Copy.Alike
import SwiftJanet.Copy.MakeRaw

/-!
# Raw values that represent Swift values

`Represents code heap lo v raw`: in the heap, `raw` spells out `v`. Every table on the way has an address from `lo`
on, which is how later changes of other tables are kept away from it (`Represents.frame`).

- `Represents.unfolds`: the unfolding of such a raw value is finite, intact, and equal to `v`;
- `Represents.unique`: the values that one raw value represents are equal.
-/

namespace SwiftJanet

open Lib JanetValue

/-! ## The relation -/

/-- The string object at `p` has these bytes. -/
def Heap.HasBytes (heap : Heap) (p : Nat) (bytes : List UInt8) : Prop :=
  0 < p ∧ p < heap.strings.next ∧ heap.strings.get p = bytes

/-- The raw values that represent a value that is no container. -/
inductive Heap.RepresentsLeaf (heap : Heap) : JanetValue → Janet → Prop
  | nil : RepresentsLeaf heap .nil janetWrapNil
  | boolean (b : Bool) : RepresentsLeaf heap (.boolean b) (janetWrapBoolean b)
  | number {d : Double} (h : d.isNaN = false) : RepresentsLeaf heap (.number d) (janetWrapNumber d)
  | string {t : Text} {p : Nat} (h : heap.HasBytes p t.utf8) : RepresentsLeaf heap (.string t) (janetWrapString p)
  | keyword {t : Text} {p : Nat} (h : heap.HasBytes p t.utf8) : RepresentsLeaf heap (.keyword t) (janetWrapKeyword p)
  | symbol {t : Text} {p : Nat} (h : heap.HasBytes p t.utf8) : RepresentsLeaf heap (.symbol t) (janetWrapSymbol p)

/-- The container is of the kind of the value. -/
def Container.isKindOf : Container → JanetValue → Bool
  | .tuple _, .tuple _ | .array _, .array _ | .struct _, .struct _ | .table _, .table _ => true
  | _, _ => false

/-- The word that points to the container. -/
def Container.word : Container → Janet
  | .tuple p => janetWrapTuple p
  | .array p => janetWrapArray p
  | .struct p => janetWrapStruct p
  | .table p => janetWrapTable p

/-- The container is an object of the heap, and no table below `lo`. -/
def Heap.Owns (heap : Heap) (lo : Nat) : Container → Prop
  | .tuple p => 0 < p ∧ p < heap.tuples.next
  | .array p => 0 < p ∧ p < heap.arrays.next
  | .struct p => 0 < p ∧ p < heap.structs.next
  | .table p => lo ≤ p ∧ 0 < p ∧ p < heap.tables.next

variable (code : DictionaryCode)

/-- The container has the children `raws`; a dictionary has its entries in any order. -/
def Heap.Spells (heap : Heap) : Container → List Janet → Prop
  | .tuple p, raws => (heap.tuples.get p).data = raws
  | .array p, raws => (heap.arrays.get p).data = some raws
  | .struct p, raws => ∃ kvs, raws = alternate kvs ∧ code.StructHolds (heap.structs.get p) kvs
  | .table p, raws =>
    ∃ kvs, raws = alternate kvs ∧ (heap.tables.get p).data.isSome ∧ (live (heap.tables.get p).cells).Perm kvs

/-- `raw` represents the value in the heap, with tables from `lo` on. -/
inductive Represents (heap : Heap) (lo : Nat) : JanetValue → Janet → Prop
  | leaf {v : JanetValue} {raw : Janet} (h : heap.RepresentsLeaf v raw) : Represents heap lo v raw
  | container {v : JanetValue} {c : Container} {raws : List Janet} (hk : c.isKindOf v = true) (ho : heap.Owns lo c)
      (hs : heap.Spells code c raws) (hlen : v.parts.length = raws.length)
      (h : ∀ p ∈ v.parts.zip raws, Represents heap lo p.1 p.2) : Represents heap lo v c.word

/-! ## Types -/

/-- The type of the raw values that represent the value. -/
def JanetValue.rawType : JanetValue → JanetType
  | .nil => .nil
  | .boolean _ => .boolean
  | .number _ => .number
  | .string _ => .string
  | .keyword _ => .keyword
  | .symbol _ => .symbol
  | .tuple _ => .tuple
  | .array _ => .array
  | .struct _ => .struct
  | .table _ => .table
  | .unsupported _ => .pointer

/-- The type says whether a value is a container. -/
theorem isLeaf_eq (v : JanetValue) :
    v.isLeaf = !(v.rawType == .tuple || v.rawType == .array || v.rawType == .struct || v.rawType == .table) := by
  cases v <;> rfl

theorem isLeaf_of_isKindOf {c : Container} {v : JanetValue} (h : c.isKindOf v = true) : v.isLeaf = false := by
  cases v with
  | tuple xs => rfl
  | array xs => rfl
  | struct es => rfl
  | table es => rfl
  | _ => cases c <;> cases h

theorem Heap.RepresentsLeaf.isLeaf {heap : Heap} {v : JanetValue} {raw : Janet} (h : heap.RepresentsLeaf v raw) :
    v.isLeaf = true := by
  cases h <;> rfl

theorem depth_of_isKindOf {c : Container} {v : JanetValue} (h : c.isKindOf v = true) : ∃ n, v.depth = n + 1 := by
  cases v with
  | tuple xs => exact ⟨_, rfl⟩
  | array xs => exact ⟨_, rfl⟩
  | struct es => exact ⟨_, rfl⟩
  | table es => exact ⟨_, rfl⟩
  | _ => cases c <;> cases h

theorem isAt_word {heap : Heap} {lo : Nat} {c : Container} (h : heap.Owns lo c) : c.IsAt c.word := by
  cases c with
  | tuple p => exact ⟨rfl, pointer_pos h.1⟩
  | array p => exact ⟨rfl, pointer_pos h.1⟩
  | struct p => exact ⟨rfl, pointer_pos h.1⟩
  | table p => exact ⟨rfl, pointer_pos h.2.1⟩

section Represents

variable {code} {heap heap' : Heap} {lo lo' p : Nat} {v w : JanetValue} {raw a b : Janet}

theorem Represents.type_eq (h : Represents code heap lo v raw) : janetType raw = v.rawType := by
  cases h with
  | leaf h =>
    cases h with
    | number h => exact janetType_number h
    | _ => rfl
  | @container v c raws hk _ _ _ _ => cases c <;> cases v <;> first | rfl | cases hk

/-- On a representation the two type macros agree. -/
theorem Represents.checktype_eq (h : Represents code heap lo v raw) (t : JanetType) :
    janetChecktype raw t = (janetType raw == t) := by
  cases h with
  | leaf h =>
    cases h with
    | number h =>
      rw [janetWrapNumber, janetType_number h, janetChecktype_number h]
      exact Bool.eq_iff_iff.mpr ⟨fun h => by rw [eq_of_beq h]; rfl, fun h => by rw [← eq_of_beq h]; rfl⟩
    | _ => exact janetChecktype_box _ _ _
  | @container v c raws _ _ _ _ _ => cases c <;> exact janetChecktype_box _ _ _

/-- Only nil is represented by a word that passes for nil. -/
theorem Represents.checktype_nil (h : Represents code heap lo v raw) (hv : v ≠ .nil) :
    janetChecktype raw .nil = false := by
  rw [h.checktype_eq, h.type_eq]
  cases v with
  | nil => exact absurd rfl hv
  | _ => rfl

/-- Pairs of a representation. -/
theorem forall₂_represents {vs : List JanetValue} {raws : List Janet} (hlen : vs.length = raws.length)
    (h : ∀ p ∈ vs.zip raws, Represents code heap lo p.1 p.2) : List.Forall₂ (Represents code heap lo) vs raws :=
  List.forall₂_iff_zip.mpr ⟨hlen, fun {x y} hxy => h (x, y) hxy⟩

/-! ## Frames -/

/-- The heap keeps everything it has, except perhaps the table at `p`. -/
structure Heap.Extends (p : Nat) (heap heap' : Heap) : Prop extends heap.Frozen heap' where
  arrays : heap.arrays.Extends 0 heap'.arrays
  tables : heap.tables.Extends p heap'.tables

theorem Heap.Frozen.trans {heap'' : Heap} (h : heap.Frozen heap') (h' : heap'.Frozen heap'') : heap.Frozen heap'' :=
  ⟨h.strings.trans h'.strings, h.tuples.trans h'.tuples, h.structs.trans h'.structs⟩

theorem Heap.Extends.refl : heap.Extends p heap := ⟨⟨.refl, .refl, .refl⟩, .refl, .refl⟩

theorem Heap.Extends.trans {heap'' : Heap} (h : heap.Extends p heap') (h' : heap'.Extends p heap'') :
    heap.Extends p heap'' :=
  ⟨h.toFrozen.trans h'.toFrozen, h.arrays.trans h'.arrays, h.tables.trans h'.tables⟩

theorem Heap.Extends.weaken (h : heap.Extends 0 heap') : heap.Extends p heap' :=
  ⟨h.toFrozen, h.arrays, h.tables.weaken⟩

theorem Heap.HasBytes.frame {bytes : List UInt8} (h : heap.HasBytes p bytes) (hf : heap.Frozen heap') :
    heap'.HasBytes p bytes :=
  ⟨h.1, Nat.lt_of_lt_of_le h.2.1 hf.strings.next_le, (hf.strings.get_eq p h.1 h.2.1 (Nat.ne_of_gt h.1)).trans h.2.2⟩

theorem Heap.Owns.frame {c : Container} (h : heap.Owns lo c) (hx : heap.Extends p heap') : heap'.Owns lo c := by
  cases c with
  | tuple q => exact ⟨h.1, Nat.lt_of_lt_of_le h.2 hx.tuples.next_le⟩
  | array q => exact ⟨h.1, Nat.lt_of_lt_of_le h.2 hx.arrays.next_le⟩
  | struct q => exact ⟨h.1, Nat.lt_of_lt_of_le h.2 hx.structs.next_le⟩
  | table q => exact ⟨h.1, h.2.1, Nat.lt_of_lt_of_le h.2.2 hx.tables.next_le⟩

/-- A container that is not the table at `p` keeps its children. -/
theorem Heap.Spells.frame {c : Container} {raws : List Janet} (h : heap.Spells code c raws) (ho : heap.Owns lo c)
    (hx : heap.Extends p heap') (hp : p < lo) : heap'.Spells code c raws := by
  cases c with
  | tuple q => rw [Heap.Spells, hx.tuples.get_eq q ho.1 ho.2 (Nat.ne_of_gt ho.1)]; exact h
  | array q => rw [Heap.Spells, hx.arrays.get_eq q ho.1 ho.2 (Nat.ne_of_gt ho.1)]; exact h
  | struct q => rw [Heap.Spells, hx.structs.get_eq q ho.1 ho.2 (Nat.ne_of_gt ho.1)]; exact h
  | table q =>
    have hlo : lo ≤ q := ho.1
    rw [Heap.Spells, hx.tables.get_eq q ho.2.1 ho.2.2 (by omega)]
    exact h

theorem Heap.RepresentsLeaf.frame (h : heap.RepresentsLeaf v raw) (hf : heap.Frozen heap') :
    heap'.RepresentsLeaf v raw := by
  cases h with
  | nil => exact .nil
  | boolean b => exact .boolean b
  | number h => exact .number h
  | string h => exact .string (h.frame hf)
  | keyword h => exact .keyword (h.frame hf)
  | symbol h => exact .symbol (h.frame hf)

/-- **Changes of a table below `lo` keep what is represented.** -/
theorem Represents.frame (h : Represents code heap lo v raw) (hx : heap.Extends p heap') (hp : p < lo) :
    Represents code heap' lo v raw := by
  induction h with
  | leaf h => exact .leaf (h.frame hx.toFrozen)
  | container hk ho hs hlen _ ih => exact .container hk (ho.frame hx) (hs.frame ho hx hp) hlen ih

theorem Represents.mono (h : Represents code heap lo v raw) (hlo : lo' ≤ lo) : Represents code heap lo' v raw := by
  induction h with
  | leaf h => exact .leaf h
  | @container v c raws hk ho hs hlen _ ih =>
    refine .container hk ?_ hs hlen ih
    cases c with
    | table q => exact ⟨Nat.le_trans hlo ho.1, ho.2⟩
    | _ => exact ho

/-! ## Children -/

theorem Heap.Spells.hasBlock {c : Container} {raws : List Janet} (h : heap.Spells code c raws) :
    heap.hasBlock c = true := by
  cases c with
  | tuple p => rfl
  | array p => exact Option.isSome_iff_exists.mpr ⟨raws, h⟩
  | struct p => rfl
  | table p => obtain ⟨_, _, hb, _⟩ := h; exact hb

/-- The children are visited in some order. -/
theorem Heap.Spells.children {c : Container} {raws : List Janet} (h : heap.Spells code c raws) :
    (heap.children c).Perm raws := by
  cases c with
  | tuple p => exact .of_eq h
  | array p => exact .of_eq (by rw [Heap.children, JanetArray.elements, show (heap.arrays.get p).data = some raws from h]; rfl)
  | struct p => obtain ⟨kvs, rfl, hs⟩ := h; exact hs.entries.flatMap_right _
  | table p => obtain ⟨kvs, rfl, _, hs⟩ := h; exact hs.flatMap_right _

/-! ## Unfoldings -/

section Unfolds

variable [CanonicalForm] {n m : Nat}

/-- `raw` unfolds within `n` levels, to a value equal to `v`, and meets no `NULL` block. -/
def Heap.Unfolds (heap : Heap) (n : Nat) (v : JanetValue) (raw : Janet) : Prop :=
  Within heap.view (Intact heap.view) n raw ∧ ∃ u, unfold heap.view n raw = some u ∧ equal u v = true

theorem Heap.Unfolds.mono (h : heap.Unfolds n v raw) (hnm : n ≤ m) : heap.Unfolds m v raw := by
  obtain ⟨hw, u, hu, huv⟩ := h
  exact ⟨hw.mono hnm, u, unfold_mono hu hnm, huv⟩

/-- The unfoldings of a list. -/
theorem collect_of_unfolds {vs : List JanetValue} {raws : List Janet} (h : List.Forall₂ (heap.Unfolds n) vs raws) :
    ∃ us, collect (unfold heap.view n) raws = some us ∧ List.Forall₂ (fun u v => equal u v = true) us vs := by
  induction h with
  | nil => exact ⟨[], rfl, .nil⟩
  | cons hv _ ih =>
    obtain ⟨_, u, hu, huv⟩ := hv
    obtain ⟨us, hus, husv⟩ := ih
    exact ⟨u :: us, by simp only [collect, hu, Option.bind_some, hus, Option.map_some], .cons huv husv⟩

/-- The entry `f` was copied from an entry that represents `e`. -/
def Copied (f e : JanetValue × JanetValue) : Prop :=
  (Lawful f.1 ∧ Lawful e.1) ∧ equal f.1 e.1 = true ∧ equal f.2 e.2 = true

/-- The unfoldings of keys and values in turn, paired up. -/
theorem pairUp_of_unfolds {es : List (JanetValue × JanetValue)} {kvs : List JanetKV}
    (h : List.Forall₂ (fun e kv => heap.Unfolds n e.1 kv.key ∧ heap.Unfolds n e.2 kv.value) es kvs)
    (hl : ∀ e ∈ es, Lawful e.1) :
    ∃ us, collect (unfold heap.view n) (alternate kvs) = some us ∧ List.Forall₂ Copied (pairUp us) es := by
  induction h with
  | nil => exact ⟨[], rfl, .nil⟩
  | @cons e kv es kvs hkv _ ih =>
    obtain ⟨⟨_, k, hk, hke⟩, _, x, hx, hxe⟩ := hkv
    obtain ⟨us, hus, husv⟩ := ih fun e he => hl e (List.mem_cons_of_mem _ he)
    refine ⟨k :: x :: us, ?_, .cons ⟨⟨lawful_unfold hk, hl e (by simp)⟩, hke, hxe⟩ husv⟩
    rw [alternate] at hus ⊢
    simp only [List.flatMap_cons, List.cons_append, List.nil_append, collect, hk, hx, Option.bind_some, hus,
      Option.map_some]

/-- In whatever order the entries are visited, the dictionary they make is the one that was put. -/
theorem dictEqual_of_unfolds {es : List (JanetValue × JanetValue)} {kvs cells : List JanetKV} (hp : cells.Perm kvs)
    (h : List.Forall₂ (fun e kv => heap.Unfolds n e.1 kv.key ∧ heap.Unfolds n e.2 kv.value) es kvs)
    (hl : ∀ e ∈ es, Lawful e.1) (hd : Assoc.Distinct equal es) :
    ∃ us, collect (unfold heap.view n) (alternate cells) = some us ∧ DictEqual (buildDictionary us) es := by
  obtain ⟨fs, hfs, hperm⟩ := List.perm_comp_forall₂ hp h.flip
  obtain ⟨us, hus, hpairs⟩ := pairUp_of_unfolds (List.Forall₂.flip hfs) fun f hf => hl f (hperm.mem_iff.mp hf)
  have hdist : Assoc.Distinct equal (pairUp us) := by
    refine (Assoc.pairwise_forall₂ hpairs fun f e f' e' hf hf' => ?_).mpr
      (Assoc.Distinct.perm equal_per hl hperm.symm hd)
    rw [equal_congr hf.1.1 hf.1.2 hf'.1.1 hf'.1.2 hf.2.1 hf'.2.1]
  refine ⟨us, hus, ?_⟩
  rw [buildDictionary, Assoc.ofEntries_distinct hdist]
  refine ⟨hpairs.length_eq.trans hperm.length_eq, fun f hf => ?_⟩
  obtain ⟨e, he, hfe⟩ := Assoc.partner_of_mem hpairs hf
  exact ⟨e, hperm.mem_iff.mp he, hfe.2⟩

/-- What a leaf represents is what copying reads there. -/
theorem Heap.RepresentsLeaf.view_eq (h : heap.RepresentsLeaf v raw) : heap.view raw = .leaf v := by
  cases h with
  | nil => rfl
  | boolean b => cases b <;> rfl
  | number h => simp only [Heap.view, janetWrapNumber, janetType_number h, janetUnwrapNumber]
  | @string t p h =>
    simp only [Heap.view, janetWrapString, janetType_box, janetUnwrapString, janetUnwrapPointer_box, pointer_pos h.1,
      behind, h.2.2, Text.decoding_utf8]
  | @keyword t p h =>
    simp only [Heap.view, janetWrapKeyword, janetType_box, janetUnwrapKeyword, janetUnwrapPointer_box, pointer_pos h.1,
      behind, h.2.2, Text.decoding_utf8]
  | @symbol t p h =>
    simp only [Heap.view, janetWrapSymbol, janetType_box, janetUnwrapSymbol, janetUnwrapPointer_box, pointer_pos h.1,
      behind, h.2.2, Text.decoding_utf8]

theorem Heap.RepresentsLeaf.equal_refl (h : heap.RepresentsLeaf v raw) : equal v v = true := by
  cases h with
  | nil => rfl
  | boolean b => simp [equal]
  | number h => exact Double.equal_refl h
  | string h => exact Text.equal_refl _
  | keyword h => exact Text.equal_refl _
  | symbol h => exact Text.equal_refl _

/-- The children of a container make an equal value. -/
theorem build_of_unfolds {c : Container} {raws : List Janet} (hk : c.isKindOf v = true)
    (hs : heap.Spells code c raws) (hv : Lawful v) (h : List.Forall₂ (heap.Unfolds n) v.parts raws) :
    ∃ us, collect (unfold heap.view n) (heap.children c) = some us ∧ equal (c.build us) v = true := by
  have hparts : ∀ w ∈ v.parts, Lawful w := fun w hw => hv.part hw
  cases c with
  | tuple p =>
    cases v with
    | tuple xs =>
      obtain ⟨us, hus, husv⟩ := collect_of_unfolds h
      exact ⟨us, by rw [Heap.children, show (heap.tuples.get p).data = raws from hs]; exact hus,
        equal_tuple.mpr ⟨xs, rfl, husv⟩⟩
    | _ => cases hk
  | array p =>
    cases v with
    | array xs =>
      obtain ⟨us, hus, husv⟩ := collect_of_unfolds h
      refine ⟨us, ?_, equal_array.mpr ⟨xs, rfl, husv⟩⟩
      rw [Heap.children, JanetArray.elements, show (heap.arrays.get p).data = some raws from hs]
      exact hus
    | _ => cases hk
  | struct p =>
    cases v with
    | struct es =>
      obtain ⟨kvs, rfl, hs⟩ := hs
      obtain ⟨us, hus, hdict⟩ := dictEqual_of_unfolds hs.entries (Assoc.forall₂_flatMap_pair.mp h)
        (fun e he => hparts _ (mem_keys he)) hv.here
      exact ⟨us, hus, equal_struct.mpr ⟨es, rfl, hdict⟩⟩
    | _ => cases hk
  | table p =>
    cases v with
    | table es =>
      obtain ⟨kvs, rfl, _, hs⟩ := hs
      obtain ⟨us, hus, hdict⟩ := dictEqual_of_unfolds hs (Assoc.forall₂_flatMap_pair.mp h)
        (fun e he => hparts _ (mem_keys he)) hv.here
      exact ⟨us, hus, equal_table.mpr ⟨es, rfl, hdict⟩⟩
    | _ => cases hk

/-- **A representation unfolds to the value, within its depth.** -/
theorem Represents.unfolds (h : Represents code heap lo v raw) (hv : Lawful v) : heap.Unfolds v.depth v raw := by
  induction h with
  | @leaf v raw h =>
    exact ⟨.leaf h.view_eq, v, unfold_leaf h.view_eq, h.equal_refl⟩
  | @container v c raws hk ho hs hlen _ ih =>
    obtain ⟨n, hn⟩ := depth_of_isKindOf hk
    rw [hn]
    have hall : List.Forall₂ (heap.Unfolds n) v.parts raws := by
      refine List.forall₂_iff_zip.mpr ⟨hlen, fun {w r} hwr => ?_⟩
      have hw : w ∈ v.parts := (List.of_mem_zip hwr).1
      exact (ih (w, r) hwr (hv.part hw)).mono (depth_parts (Nat.le_of_eq hn) w hw)
    have hview := view_of_isAt heap (isAt_word ho)
    obtain ⟨us, hus, hequal⟩ := build_of_unfolds hk hs hv hall
    refine ⟨.node hview ?_ fun w hw => ?_, c.build us, ?_, hequal⟩
    · intro id i kids build h
      rw [hview] at h
      injection h with _ h _ _
      rw [← h, hs.hasBlock]
    · obtain ⟨x, _, hx⟩ := Assoc.partner_of_mem hall.flip (hs.children.mem_iff.mp hw)
      exact hx.1
    · rw [unfold_node hview, hus]; rfl

/-- One raw value represents equal values only. -/
theorem Represents.unique (h : Represents code heap lo v raw) (h' : Represents code heap lo' w raw) (hv : Lawful v)
    (hw : Lawful w) : equal v w = true := by
  obtain ⟨_, u, hu, huv⟩ := (h.unfolds hv).mono (Nat.le_max_left v.depth w.depth)
  obtain ⟨_, u', hu', huw⟩ := (h'.unfolds hw).mono (Nat.le_max_right v.depth w.depth)
  rw [hu] at hu'
  obtain rfl := Option.some.inj hu'
  exact equal_trans (equal_symm (lawful_unfold hu) hv huv) huw

end Unfolds

end Represents

end SwiftJanet
