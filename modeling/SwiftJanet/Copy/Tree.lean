import Mathlib.Data.List.Perm.Basic
import SwiftJanet.Copy.Loss
import SwiftJanet.Value.Same

/-!
# The tree behind a raw value

`heap.Tree raw v` says on the heap alone which Swift value `raw` spells out: a leaf is its copy, tuples and arrays list
their elements in order, structs and tables map the copies of their keys to the copies of their values.

`copyOut_tree`: when copying returns and the keys of each dictionary on the way copy to different values
(`Heap.KeysCopyApart`), the result is that tree and no other, and it depends on what the containers hold, not on where a
table keeps its entries: heaps that show the same (`Corresponds`) copy to the same value, and so do two tables that any
histories of puts and removals have left with the same entries.
-/

namespace SwiftJanet

open Lib JanetValue

section Copies

variable [CanonicalForm]

/-! ## Trees -/

/-- `raw` spells out the value. -/
inductive Heap.Tree (heap : Heap) : Janet → JanetValue → Prop
  | leaf {raw : Janet} {l : Leaf} (h : heap.leafAt raw = some l) : Tree heap raw l.copied
  | tuple {raw : Janet} {p : Nat} {xs : List JanetValue} (h : (Container.tuple p).IsAt raw)
      (hxs : List.Forall₂ (Tree heap) (heap.tuples.get p).data xs) : Tree heap raw (.tuple xs)
  | array {raw : Janet} {p : Nat} {xs : List JanetValue} (h : (Container.array p).IsAt raw)
      (hxs : List.Forall₂ (Tree heap) (heap.arrays.get p).elements xs) : Tree heap raw (.array xs)
  | struct {raw : Janet} {p : Nat} {es : List (JanetValue × JanetValue)} (h : (Container.struct p).IsAt raw)
      (hlen : (heap.entries (.struct p)).length = es.length)
      (hkey : ∀ e f, (e, f) ∈ (heap.entries (.struct p)).zip es → Tree heap e.1 f.1)
      (hvalue : ∀ e f, (e, f) ∈ (heap.entries (.struct p)).zip es → Tree heap e.2 f.2) : Tree heap raw (.struct es)
  | table {raw : Janet} {p : Nat} {es : List (JanetValue × JanetValue)} (h : (Container.table p).IsAt raw)
      (hlen : (heap.entries (.table p)).length = es.length)
      (hkey : ∀ e f, (e, f) ∈ (heap.entries (.table p)).zip es → Tree heap e.1 f.1)
      (hvalue : ∀ e f, (e, f) ∈ (heap.entries (.table p)).zip es → Tree heap e.2 f.2) : Tree heap raw (.table es)

/-- The keys of each dictionary below `raw` copy to different values. -/
def Heap.KeysCopyApart (heap : Heap) (raw : Janet) : Prop :=
  ∀ k u (c : Container), Reach heap.view k raw u → c.IsAt u → (heap.entries c).Pairwise fun e f =>
    ∀ x y, copyOut heap e.1 = .returns x → copyOut heap f.1 = .returns y → equal x y = false

/-! ## What copying reads -/

/-- `raw` is intact down to `n` nested containers, and `v` is its unfolding. -/
def Heap.Expands (heap : Heap) (n : Nat) (raw : Janet) (v : JanetValue) : Prop :=
  Within heap.view (Intact heap.view) n raw ∧ unfold heap.view n raw = some v

/-- The entry `e` expands to the entry `f`. -/
def Heap.ExpandsEntry (heap : Heap) (n : Nat) (e : Janet × Janet) (f : JanetValue × JanetValue) : Prop :=
  heap.Expands n e.1 f.1 ∧ heap.Expands n e.2 f.2

section Expands

variable {heap : Heap} {raw : Janet} {v : JanetValue} {n : Nat} {c : Container} {l : Leaf} {rs : List JanetValue}

/-- Copying returns what the raw value expands to. -/
theorem copyOut_iff_expands : copyOut heap raw = .returns v ↔ heap.Expands maxValueNestingDepth raw v := by
  constructor
  · intro h
    have hx := copyOut_explains heap raw
    rw [h] at hx
    exact ⟨hx.2, hx.1⟩
  · exact fun h => copyOut_of_within h.1 (Nat.le_refl _) h.2

theorem Heap.Expands.copyOut (h : heap.Expands n raw v) (hn : n ≤ maxValueNestingDepth) :
    copyOut heap raw = .returns v :=
  copyOut_of_within h.1 hn h.2

/-- The view of a leaf in the heap is its copy. -/
theorem view_of_leafAt (h : heap.leafAt raw = some l) : heap.view raw = .leaf l.copied := by
  have name : ∀ {p : Option Nat} {f : Nat → Leaf}, p.map f = some l →
      behind p (fun q => .leaf (f q).copied) = .leaf l.copied := by
    intro p f hp
    obtain ⟨q, rfl, rfl⟩ := Option.map_eq_some_iff.mp hp
    rfl
  rw [Heap.leafAt] at h
  rw [Heap.view]
  cases ht : janetType raw with
  | string => rw [ht] at h; exact name (f := fun p => .string (heap.strings.get p)) h
  | keyword => rw [ht] at h; exact name (f := fun p => .keyword (heap.strings.get p)) h
  | symbol => rw [ht] at h; exact name (f := fun p => .symbol (heap.strings.get p)) h
  | tuple => rw [ht] at h; cases h
  | array => rw [ht] at h; cases h
  | struct => rw [ht] at h; cases h
  | table => rw [ht] at h; cases h
  | _ => rw [ht] at h; cases h; rfl

/-- A leaf expands to its copy. -/
theorem expands_leaf (h : heap.leafAt raw = some l) : heap.Expands n raw l.copied :=
  ⟨.leaf (view_of_leafAt h), unfold_leaf (view_of_leafAt h)⟩

/-- What expands is a leaf or points to a container. -/
theorem Heap.Expands.cases (h : heap.Expands n raw v) :
    (∃ l, heap.leafAt raw = some l ∧ v = l.copied) ∨ ∃ m c, n = m + 1 ∧ Container.IsAt c raw := by
  obtain ⟨hw, hu⟩ := h
  cases hv : heap.view raw with
  | leaf r =>
    rw [unfold_leaf hv] at hu
    obtain rfl := Option.some.inj hu
    exact Or.inl (leafAt_of_view hv)
  | null => exact absurd hw (not_within_null hv)
  | node id i kids build =>
    obtain ⟨c, hc, -, -, -, -⟩ := view_eq_node hv
    cases n with
    | zero => exact absurd hw (not_within_zero hv)
    | succ m => exact Or.inr ⟨m, c, rfl, hc⟩

/-- A container that expands has its block, and is built from what its children expand to. -/
theorem Heap.Expands.container (hc : c.IsAt raw) (h : heap.Expands (n + 1) raw v) :
    heap.hasBlock c = true ∧ ∃ rs, List.Forall₂ (heap.Expands n) (heap.children c) rs ∧ v = c.build rs := by
  obtain ⟨hw, hu⟩ := h
  have hview := view_of_isAt heap hc
  obtain ⟨hintact, hkids⟩ := (within_node hview).mp hw
  obtain ⟨rs, hrs, -, rfl⟩ := unfold_container hc hu
  exact ⟨hintact _ _ _ _ hview, rs, (List.forall₂_and_left _ _).mpr ⟨hkids, hrs⟩, rfl⟩

/-- A container with its block expands to what its children build. -/
theorem expands_container (hc : c.IsAt raw) (hb : heap.hasBlock c = true)
    (h : List.Forall₂ (heap.Expands n) (heap.children c) rs) : heap.Expands (n + 1) raw (c.build rs) := by
  have hview := view_of_isAt heap hc
  obtain ⟨hkids, hrs⟩ := (List.forall₂_and_left _ _).mp h
  refine ⟨(within_node hview).mpr ⟨fun id i kids build hv => ?_, hkids⟩, ?_⟩
  · rw [hview] at hv
    injection hv with _ hi
    exact hi ▸ hb
  · rw [unfold_node hview, (collect_eq_some _ _).mpr hrs]
    rfl

/-- The children of a dictionary are its keys and values in turn. -/
theorem expands_entries (hd : c.isDictionary = true) (h : List.Forall₂ (heap.Expands n) (heap.children c) rs) :
    List.Forall₂ (heap.ExpandsEntry n) (heap.entries c) (pairUp rs) := by
  cases c with
  | struct p => exact forall₂_pairUp h
  | table p => exact forall₂_pairUp h
  | _ => cases hd

omit [CanonicalForm] in
theorem pairUp_flatMap : ∀ es : List (JanetValue × JanetValue), pairUp (es.flatMap fun e => [e.1, e.2]) = es
  | [] => rfl
  | e :: es => by
    simp only [List.flatMap_cons, List.cons_append, List.nil_append, pairUp]
    rw [pairUp_flatMap es]

/-- What the entries expand to, the children expand to in turn. -/
theorem expands_children {es : List (JanetValue × JanetValue)} (hd : c.isDictionary = true)
    (h : List.Forall₂ (heap.ExpandsEntry n) (heap.entries c) es) :
    List.Forall₂ (heap.Expands n) (heap.children c) (es.flatMap fun e => [e.1, e.2]) := by
  have turn : ∀ {kvs : List JanetKV} {es : List (JanetValue × JanetValue)},
      List.Forall₂ (heap.ExpandsEntry n) (kvs.map fun kv => (kv.key, kv.value)) es →
        List.Forall₂ (heap.Expands n) (alternate kvs) (es.flatMap fun e => [e.1, e.2]) := by
    intro kvs es h
    exact Assoc.forall₂_flatMap_pair.mpr (List.forall₂_map_left_iff.mp h)
  cases c with
  | struct p => exact turn h
  | table p => exact turn h
  | _ => cases hd

end Expands

/-! ## The copy is the tree -/

section Tree

variable {heap : Heap} {raw : Janet} {w : JanetValue} {n : Nat} {c : Container}

omit [CanonicalForm] in
theorem mem_entries {e : Janet × Janet} (he : e ∈ heap.entries c) :
    e.1 ∈ heap.children c ∧ e.2 ∈ heap.children c := by
  have turn : ∀ {kvs : List JanetKV}, e ∈ kvs.map (fun kv => (kv.key, kv.value)) →
      e.1 ∈ alternate kvs ∧ e.2 ∈ alternate kvs := by
    intro kvs he
    obtain ⟨kv, hkv, rfl⟩ := List.mem_map.mp he
    exact ⟨List.mem_flatMap.mpr ⟨kv, hkv, by simp⟩, List.mem_flatMap.mpr ⟨kv, hkv, by simp⟩⟩
  cases c with
  | struct p => exact turn he
  | table p => exact turn he
  | _ => cases he

theorem Heap.KeysCopyApart.kid {x : Janet} (h : heap.KeysCopyApart raw) (hc : c.IsAt raw) (hx : x ∈ heap.children c) :
    heap.KeysCopyApart x :=
  fun k u d hr hd => h (k + 1) u d (.down ((kid_node (view_of_isAt heap hc)).mpr hx) hr) hd

/-- The entries of a dictionary whose keys are apart expand to entries with distinct keys. -/
theorem Heap.KeysCopyApart.distinct {es : List (JanetValue × JanetValue)} (h : heap.KeysCopyApart raw) (hc : c.IsAt raw)
    (hn : n ≤ maxValueNestingDepth) (hes : List.Forall₂ (heap.ExpandsEntry n) (heap.entries c) es) :
    Assoc.Distinct equal es := by
  refine Assoc.pairwise_of_forall₂ hes ?_ (h 0 raw c .here hc)
  intro e x f y he hf hapart
  exact hapart _ _ (he.1.copyOut hn) (hf.1.copyOut hn)

/-- A dictionary whose keys are apart expands to all of its entries, in order. -/
theorem Heap.Expands.dictionary {v : JanetValue} (hc : c.IsAt raw) (hd : c.isDictionary = true)
    (hn : n ≤ maxValueNestingDepth) (hk : heap.KeysCopyApart raw) (h : heap.Expands (n + 1) raw v) :
    ∃ es, List.Forall₂ (heap.ExpandsEntry n) (heap.entries c) es ∧ Assoc.Distinct equal es ∧ v = c.wrap es := by
  obtain ⟨-, rs, hrs, rfl⟩ := h.container hc
  have hes := expands_entries hd hrs
  have hdistinct := hk.distinct hc hn hes
  refine ⟨pairUp rs, hes, hdistinct, ?_⟩
  cases c with
  | struct p => exact congrArg JanetValue.struct (Assoc.ofEntries_distinct hdistinct)
  | table p => exact congrArg JanetValue.table (Assoc.ofEntries_distinct hdistinct)
  | _ => cases hd

/-- A dictionary whose entries expand to entries with distinct keys expands to these. -/
theorem expands_dictionary {es : List (JanetValue × JanetValue)} (hc : c.IsAt raw) (hd : c.isDictionary = true)
    (hb : heap.hasBlock c = true) (hes : List.Forall₂ (heap.ExpandsEntry n) (heap.entries c) es)
    (hdistinct : Assoc.Distinct equal es) : heap.Expands (n + 1) raw (c.wrap es) := by
  have hbuild : c.build (es.flatMap fun e => [e.1, e.2]) = c.wrap es := by
    have hall : buildDictionary (es.flatMap fun e => [e.1, e.2]) = es := by
      rw [buildDictionary, pairUp_flatMap, Assoc.ofEntries_distinct hdistinct]
    cases c with
    | struct p => exact congrArg JanetValue.struct hall
    | table p => exact congrArg JanetValue.table hall
    | _ => cases hd
  rw [← hbuild]
  exact expands_container hc hb (expands_children hd hes)

/-- The entry `e` spells out the entry `f`. -/
def Heap.TreeEntry (heap : Heap) (e : Janet × Janet) (f : JanetValue × JanetValue) : Prop :=
  heap.Tree e.1 f.1 ∧ heap.Tree e.2 f.2

omit [CanonicalForm] in
theorem leafAt_ne {l : Leaf} (hc : c.IsAt raw) : heap.leafAt raw ≠ some l := by
  rw [(pointedAt_of_isAt heap hc).1]
  simp

/-- The tree of a tuple or an array lists the trees of its elements. -/
theorem tree_elements (hc : c.IsAt raw) (hd : c.isDictionary = false) :
    heap.Tree raw w ↔ ∃ xs, List.Forall₂ heap.Tree (heap.children c) xs ∧ w = c.build xs := by
  constructor
  · intro h
    cases h with
    | leaf hl => exact absurd hl (leafAt_ne hc)
    | tuple h hxs =>
      obtain rfl := isAt_unique hc h
      exact ⟨_, hxs, rfl⟩
    | array h hxs =>
      obtain rfl := isAt_unique hc h
      exact ⟨_, hxs, rfl⟩
    | struct h =>
      obtain rfl := isAt_unique hc h
      cases hd
    | table h =>
      obtain rfl := isAt_unique hc h
      cases hd
  · rintro ⟨xs, hxs, rfl⟩
    cases c with
    | tuple p => exact .tuple hc hxs
    | array p => exact .array hc hxs
    | _ => cases hd

omit [CanonicalForm] in
/-- The tree of a dictionary lists the trees of its entries. -/
theorem tree_dictionary (hc : c.IsAt raw) (hd : c.isDictionary = true) :
    heap.Tree raw w ↔ ∃ es, List.Forall₂ heap.TreeEntry (heap.entries c) es ∧ w = c.wrap es := by
  constructor
  · intro h
    cases h with
    | leaf hl => exact absurd hl (leafAt_ne hc)
    | tuple h =>
      obtain rfl := isAt_unique hc h
      cases hd
    | array h =>
      obtain rfl := isAt_unique hc h
      cases hd
    | struct h hlen hkey hvalue =>
      obtain rfl := isAt_unique hc h
      exact ⟨_, List.forall₂_iff_zip.mpr ⟨hlen, fun hef => ⟨hkey _ _ hef, hvalue _ _ hef⟩⟩, rfl⟩
    | table h hlen hkey hvalue =>
      obtain rfl := isAt_unique hc h
      exact ⟨_, List.forall₂_iff_zip.mpr ⟨hlen, fun hef => ⟨hkey _ _ hef, hvalue _ _ hef⟩⟩, rfl⟩
  · rintro ⟨es, hes, rfl⟩
    obtain ⟨hlen, htree⟩ := List.forall₂_iff_zip.mp hes
    cases c with
    | struct p => exact .struct hc hlen (fun _ _ hef => (htree hef).1) fun _ _ hef => (htree hef).2
    | table p => exact .table hc hlen (fun _ _ hef => (htree hef).1) fun _ _ hef => (htree hef).2
    | _ => cases hd

/-- **What a raw value expands to is its tree, and no other.** -/
theorem tree_iff : ∀ {n : Nat} {raw : Janet} {v : JanetValue}, n ≤ maxValueNestingDepth → heap.KeysCopyApart raw →
    heap.Expands n raw v → ∀ w, heap.Tree raw w ↔ w = v
  | n, raw, v, hn, hk, h, w => by
    rcases h.cases with ⟨l, hl, rfl⟩ | ⟨m, c, rfl, hc⟩
    · constructor
      · intro ht
        cases ht with
        | leaf hl' => rw [Option.some.inj (hl'.symm.trans hl)]
        | tuple h => exact absurd hl (leafAt_ne h)
        | array h => exact absurd hl (leafAt_ne h)
        | struct h => exact absurd hl (leafAt_ne h)
        | table h => exact absurd hl (leafAt_ne h)
      · rintro rfl
        exact .leaf hl
    · have ih : ∀ x ∈ heap.children c, ∀ r, heap.Expands m x r → ∀ w, heap.Tree x w ↔ w = r :=
        fun x hx r hr => tree_iff (Nat.le_of_succ_le hn) (hk.kid hc hx) hr
      cases hd : c.isDictionary with
      | false =>
        obtain ⟨-, rs, hrs, rfl⟩ := h.container hc
        rw [tree_elements hc hd]
        constructor
        · rintro ⟨xs, hxs, rfl⟩
          rw [(Assoc.forall₂_only hrs ih).mp hxs]
        · rintro rfl
          exact ⟨rs, (Assoc.forall₂_only hrs ih).mpr rfl, rfl⟩
      | true =>
        obtain ⟨es, hes, -, rfl⟩ := h.dictionary hc hd (Nat.le_of_succ_le hn) hk
        have hentries : ∀ e ∈ heap.entries c, ∀ f, heap.ExpandsEntry m e f → ∀ g, heap.TreeEntry e g ↔ g = f := by
          intro e he f hf g
          obtain ⟨hkey, hvalue⟩ := mem_entries he
          rw [Heap.TreeEntry, ih e.1 hkey f.1 hf.1, ih e.2 hvalue f.2 hf.2, Prod.ext_iff]
        rw [tree_dictionary hc hd]
        constructor
        · rintro ⟨fs, hfs, rfl⟩
          rw [(Assoc.forall₂_only hes hentries).mp hfs]
        · rintro rfl
          exact ⟨es, (Assoc.forall₂_only hes hentries).mpr rfl, rfl⟩

end Tree

/-! ## Heaps that show the same -/

/-- The relation follows two heaps: leaves are the same, tuples and arrays have related elements, and dictionaries have
related entries in any order. -/
def Corresponds (R : Janet → Janet → Prop) (heap heap' : Heap) : Prop := ∀ a b, R a b →
  (∃ l, heap.leafAt a = some l ∧ heap'.leafAt b = some l) ∨
    ∃ c d : Container, c.IsAt a ∧ d.IsAt b ∧ c.sameKind d = true ∧ (heap.hasBlock c = true → heap'.hasBlock d = true) ∧
      (c.isDictionary = false → List.Forall₂ R (heap.children c) (heap'.children d)) ∧
      (c.isDictionary = true → ∃ es, List.Forall₂ (fun e f => R e.1 f.1 ∧ R e.2 f.2) (heap.entries c) es ∧
        es.Perm (heap'.entries d))

section Corresponds

variable {R : Janet → Janet → Prop} {heap heap' : Heap} {n : Nat}

omit [CanonicalForm] in
theorem isDictionary_sameKind {c d : Container} (h : c.sameKind d = true) : d.isDictionary = c.isDictionary := by
  cases c <;> cases d <;> first | rfl | cases h

/-- Entries with distinct keys are the same as entries with distinct keys. -/
theorem distinct_same {es fs : List (JanetValue × JanetValue)} (h : List.Forall₂ SameEntry es fs)
    (hes : ∀ e ∈ es, Lawful e.1) (hfs : ∀ f ∈ fs, Lawful f.1) (hd : Assoc.Distinct equal es) :
    Assoc.Distinct equal fs := by
  have hlawful : List.Forall₂ (fun e f => SameEntry e f ∧ Lawful e.1 ∧ Lawful f.1) es fs := by
    obtain ⟨hlen, hsame⟩ := List.forall₂_iff_zip.mp h
    refine List.forall₂_iff_zip.mpr ⟨hlen, fun {e f} hef => ⟨hsame hef, ?_, ?_⟩⟩
    · exact hes e (List.of_mem_zip hef).1
    · exact hfs f (List.of_mem_zip hef).2
  refine Assoc.pairwise_of_forall₂ hlawful ?_ hd
  rintro e f e' f' ⟨hef, he, hf⟩ ⟨hef', he', hf'⟩ hne
  rw [Bool.eq_false_iff] at hne ⊢
  exact fun htrue => hne ((hef.1.equal_left e'.1).mpr ((hef'.1.equal_right hf he' hf').mpr htrue))

/-- **What corresponds expands to the same value.** -/
theorem Corresponds.expands (hR : Corresponds R heap heap') : ∀ {n : Nat} {a b : Janet} {v : JanetValue},
    n ≤ maxValueNestingDepth → heap.KeysCopyApart a → R a b → heap.Expands n a v → ∃ w, heap'.Expands n b w ∧ Same v w
  | n, a, b, v, hn, hk, hab, h => by
    rcases hR a b hab with ⟨l, ha, hb⟩ | ⟨c, d, hc, hd, hkind, hblock, helements, hentries⟩
    · -- a leaf
      rcases h.cases with ⟨l', hl', rfl⟩ | ⟨_, c, _, hc⟩
      · obtain rfl := Option.some.inj (hl'.symm.trans ha)
        exact ⟨l'.copied, expands_leaf hb, .leaf (isLeaf_view (view_of_leafAt hb))⟩
      · exact absurd ha (leafAt_ne hc)
    · rcases h.cases with ⟨l, hl, _⟩ | ⟨m, _, rfl, _⟩
      · exact absurd hl (leafAt_ne hc)
      have hm : m ≤ maxValueNestingDepth := Nat.le_of_succ_le hn
      have ih : ∀ x ∈ heap.children c, ∀ y r, R x y → heap.Expands m x r → ∃ w, heap'.Expands m y w ∧ Same r w :=
        fun x hx y r hxy hr => hR.expands hm (hk.kid hc hx) hxy hr
      cases hdict : c.isDictionary with
      | false =>
        obtain ⟨hb, rs, hrs, rfl⟩ := h.container hc
        obtain ⟨ws, hws, hsame⟩ := Assoc.forall₂_results (helements hdict) hrs ih
        refine ⟨d.build ws, expands_container hd (hblock hb) hws, ?_⟩
        cases c with
        | tuple p =>
          cases d with
          | tuple q => exact .tuple hsame
          | _ => cases hkind
        | array p =>
          cases d with
          | array q => exact .array hsame
          | _ => cases hkind
        | _ => cases hdict
      | true =>
        have hdict' : d.isDictionary = true := (isDictionary_sameKind hkind).trans hdict
        obtain ⟨es, hes, hdistinct, rfl⟩ := h.dictionary hc hdict hm hk
        obtain ⟨hb, -⟩ := h.container hc
        obtain ⟨fs, hef, hperm⟩ := hentries hdict
        obtain ⟨gs, hgs, hsame⟩ := Assoc.forall₂_results hef hes (T := heap'.ExpandsEntry m) (U := SameEntry) (by
          rintro e he f g ⟨hkey, hvalue⟩ ⟨hkey', hvalue'⟩
          obtain ⟨k, hk, hgk⟩ := ih e.1 (mem_entries he).1 f.1 g.1 hkey hkey'
          obtain ⟨x, hx, hgx⟩ := ih e.2 (mem_entries he).2 f.2 g.2 hvalue hvalue'
          exact ⟨(k, x), ⟨hk, hx⟩, hgk, hgx⟩)
        -- the entries as the other dictionary lists them
        obtain ⟨gs', hgs', hperm'⟩ := List.perm_comp_forall₂ hperm.symm hgs
        have lawful : ∀ {heap : Heap} {es : List (Janet × Janet)} {gs : List (JanetValue × JanetValue)},
            List.Forall₂ (heap.ExpandsEntry m) es gs → ∀ g ∈ gs, Lawful g.1 := by
          intro heap es gs h g hg
          obtain ⟨e, -, he⟩ := Assoc.partner_of_mem h.flip hg
          exact lawful_unfold he.1.2
        have hdistinct' : Assoc.Distinct equal gs' :=
          (distinct_same hsame (lawful hes) (lawful hgs) hdistinct).perm equal_per (lawful hgs) hperm'.symm
        refine ⟨d.wrap gs', expands_dictionary hd hdict' (hblock hb) hgs' hdistinct', ?_⟩
        cases c with
        | struct p =>
          cases d with
          | struct q => exact .struct_of hsame hperm'.symm
          | _ => cases hkind
        | table p =>
          cases d with
          | table q => exact .table_of hsame hperm'.symm
          | _ => cases hkind
        | _ => cases hdict

end Corresponds

/-! ## Histories of a table -/

/-- The tables that puts and removals make out of a new one. -/
inductive JanetTable.MadeBy (hashing : Hashing) : JanetTable → Prop
  | new {capacity : BitVec 32} (h : capacity.slt 0#32 = false) : MadeBy hashing (janetTable capacity)
  | put {t u : JanetTable} {key value : Janet} (h : MadeBy hashing t) (hput : janetTablePut hashing t key value = some u) :
      MadeBy hashing u
  | remove {t : JanetTable} {key : Janet} (h : MadeBy hashing t) : MadeBy hashing (janetTableRemove hashing t key)

section Histories

variable {heap : Heap} {raw : Janet} {v : JanetValue} {p q : Nat}

omit [CanonicalForm] in
/-- A table has a block from the beginning. -/
theorem JanetTable.MadeBy.block {hashing : Hashing} {t : JanetTable} (h : t.MadeBy hashing) :
    t.Has fun _ => True := by
  induction h with
  | new h => exact has_init h trivial
  | put _ hput ih => exact has_put hput ih trivial trivial trivial trivial
  | remove _ ih => exact has_remove ih trivial trivial

/-- What is copied on the way to a result has a result. -/
theorem expands_kid {n : Nat} {c : Container} {x : Janet} (h : heap.Expands (n + 1) raw v) (hc : c.IsAt raw)
    (hx : x ∈ heap.children c) : ∃ r, heap.Expands n x r := by
  obtain ⟨-, rs, hrs, -⟩ := h.container hc
  obtain ⟨r, -, hr⟩ := Assoc.partner_of_mem hrs hx
  exact ⟨r, hr⟩

/-- Of two tables with blocks and the same entries one can stand for the other. -/
theorem corresponds_tables {raw' : Janet} (hp : (Container.table p).IsAt raw) (hq : (Container.table q).IsAt raw')
    (hblock : (heap.tables.get q).data.isSome = true)
    (hperm : (live (heap.tables.get p).cells).Perm (live (heap.tables.get q).cells))
    (h : copyOut heap raw = .returns v) :
    Corresponds (fun a b => (a = b ∧ ∃ n r, heap.Expands n a r) ∨ (a = raw ∧ b = raw')) heap heap := by
  rintro a b (⟨rfl, n, r, hr⟩ | ⟨rfl, rfl⟩)
  · rcases hr.cases with ⟨l, hl, _⟩ | ⟨m, c, rfl, hc⟩
    · exact Or.inl ⟨l, hl, hl⟩
    · have hkids : ∀ x ∈ heap.children c, ∃ n r, heap.Expands n x r := fun x hx => ⟨m, expands_kid hr hc hx⟩
      refine Or.inr ⟨c, c, hc, hc, by cases c <;> rfl, id, fun _ => ?_, fun _ => ⟨_, ?_, List.Perm.refl _⟩⟩
      · exact List.forall₂_same.mpr fun x hx => Or.inl ⟨rfl, hkids x hx⟩
      · refine List.forall₂_same.mpr fun e he => ?_
        obtain ⟨hkey, hvalue⟩ := mem_entries he
        exact ⟨Or.inl ⟨rfl, hkids _ hkey⟩, Or.inl ⟨rfl, hkids _ hvalue⟩⟩
  · refine Or.inr ⟨.table p, .table q, hp, hq, rfl, fun _ => hblock, fun hd => (by cases hd), fun _ => ?_⟩
    refine ⟨heap.entries (.table p), List.forall₂_same.mpr fun e he => ?_, hperm.map _⟩
    obtain ⟨hkey, hvalue⟩ := mem_entries he
    have hx := copyOut_iff_expands.mp h
    exact ⟨Or.inl ⟨rfl, _, expands_kid hx hp hkey⟩, Or.inl ⟨rfl, _, expands_kid hx hp hvalue⟩⟩

/-- **The copy is the tree.** Where copying returns, and the keys of each dictionary on the way copy to different
values, the result is the tree of the raw value and no other value is. A heap that shows the same has the same copy, and
of two tables with the same live entries, whatever puts and removals made them, one copies to what the other does. -/
theorem copyOut_tree (h : copyOut heap raw = .returns v) (hk : heap.KeysCopyApart raw) :
    (∀ w, heap.Tree raw w ↔ w = v) ∧
      (∀ R heap' raw', Corresponds R heap heap' → R raw raw' → ∃ w, copyOut heap' raw' = .returns w ∧ Same v w) ∧
      ∀ p q raw' hashing hashing', (Container.table p).IsAt raw → (Container.table q).IsAt raw' →
        (heap.tables.get p).MadeBy hashing → (heap.tables.get q).MadeBy hashing' →
          (live (heap.tables.get p).cells).Perm (live (heap.tables.get q).cells) →
            ∃ w, copyOut heap raw' = .returns w ∧ Same v w ∧ (NoNaN v → equal v w = true) := by
  have hx := copyOut_iff_expands.mp h
  have hcorresponds : ∀ R heap' raw', Corresponds R heap heap' → R raw raw' →
      ∃ w, copyOut heap' raw' = .returns w ∧ Same v w := by
    intro R heap' raw' hR hrel
    obtain ⟨w, hw, hsame⟩ := hR.expands (Nat.le_refl _) hk hrel hx
    exact ⟨w, hw.copyOut (Nat.le_refl _), hsame⟩
  refine ⟨tree_iff (Nat.le_refl _) hk hx, hcorresponds, ?_⟩
  intro p q raw' hashing hashing' hp hq _ hmade hperm
  obtain ⟨w, hw, hsame⟩ := hcorresponds _ heap raw' (corresponds_tables hp hq hmade.block.block hperm h) (Or.inr ⟨rfl, rfl⟩)
  refine ⟨w, hw, hsame, hsame.equal (lawful_unfold hx.2) ?_⟩
  exact lawful_unfold (copyOut_iff_expands.mp hw).2

/-- Keys that are not alike are apart. -/
theorem keysApart_of_alike (h : ∀ c : Container, (heap.entries c).Pairwise fun e f =>
    heap.alike maxValueNestingDepth e.1 f.1 = false) : heap.KeysCopyApart raw := by
  intro k u c _ _
  refine (h c).imp fun {e f} hef x y hx hy => ?_
  have hiff := alike_iff _ _ _ _ _ (copyOut_iff_expands.mp hx).2 (copyOut_iff_expands.mp hy).2
  rw [Bool.eq_false_iff, ne_eq, hiff, hef]
  exact Bool.false_ne_true

end Histories

end Copies

/-! ## Two histories -/

/-- Put an entry; a table that is full stays as it is. -/
def JanetTable.putting (t : JanetTable) (key value : Janet) : JanetTable :=
  (janetTablePut pointerHashing t key value).getD t

theorem JanetTable.MadeBy.putting {t : JanetTable} {key value : Janet} (h : t.MadeBy pointerHashing) :
    (t.putting key value).MadeBy pointerHashing := by
  unfold JanetTable.putting
  cases hput : janetTablePut pointerHashing t key value with
  | none => exact h
  | some u => exact .put h hput

/-- One is put, then two. -/
def oneThenTwo : JanetTable := ((janetTable 2#32).putting one two).putting two one

/-- Two is put, then a function, then one, and the function is removed. -/
def twoThenOne : JanetTable :=
  janetTableRemove pointerHashing
    ((((janetTable 9#32).putting two one).putting (someFunction 1) one).putting one two) (someFunction 1)

/-- A heap with both tables. -/
def twoHistories : Heap := ((Heap.empty.allocTable oneThenTwo).1.allocTable twoThenOne).1

theorem live_oneThenTwo : live oneThenTwo.cells = [⟨one, two⟩, ⟨two, one⟩] := by decide +kernel

theorem live_twoThenOne : live twoThenOne.cells = [⟨two, one⟩, ⟨one, two⟩] := by decide +kernel

theorem oneThenTwo_madeBy : oneThenTwo.MadeBy pointerHashing :=
  .putting (.putting (.new (by decide)))

theorem twoThenOne_madeBy : twoThenOne.MadeBy pointerHashing :=
  .remove (.putting (.putting (.putting (.new (by decide)))))

/-- Wherever there are tables in that heap, their keys are apart. -/
theorem twoHistories_keysCopyApart (raw : Janet) : @Heap.KeysCopyApart ⟨id⟩ twoHistories raw := by
  refine @keysApart_of_alike ⟨id⟩ _ raw fun c => ?_
  cases c with
  | tuple p => exact .nil
  | array p => exact .nil
  | struct p => exact .nil
  | table p =>
    show ((live (twoHistories.tables.get p).cells).map _).Pairwise _
    rcases p with _ | _ | _ | p
    · exact .nil
    · rw [show twoHistories.tables.get (0 + 1) = oneThenTwo from rfl, live_oneThenTwo]
      decide +kernel
    · rw [show twoHistories.tables.get (0 + 1 + 1) = twoThenOne from rfl, live_twoThenOne]
      decide +kernel
    · exact .nil

/-- What both tables copy to. -/
def oneAndTwo : JanetValue :=
  .table [(.number ⟨0x3FF0000000000000#64⟩, .number ⟨0x4000000000000000#64⟩),
    (.number ⟨0x4000000000000000#64⟩, .number ⟨0x3FF0000000000000#64⟩)]

theorem noNaN_oneAndTwo : NoNaN oneAndTwo := by
  refine .intro trivial fun x hx => .intro ?_ fun y hy => ?_
  all_goals
    simp only [oneAndTwo, parts, List.flatMap_cons, List.flatMap_nil, List.cons_append, List.nil_append, List.mem_cons,
      List.not_mem_nil, or_false] at hx
  · rcases hx with rfl | rfl | rfl | rfl <;> rfl
  · rcases hx with rfl | rfl | rfl | rfl <;> cases hy

/-- The two tables copy to the same value, though they list their entries in different orders. -/
theorem copyOut_tree_twoHistories :
    (∀ w, twoHistories.Tree (janetWrapTable 1) w ↔ w = oneAndTwo) ∧
      ∃ w, @copyOut ⟨id⟩ twoHistories (janetWrapTable 2) = .returns w ∧ Same oneAndTwo w ∧
        @equal ⟨id⟩ oneAndTwo w = true := by
  have hcopy : @copyOut ⟨id⟩ twoHistories (janetWrapTable 1) = .returns oneAndTwo := rfl
  obtain ⟨htree, -, hhistories⟩ := @copyOut_tree ⟨id⟩ _ _ _ hcopy (twoHistories_keysCopyApart _)
  have hperm : (live (twoHistories.tables.get 1).cells).Perm (live (twoHistories.tables.get 2).cells) := by
    rw [show twoHistories.tables.get 1 = oneThenTwo from rfl, show twoHistories.tables.get 2 = twoThenOne from rfl,
      live_oneThenTwo, live_twoThenOne]
    exact .swap ..
  obtain ⟨w, hw, hsame, hequal⟩ := hhistories 1 2 (janetWrapTable 2) pointerHashing pointerHashing ⟨rfl, rfl⟩
    ⟨rfl, rfl⟩ oneThenTwo_madeBy twoThenOne_madeBy hperm
  exact ⟨htree, w, hw, hsame, hequal noNaN_oneAndTwo⟩

end SwiftJanet
