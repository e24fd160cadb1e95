import SwiftJanet.Copy.Unfolding

/-!
# Raw values whose copies are equal

`heap.alike n a b` compares two raw values on the heap alone, down to `n` nested containers, the way their copies
compare: unsupported values by the name of their type, containers by their elements and not by their address, strings
as text, and dictionaries by the entries that copying keeps.

`alike_iff`: two raw values are alike exactly when their unfoldings are equal.
-/

namespace SwiftJanet

open Lib JanetValue

/-! ## Leaves -/

/-- What copying reads at a value that is no container. -/
inductive Leaf where
  | nil
  | boolean (b : Bool)
  | number (d : Double)
  | string (bytes : List UInt8)
  | keyword (bytes : List UInt8)
  | symbol (bytes : List UInt8)
  | other (type : JanetType)

namespace Leaf

/-- The copy of a leaf. -/
def copied : Leaf → JanetValue
  | nil => .nil
  | boolean b => .boolean b
  | number d => .number d
  | string bytes => .string (Text.decoding bytes)
  | keyword bytes => .keyword (Text.decoding bytes)
  | symbol bytes => .symbol (Text.decoding bytes)
  | other type => .unsupported (janetTypeNames type)

/-- Bytes that decode to the same text. -/
def sameText [CanonicalForm] (s t : List UInt8) : Bool := (Text.decoding s).equal (Text.decoding t)

/-- Leaves with equal copies. -/
def alike [CanonicalForm] : Leaf → Leaf → Bool
  | nil, nil => true
  | boolean a, boolean b => a == b
  | number a, number b => a.equal b
  | string s, string t => sameText s t
  | keyword s, keyword t => sameText s t
  | symbol s, symbol t => sameText s t
  | other a, other b => (janetTypeNames a).equal (janetTypeNames b)
  | _, _ => false

theorem equal_copied [CanonicalForm] (l m : Leaf) : equal l.copied m.copied = l.alike m := by
  cases l <;> cases m <;> rfl

end Leaf

/-- The leaf at a raw value, if it is one. -/
def Heap.leafAt (heap : Heap) (raw : Janet) : Option Leaf :=
  match janetType raw with
  | .nil => some .nil
  | .boolean => some (.boolean (janetUnwrapBoolean raw))
  | .number => some (.number (janetUnwrapNumber raw))
  | .string => (janetUnwrapString raw).map fun p => .string (heap.strings.get p)
  | .keyword => (janetUnwrapKeyword raw).map fun p => .keyword (heap.strings.get p)
  | .symbol => (janetUnwrapSymbol raw).map fun p => .symbol (heap.strings.get p)
  | .tuple | .array | .struct | .table => none
  | other => some (.other other)

/-- The container a raw value points to, if it does. -/
def Container.pointedAt (raw : Janet) : Option Container :=
  match janetType raw with
  | .tuple => (janetUnwrapTuple raw).map .tuple
  | .array => (janetUnwrapArray raw).map .array
  | .struct => (janetUnwrapStruct raw).map .struct
  | .table => (janetUnwrapTable raw).map .table
  | _ => none

/-! ## Containers -/

/-- Two containers of the same kind. -/
def Container.sameKind : Container → Container → Bool
  | .tuple _, .tuple _ | .array _, .array _ | .struct _, .struct _ | .table _, .table _ => true
  | _, _ => false

/-- The live entries of a dictionary. -/
def Heap.entries (heap : Heap) : Container → List (Janet × Janet)
  | .struct p => (live (heap.structs.get p).data).map fun kv => (kv.key, kv.value)
  | .table p => (live (heap.tables.get p).cells).map fun kv => (kv.key, kv.value)
  | _ => []

def Container.isDictionary : Container → Bool
  | .struct _ | .table _ => true
  | _ => false

/-- Elements that are alike one by one. -/
def alikeElements (same : Janet → Janet → Bool) (xs ys : List Janet) : Bool :=
  xs.length == ys.length && (xs.zip ys).all fun p => same p.1 p.2

/-- Dictionaries of which copying keeps the same entries: the last ones of their keys. -/
def alikeEntries (same : Janet → Janet → Bool) (es fs : List (Janet × Janet)) : Bool :=
  let match' := fun e f : Janet × Janet => same e.1 f.1 && same e.2 f.2
  (Assoc.lasts same es).all (fun e => (Assoc.lasts same fs).any fun f => match' e f) &&
    (Assoc.lasts same fs).all fun f => (Assoc.lasts same es).any fun e => match' e f

/-- Containers of one kind whose children are alike. -/
def Heap.alikeContainers (heap : Heap) (same : Janet → Janet → Bool) (c d : Container) : Bool :=
  c.sameKind d &&
    if c.isDictionary then alikeEntries same (heap.entries c) (heap.entries d)
    else alikeElements same (heap.children c) (heap.children d)

/-- Raw values whose copies are equal, down to `n` nested containers. -/
def Heap.alike [CanonicalForm] (heap : Heap) : Nat → Janet → Janet → Bool
  | n, a, b =>
    match heap.leafAt a with
    | some l =>
      match heap.leafAt b with
      | some m => l.alike m
      | none => false
    | none =>
      match heap.leafAt b with
      | some _ => false
      | none =>
        match n with
        | 0 => false
        | n + 1 =>
          match Container.pointedAt a with
          | none => false
          | some c =>
            match Container.pointedAt b with
            | none => false
            | some d => heap.alikeContainers (Heap.alike heap n) c d

/-! ## Alike values have equal unfoldings -/

section Alike

variable [CanonicalForm] {heap : Heap} {raw a b : Janet} {n : Nat}

/-- A leaf of the walk is the copy of the leaf in the heap. -/
theorem leafAt_of_view {r : JanetValue} (h : heap.view raw = .leaf r) : ∃ l, heap.leafAt raw = some l ∧ r = l.copied := by
  have string : ∀ {p : Option Nat} {f : Nat → Leaf}, behind p (fun q => .leaf (f q).copied) = .leaf r →
      ∃ l, p.map f = some l ∧ r = l.copied := by
    intro p f h
    cases p with
    | none => cases h
    | some q => cases h; exact ⟨f q, rfl, rfl⟩
  have node : ∀ {p : Option Nat} {c : Nat → Container}, behind p (fun q => heap.node (c q)) ≠ .leaf r := by
    intro p c h
    cases p <;> cases h
  rw [Heap.view] at h
  rw [Heap.leafAt]
  cases ht : janetType raw with
  | string => rw [ht] at h; exact string (f := fun p => .string (heap.strings.get p)) h
  | keyword => rw [ht] at h; exact string (f := fun p => .keyword (heap.strings.get p)) h
  | symbol => rw [ht] at h; exact string (f := fun p => .symbol (heap.strings.get p)) h
  | tuple => rw [ht] at h; exact absurd h node
  | array => rw [ht] at h; exact absurd h node
  | struct => rw [ht] at h; exact absurd h node
  | table => rw [ht] at h; exact absurd h node
  | _ => rw [ht] at h; cases h; exact ⟨_, rfl, rfl⟩

omit [CanonicalForm] in
/-- A pointer to a container is no leaf. -/
theorem pointedAt_of_isAt {c : Container} (heap : Heap) (h : c.IsAt raw) :
    heap.leafAt raw = none ∧ Container.pointedAt raw = some c := by
  cases c <;> simp only [Heap.leafAt, Container.pointedAt, h.1, h.2, Option.map_some, and_self]

/-- The unfolding of a container is built from the unfoldings of its children, which are lawful. -/
theorem unfold_container {c : Container} {u : JanetValue} (hc : c.IsAt raw) (h : unfold heap.view (n + 1) raw = some u) :
    ∃ rs, List.Forall₂ (fun w r => unfold heap.view n w = some r) (heap.children c) rs ∧ (∀ r ∈ rs, Lawful r) ∧
      u = c.build rs := by
  rw [unfold_node (view_of_isAt heap hc)] at h
  obtain ⟨rs, hrs, rfl⟩ := Option.map_eq_some_iff.mp h
  refine ⟨rs, (collect_eq_some _ _).mp hrs, fun r hr => ?_, rfl⟩
  obtain ⟨w, _, hw⟩ := mem_collect hrs hr
  exact lawful_unfold hw

omit [CanonicalForm] in
/-- Keys and values in turn, pairwise. -/
theorem forall₂_pairUp {R : Janet → JanetValue → Prop} : ∀ {kvs : List JanetKV} {rs : List JanetValue},
    List.Forall₂ R (alternate kvs) rs →
      List.Forall₂ (fun e f => R e.1 f.1 ∧ R e.2 f.2) (kvs.map fun kv => (kv.key, kv.value)) (pairUp rs)
  | [], rs, h => by cases h; exact .nil
  | kv :: kvs, rs, h => by
    change List.Forall₂ R (kv.key :: kv.value :: alternate kvs) rs at h
    cases h with
    | cons hk h =>
      cases h with
      | cons hv h => exact .cons ⟨hk, hv⟩ (forall₂_pairUp h)

section Lists

variable {R : Janet → JanetValue → Prop} {same : Janet → Janet → Bool} {xs ys : List Janet} {us ws : List JanetValue}

/-- Elements with equal copies are alike one by one. -/
theorem equalList_alike (hsame : ∀ x y u w, R x u → R y w → (equal u w = true ↔ same x y = true))
    (hx : List.Forall₂ R xs us) (hy : List.Forall₂ R ys ws) :
    List.Forall₂ (fun u w => equal u w = true) us ws ↔ alikeElements same xs ys = true := by
  unfold alikeElements
  induction hx generalizing ys ws with
  | nil => cases hy <;> simp
  | cons hxu _ ih =>
    cases hy with
    | nil => simp
    | cons hyw hys =>
      have := ih hys
      simp only [Bool.and_eq_true, beq_iff_eq] at this
      simp [hsame _ _ _ _ hxu hyw, this]
      tauto

variable {es fs : List (Janet × Janet)} {es' fs' : List (JanetValue × JanetValue)}

/-- The same entries are the last ones of their keys. -/
theorem forall₂_lasts (hsame : ∀ x y u w, R x u → R y w → (equal u w = true ↔ same x y = true))
    (h : List.Forall₂ (fun e f => R e.1 f.1 ∧ R e.2 f.2) es es') :
    List.Forall₂ (fun e f => R e.1 f.1 ∧ R e.2 f.2) (Assoc.lasts same es) (Assoc.lasts equal es') := by
  induction h with
  | nil => exact .nil
  | @cons e e' es es' he hes ih =>
    have hany : (es.any fun f => same e.1 f.1) = true ↔ (es'.any fun f => equal e'.1 f.1) = true := by
      rw [List.any_eq_true, List.any_eq_true]
      exact Assoc.exists_forall₂ hes fun x y hxy => (hsame _ _ _ _ he.1 hxy.1).symm
    rw [Assoc.lasts, Assoc.lasts]
    by_cases hc : (es.any fun f => same e.1 f.1) = true
    · rw [if_pos hc, if_pos (hany.mp hc)]; exact ih
    · rw [if_neg hc, if_neg (fun h => hc (hany.mpr h))]; exact .cons he ih

/-- Dictionaries with equal copies keep entries that are alike. -/
theorem dictEqual_alike (hsame : ∀ x y u w, R x u → R y w → (equal u w = true ↔ same x y = true))
    (hes : List.Forall₂ (fun e f => R e.1 f.1 ∧ R e.2 f.2) es es')
    (hfs : List.Forall₂ (fun e f => R e.1 f.1 ∧ R e.2 f.2) fs fs')
    (hle : ∀ e ∈ es', Lawful e.1 ∧ Lawful e.2) (hlf : ∀ f ∈ fs', Lawful f.1 ∧ Lawful f.2) :
    DictEqual (Assoc.ofEntries equal es') (Assoc.ofEntries equal fs') ↔ alikeEntries same es fs = true := by
  have lawful : ∀ {es' : List (JanetValue × JanetValue)}, (∀ e ∈ es', Lawful e.1 ∧ Lawful e.2) →
      ∀ x ∈ (Assoc.ofEntries equal es').flatMap (fun e => [e.1, e.2]), Lawful x := by
    intro es' h x hx
    obtain ⟨e, he, hx⟩ := List.mem_flatMap.mp hx
    obtain ⟨⟨f, hf, hk⟩, ⟨g, hg, hv⟩⟩ := Assoc.mem_ofEntries he
    simp only [List.mem_cons, List.not_mem_nil, or_false] at hx
    rcases hx with rfl | rfl
    · exact hk ▸ (h f hf).1
    · exact hv ▸ (h g hg).2
  have hle1 : ∀ e ∈ es', Lawful e.1 := fun e he => (hle e he).1
  have hlf1 : ∀ f ∈ fs', Lawful f.1 := fun f hf => (hlf f hf).1
  have hmatch : ∀ (e f : Janet × Janet) (e' f' : JanetValue × JanetValue), R e.1 e'.1 ∧ R e.2 e'.2 →
      R f.1 f'.1 ∧ R f.2 f'.2 →
      ((equal e'.1 f'.1 = true ∧ equal e'.2 f'.2 = true) ↔ (same e.1 f.1 && same e.2 f.2) = true) := by
    intro e f e' f' he hf
    rw [Bool.and_eq_true, hsame _ _ _ _ he.1 hf.1, hsame _ _ _ _ he.2 hf.2]
  have hle' := forall₂_lasts hsame hes
  have hlf' := forall₂_lasts hsame hfs
  rw [dictEqual_iff (Assoc.distinct_ofEntries _) (Assoc.distinct_ofEntries _) (lawful hle) (lawful hlf),
    Assoc.ofEntries_found_iff equal_per hle1 hlf1, Assoc.ofEntries_covered_iff equal_per hle1 hlf1]
  unfold alikeEntries
  simp only [Bool.and_eq_true, List.all_eq_true, List.any_eq_true]
  refine and_congr ?_ ?_
  · exact (Assoc.forall_forall₂ hle' fun e e' he => Assoc.exists_forall₂ hlf' fun f f' hf => by
      rw [hmatch e f e' f' he hf, Bool.and_eq_true]).symm
  · exact (Assoc.forall_forall₂ hlf' fun f f' hf => Assoc.exists_forall₂ hle' fun e e' he => by
      rw [hmatch e f e' f' he hf, Bool.and_eq_true]).symm

end Lists

/-- A leaf and a container have different copies. -/
theorem equal_copied_build (l : Leaf) (c : Container) (rs : List JanetValue) :
    equal l.copied (c.build rs) = false ∧ equal (c.build rs) l.copied = false := by
  cases l <;> cases c <;> exact ⟨rfl, rfl⟩

/-- Containers with equal copies are of one kind and hold what is alike. -/
theorem equal_build_iff {c d : Container} {us ws : List JanetValue}
    (hsame : ∀ x y u w, unfold heap.view n x = some u → unfold heap.view n y = some w →
      (equal u w = true ↔ heap.alike n x y = true))
    (hus : List.Forall₂ (fun x u => unfold heap.view n x = some u) (heap.children c) us)
    (hws : List.Forall₂ (fun y w => unfold heap.view n y = some w) (heap.children d) ws)
    (hlu : ∀ u ∈ us, Lawful u) (hlw : ∀ w ∈ ws, Lawful w) :
    equal (c.build us) (d.build ws) = true ↔ heap.alikeContainers (heap.alike n) c d = true := by
  have hpairs : ∀ {rs : List JanetValue}, (∀ r ∈ rs, Lawful r) → ∀ e ∈ pairUp rs, Lawful e.1 ∧ Lawful e.2 :=
    fun h e he => ⟨h _ (mem_pairUp he).1, h _ (mem_pairUp he).2⟩
  cases c with
  | tuple p =>
    cases d with
    | tuple q => simpa [Heap.alikeContainers, Container.build, Container.sameKind, Container.isDictionary, equal_tuple] using
        equalList_alike hsame hus hws
    | _ => exact ⟨fun h => (nomatch h), fun h => (nomatch h)⟩
  | array p =>
    cases d with
    | array q => simpa [Heap.alikeContainers, Container.build, Container.sameKind, Container.isDictionary, equal_array] using
        equalList_alike hsame hus hws
    | _ => exact ⟨fun h => (nomatch h), fun h => (nomatch h)⟩
  | struct p =>
    cases d with
    | struct q => simpa [Heap.alikeContainers, Container.build, Container.sameKind, Container.isDictionary, equal_struct, buildDictionary,
          Heap.entries] using
        dictEqual_alike hsame (forall₂_pairUp hus) (forall₂_pairUp hws) (hpairs hlu) (hpairs hlw)
    | _ => exact ⟨fun h => (nomatch h), fun h => (nomatch h)⟩
  | table p =>
    cases d with
    | table q => simpa [Heap.alikeContainers, Container.build, Container.sameKind, Container.isDictionary, equal_table, buildDictionary,
          Heap.entries] using
        dictEqual_alike hsame (forall₂_pairUp hus) (forall₂_pairUp hws) (hpairs hlu) (hpairs hlw)
    | _ => exact ⟨fun h => (nomatch h), fun h => (nomatch h)⟩

/-- **Two raw values are alike exactly when their unfoldings are equal.** -/
theorem alike_iff : ∀ (n : Nat) (a b : Janet) (u w : JanetValue), unfold heap.view n a = some u →
    unfold heap.view n b = some w → (equal u w = true ↔ heap.alike n a b = true)
  | n, a, b, u, w, ha, hb => by
    cases hva : heap.view a with
    | null => rw [unfold_null hva] at ha; cases ha
    | leaf r =>
      rw [unfold_leaf hva] at ha
      obtain rfl := Option.some.inj ha
      obtain ⟨l, hl, rfl⟩ := leafAt_of_view hva
      cases hvb : heap.view b with
      | null => rw [unfold_null hvb] at hb; cases hb
      | leaf s =>
        rw [unfold_leaf hvb] at hb
        obtain rfl := Option.some.inj hb
        obtain ⟨m, hm, rfl⟩ := leafAt_of_view hvb
        rw [Heap.alike.eq_def, Leaf.equal_copied]
        simp only [hl, hm]
      | node id i kids build =>
        obtain ⟨d, hd, -, -, -, -⟩ := view_eq_node hvb
        cases n with
        | zero => rw [unfold_node_zero hvb] at hb; cases hb
        | succ n =>
          obtain ⟨ws, _, _, rfl⟩ := unfold_container hd hb
          rw [(equal_copied_build l d ws).1, Heap.alike]
          simp only [hl, (pointedAt_of_isAt heap hd).1]
    | node id i kids build =>
      obtain ⟨c, hc, -, -, -, -⟩ := view_eq_node hva
      cases n with
      | zero => rw [unfold_node_zero hva] at ha; cases ha
      | succ n =>
        obtain ⟨us, hus, hlu, rfl⟩ := unfold_container hc ha
        cases hvb : heap.view b with
        | null => rw [unfold_null hvb] at hb; cases hb
        | leaf s =>
          rw [unfold_leaf hvb] at hb
          obtain rfl := Option.some.inj hb
          obtain ⟨m, hm, rfl⟩ := leafAt_of_view hvb
          rw [(equal_copied_build m c us).2, Heap.alike]
          simp only [hm, (pointedAt_of_isAt heap hc).1]
        | node id' i' kids' build' =>
          obtain ⟨d, hd, -, -, -, -⟩ := view_eq_node hvb
          obtain ⟨ws, hws, hlw, rfl⟩ := unfold_container hd hb
          rw [equal_build_iff (alike_iff n) hus hws hlu hlw, Heap.alike]
          simp only [pointedAt_of_isAt heap hc, pointedAt_of_isAt heap hd]

end Alike

end SwiftJanet
