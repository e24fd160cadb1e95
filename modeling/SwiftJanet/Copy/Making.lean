import SwiftJanet.Copy.Equality

/-!
# What making a raw value does

`Crosses limit v`: no NaN, nothing unsupported, no nil key or value, collections and strings that fit, dictionaries of
at most `limit` entries. `makes_of_crosses`: making a raw value of such a value returns, changes nothing that exists,
and the raw value represents it. The loops over entries carry the invariant that what was put so far is filled in
(`Filled`) and represents what was read so far (`Filling`).
-/

namespace SwiftJanet

open Lib JanetValue

variable [CanonicalForm] {code : DictionaryCode} {limit : Nat}

/-! ## Values that cross -/

/-- What every value inside a value that crosses is like. -/
def Fits (limit : Nat) : JanetValue → Prop
  | .string t | .keyword t | .symbol t => t.utf8.length < 2 ^ 31
  | .tuple xs | .array xs => xs.length < 2 ^ 31
  | .struct es | .table es => es.length ≤ limit ∧ ∀ e ∈ es, e.1 ≠ .nil ∧ e.2 ≠ .nil
  | .unsupported _ => False
  | _ => True

/-- A value that has a raw value of its own, with dictionaries of at most `limit` entries. -/
structure Crosses (limit : Nat) (v : JanetValue) : Prop where
  lawful : Lawful v
  noNaN : NoNaN v
  fits : All (Fits limit) v

/-- A value crosses when its parts do. -/
theorem Crosses.intro {v : JanetValue} (hd : DistinctKeys v) (hn : NotNaN v) (hf : Fits limit v)
    (hp : ∀ w ∈ v.parts, Crosses limit w) : Crosses limit v :=
  ⟨.intro hd fun w hw => (hp w hw).lawful, .intro hn fun w hw => (hp w hw).noNaN, .intro hf fun w hw => (hp w hw).fits⟩

theorem Crosses.part {v w : JanetValue} (h : Crosses limit v) (hw : w ∈ v.parts) : Crosses limit w :=
  ⟨h.lawful.part hw, h.noNaN.part hw, h.fits.part hw⟩

/-! ## Allocation -/

section Allocation

omit [CanonicalForm]

variable {heap heap' : Heap} {p : Nat} {bytes : List UInt8}

theorem janetString_spec (heap : Heap) (bytes : List UInt8) :
    heap.Extends 0 (heap.janetString bytes).1 ∧ (heap.janetString bytes).1.HasBytes (heap.janetString bytes).2 bytes :=
  ⟨⟨⟨Store.extends_alloc, .refl, .refl⟩, .refl, .refl⟩, heap.strings.pos, Nat.lt_succ_self _, Store.get_alloc⟩

/-- An interned string is there already, with the same bytes. -/
theorem janetSymbol_spec (heap : Heap) (bytes : List UInt8) :
    heap.Extends 0 (heap.janetSymbol bytes).1 ∧ (heap.janetSymbol bytes).1.HasBytes (heap.janetSymbol bytes).2 bytes := by
  unfold Heap.janetSymbol
  cases h : heap.symcache.find? fun p => heap.strings.get p == bytes with
  | some p =>
    obtain ⟨hpos, hlt⟩ := heap.interned p (List.mem_of_find?_eq_some h)
    have hbytes : (heap.strings.get p == bytes) = true := List.find?_some (p := fun p => heap.strings.get p == bytes) h
    exact ⟨.refl, hpos, hlt, eq_of_beq hbytes⟩
  | none =>
    exact ⟨⟨⟨Store.extends_alloc, .refl, .refl⟩, .refl, .refl⟩, heap.strings.pos, Nat.lt_succ_self _, Store.get_alloc⟩

theorem extends_allocTuple (t : JanetTuple) : heap.Extends 0 (heap.allocTuple t).1 :=
  ⟨⟨.refl, Store.extends_alloc, .refl⟩, .refl, .refl⟩

theorem extends_allocArray (a : JanetArray) : heap.Extends 0 (heap.allocArray a).1 :=
  ⟨⟨.refl, .refl, .refl⟩, Store.extends_alloc, .refl⟩

theorem extends_allocStruct (s : JanetStruct) : heap.Extends 0 (heap.allocStruct s).1 :=
  ⟨⟨.refl, .refl, Store.extends_alloc⟩, .refl, .refl⟩

/-- What only changes a new table extends the heap from before. -/
theorem extends_of_newTable {t : JanetTable} (h : (heap.allocTable t).1.Extends heap.tables.next heap') :
    heap.Extends 0 heap' := by
  refine ⟨⟨h.strings, h.tuples, h.structs⟩, h.arrays, ?_, fun q hpos hq _ => ?_⟩
  · exact Nat.le_trans (Nat.le_succ _) h.tables.next_le
  · rw [h.tables.get_eq q hpos (Nat.lt_succ_of_lt hq) (Nat.ne_of_lt hq)]
    exact Store.get_alloc_of_ne (Nat.ne_of_lt hq)

theorem int32_eq {n : Nat} (h : n < 2 ^ 31) : int32 n = .returns (BitVec.ofNat 32 n) := if_pos h

theorem nest_eq {depth : Nat} (h : depth < maxValueNestingDepth) : nest depth = .returns (depth + 1) :=
  if_neg (by omega)

end Allocation

/-! ## What making does -/

/-- Making a raw value of `v` returns, keeps what exists, and the raw value represents `v`. -/
def Makes (code : DictionaryCode) (v : JanetValue) : Prop :=
  ∀ depth heap, v.depth + depth ≤ maxValueNestingDepth → ∃ raw heap',
    makeRaw code v depth heap = (.returns raw, heap') ∧ heap.Extends 0 heap' ∧
      Represents code heap' heap.tables.next v raw

omit [CanonicalForm] in
/-- The elements of a list, one after the other. -/
theorem makeRaws_spec {inner : Nat} : ∀ {xs : List JanetValue} (heap : Heap), (∀ x ∈ xs, Makes code x) →
    (∀ x ∈ xs, x.depth + inner ≤ maxValueNestingDepth) → ∃ raws heap',
      makeRaws code xs inner heap = (.returns raws, heap') ∧ heap.Extends 0 heap' ∧
        List.Forall₂ (Represents code heap' heap.tables.next) xs raws
  | [], heap, _, _ => ⟨[], heap, rfl, .refl, .nil⟩
  | x :: xs, heap, h, hd => by
    obtain ⟨raw, heap₁, hraw, hx₁, hrep⟩ := h x (by simp) inner heap (hd x (by simp))
    obtain ⟨raws, heap₂, hraws, hx₂, hreps⟩ := makeRaws_spec heap₁ (fun x hx => h x (List.mem_cons_of_mem _ hx))
      fun x hx => hd x (List.mem_cons_of_mem _ hx)
    refine ⟨raw :: raws, heap₂, ?_, hx₁.trans hx₂, .cons (hrep.frame hx₂ heap.tables.pos) ?_⟩
    · rw [makeRaws, Computation.bind_of_returns hraw, Computation.bind_of_returns hraws]
      rfl
    · exact hreps.imp fun _ _ h => h.mono hx₁.tables.next_le

/-! ## Filling dictionaries -/

/-- The entries read so far are represented by the entries put so far. -/
def Filling (code : DictionaryCode) (heap : Heap) (lo : Nat) (es : List (JanetValue × JanetValue))
    (kvs : List JanetKV) : Prop :=
  List.Forall₂ (fun e kv => Represents code heap lo e.1 kv.key ∧ Represents code heap lo e.2 kv.value) es kvs

/-- Entries that can be put one after the other. -/
structure Fillable (code : DictionaryCode) (inner : Nat) (es : List (JanetValue × JanetValue)) : Prop where
  makes : ∀ e ∈ es, Makes code e.1 ∧ Makes code e.2
  depth : ∀ e ∈ es, e.1.depth + inner ≤ maxValueNestingDepth ∧ e.2.depth + inner ≤ maxValueNestingDepth
  not_nil : ∀ e ∈ es, e.1 ≠ .nil ∧ e.2 ≠ .nil

section Fill

variable {heap heap' : Heap} {lo inner p : Nat} {es ds : List (JanetValue × JanetValue)} {e : JanetValue × JanetValue}
  {kvs : List JanetKV} {kv : JanetKV} {v : JanetValue} {raw : Janet}

section Pure

omit [CanonicalForm]

theorem Filling.frame (h : Filling code heap lo es kvs) (hx : heap.Extends p heap') (hp : p < lo) :
    Filling code heap' lo es kvs :=
  List.Forall₂.imp (fun _ _ h => ⟨h.1.frame hx hp, h.2.frame hx hp⟩) h

theorem Filling.snoc (h : Filling code heap lo es kvs) (hk : Represents code heap lo e.1 kv.key)
    (hv : Represents code heap lo e.2 kv.value) : Filling code heap lo (es ++ [e]) (kvs ++ [kv]) :=
  List.rel_append h (.cons ⟨hk, hv⟩ .nil)

/-- Entries still to come leave room for the next one. -/
theorem room_snoc {count : Nat} (h : Filling code heap lo ds kvs) (hlen : ds.length + (e :: es).length ≤ count) :
    kvs.length < count ∧ (ds ++ [e]).length + es.length ≤ count := by
  have := List.Forall₂.length_eq h
  simp only [List.length_append, List.length_cons, List.length_nil] at hlen ⊢
  omega

theorem Fillable.tail (h : Fillable code inner (e :: es)) : Fillable code inner es :=
  ⟨fun e he => h.makes e (List.mem_cons_of_mem _ he), fun e he => h.depth e (List.mem_cons_of_mem _ he),
    fun e he => h.not_nil e (List.mem_cons_of_mem _ he)⟩

theorem Represents.not_nan (h : Represents code heap lo v raw) (ht : janetChecktype raw .number = true) :
    (janetUnwrapNumber raw).isNaN = false := by
  rw [h.checktype_eq] at ht
  cases h with
  | leaf h =>
    cases h with
    | number h => exact h
    | _ => cases ht
  | @container v c raws _ _ _ _ _ => cases c <;> cases ht

/-- Key and value of one entry, one after the other. -/
theorem makeEntry_spec (h : Fillable code inner (e :: es)) (heap : Heap) : ∃ key heap₁ value heap₂,
    makeRaw code e.1 inner heap = (.returns key, heap₁) ∧ makeRaw code e.2 inner heap₁ = (.returns value, heap₂) ∧
      heap.Extends 0 heap₂ ∧ Represents code heap₂ heap.tables.next e.1 key ∧
        Represents code heap₂ heap.tables.next e.2 value := by
  obtain ⟨key, heap₁, hkey, hx₁, hk⟩ := (h.makes e (by simp)).1 inner heap (h.depth e (by simp)).1
  obtain ⟨value, heap₂, hvalue, hx₂, hv⟩ := (h.makes e (by simp)).2 inner heap₁ (h.depth e (by simp)).2
  exact ⟨key, heap₁, value, heap₂, hkey, hvalue, hx₁.trans hx₂, hk.frame hx₂ heap.tables.pos, hv.mono hx₁.tables.next_le⟩

end Pure

/-- An entry with a new key can be put. -/
theorem Filling.puttable (h : Filling code heap lo ds kvs) (hk : Represents code heap lo e.1 kv.key)
    (hv : Represents code heap lo e.2 kv.value) (hd : Assoc.Distinct equal (ds ++ [e]))
    (hl : ∀ f ∈ ds ++ [e], Lawful f.1) (hn : e.1 ≠ .nil ∧ e.2 ≠ .nil) : Puttable heap kvs kv := by
  refine ⟨hk.checktype_nil hn.1, hk.not_nan, hv.checktype_nil hn.2, List.pairwise_map.mpr ?_⟩
  have hall := (List.forall₂_and_left _ _).mpr ⟨hl, h.snoc hk hv⟩
  exact Assoc.pairwise_of_forall₂ hall
    (fun _ _ _ _ hf hg hne => hf.2.1.toldApart hf.1 hg.2.1 hg.1 hne) hd

/-- The loop over a struct fills in all entries. -/
theorem putStruct_spec (hlaws : code.PutLaws limit) {count : Nat} (hcount : count ≤ limit) :
    ∀ {es ds : List (JanetValue × JanetValue)} {kvs : List JanetKV} {heap : Heap} {st : StructBuilder},
      Fillable code inner es → code.StructFilled heap st count kvs → Filling code heap lo ds kvs →
        ds.length + es.length ≤ count → lo ≤ heap.tables.next → 0 < lo → Assoc.Distinct equal (ds ++ es) →
          (∀ f ∈ ds ++ es, Lawful f.1) →
            ∃ st' kvs' heap', putStruct code es inner st heap = (.returns st', heap') ∧ heap.Extends 0 heap' ∧
              code.StructFilled heap' st' count kvs' ∧ Filling code heap' lo (ds ++ es) kvs'
  | [], ds, kvs, heap, st, _, hst, hfill, _, _, _, _, _ =>
    ⟨st, kvs, heap, rfl, .refl, hst, by rw [List.append_nil]; exact hfill⟩
  | e :: es, ds, kvs, heap, st, h, hst, hfill, hlen, hlo, hpos, hd, hl => by
    obtain ⟨key, heap₁, value, heap₂, hkey, hvalue, hx, hk, hv⟩ := makeEntry_spec h heap
    rw [List.append_cons] at hd hl ⊢
    have hfill₂ := hfill.frame hx hpos
    have hput : Puttable heap₂ kvs ⟨key, value⟩ := hfill₂.puttable (hk.mono hlo) (hv.mono hlo)
      (List.pairwise_append.mp hd).1 (fun f hf => hl f (List.mem_append_left _ hf)) (h.not_nil e (by simp))
    have hfill₃ : Filling code heap₂ lo (ds ++ [e]) (kvs ++ [⟨key, value⟩]) := hfill₂.snoc (hk.mono hlo) (hv.mono hlo)
    obtain ⟨hkvs, hlen'⟩ := room_snoc hfill hlen
    obtain ⟨st₁, hput'⟩ := Option.isSome_iff_exists.mp (hlaws.structPut hkvs hcount hst hx.toFrozen hput)
    obtain ⟨st', kvs', heap', hloop, hx', hst', hfill'⟩ := putStruct_spec hlaws hcount h.tail
      (.put hst hx.toFrozen hput hput') hfill₃ hlen' (Nat.le_trans hlo hx.tables.next_le) hpos hd hl
    refine ⟨st', kvs', heap', ?_, hx.trans hx', hst', hfill'⟩
    have hrun : structPut code st key value heap₂ = (.returns st₁, heap₂) := structPut_returns_iff.mpr ⟨hput', rfl⟩
    rw [putStruct, Computation.bind_of_returns hkey, Computation.bind_of_returns hvalue, Computation.bind_of_returns hrun]
    exact hloop

/-- The loop over a table fills in all entries, and changes no other table. -/
theorem putTable_spec (hlaws : code.PutLaws limit) {count : Nat} (hcount : count ≤ limit) (hp : 0 < p) :
    ∀ {es ds : List (JanetValue × JanetValue)} {kvs : List JanetKV} {heap₀ heap : Heap}, Fillable code inner es →
      p < heap.tables.next → heap₀.Frozen heap → code.TableFilled heap₀ (heap.tables.get p) count kvs →
        Filling code heap (p + 1) ds kvs → ds.length + es.length ≤ count → Assoc.Distinct equal (ds ++ es) →
          (∀ f ∈ ds ++ es, Lawful f.1) →
            ∃ kvs' heap₀' heap', putTable code es inner p heap = (.returns (), heap') ∧ heap.Extends p heap' ∧
              code.TableFilled heap₀' (heap'.tables.get p) count kvs' ∧ Filling code heap' (p + 1) (ds ++ es) kvs'
  | [], ds, kvs, heap₀, heap, _, _, _, ht, hfill, _, _, _ =>
    ⟨kvs, heap₀, heap, rfl, .refl, ht, by rw [List.append_nil]; exact hfill⟩
  | e :: es, ds, kvs, heap₀, heap, h, hlt, hf, ht, hfill, hlen, hd, hl => by
    obtain ⟨key, heap₁, value, heap₂, hkey, hvalue, hx, hk, hv⟩ := makeEntry_spec h heap
    rw [List.append_cons] at hd hl ⊢
    have hfill₂ := hfill.frame hx (Nat.succ_pos p)
    have hput : Puttable heap₂ kvs ⟨key, value⟩ := hfill₂.puttable (hk.mono hlt) (hv.mono hlt)
      (List.pairwise_append.mp hd).1 (fun f hf => hl f (List.mem_append_left _ hf)) (h.not_nil e (by simp))
    have hfill₃ : Filling code heap₂ (p + 1) (ds ++ [e]) (kvs ++ [⟨key, value⟩]) :=
      hfill₂.snoc (hk.mono hlt) (hv.mono hlt)
    obtain ⟨hkvs, hlen'⟩ := room_snoc hfill hlen
    -- making key and value has not touched the table
    have htable : heap₂.tables.get p = heap.tables.get p := hx.tables.get_eq p hp hlt (Nat.ne_of_gt hp)
    have hfrozen : heap₀.Frozen heap₂ := hf.trans hx.toFrozen
    obtain ⟨t, hput'⟩ := Option.isSome_iff_exists.mp (hlaws.tablePut hkvs hcount ht hfrozen hput)
    let heap₃ : Heap := { heap₂ with tables := heap₂.tables.set p t }
    have hx₃ : heap₂.Extends p heap₃ := ⟨⟨.refl, .refl, .refl⟩, .refl, Store.extends_set⟩
    have ht₃ : code.TableFilled heap₂ (heap₃.tables.get p) count (kvs ++ [⟨key, value⟩]) := by
      rw [Store.get_set]; exact .put ht hfrozen hput hput'
    obtain ⟨kvs', heap₀', heap', hloop, hx', ht', hfill'⟩ := putTable_spec hlaws hcount hp h.tail
      (Nat.lt_of_lt_of_le hlt hx.tables.next_le : p < heap₃.tables.next) hx₃.toFrozen ht₃
      (hfill₃.frame hx₃ (Nat.lt_succ_self p))
      hlen' hd hl
    refine ⟨kvs', heap₀', heap', ?_, hx.weaken.trans (hx₃.trans hx'), ht', hfill'⟩
    have hrun : tablePut code p key value heap₂ = (.returns (), heap₃) := by rw [tablePut, htable, hput']
    rw [putTable, Computation.bind_of_returns hkey, Computation.bind_of_returns hvalue, Computation.bind_of_returns hrun]
    exact hloop

end Fill

/-! ## Making values that cross -/

omit [CanonicalForm] in
/-- There is room for one more level, and the parts fit in it. -/
theorem room {v : JanetValue} {n depth : Nat} (hn : v.depth = n + 1) (hd : v.depth + depth ≤ maxValueNestingDepth) :
    depth < maxValueNestingDepth ∧ ∀ w ∈ v.parts, w.depth + (depth + 1) ≤ maxValueNestingDepth := by
  refine ⟨by omega, fun w hw => ?_⟩
  have := depth_parts (Nat.le_of_eq hn) w hw
  omega

omit [CanonicalForm] in
theorem fillable {es : List (JanetValue × JanetValue)} {inner : Nat}
    (hm : ∀ w ∈ es.flatMap (fun e => [e.1, e.2]), Makes code w)
    (hd : ∀ w ∈ es.flatMap (fun e => [e.1, e.2]), w.depth + inner ≤ maxValueNestingDepth)
    (hn : ∀ e ∈ es, e.1 ≠ .nil ∧ e.2 ≠ .nil) : Fillable code inner es :=
  ⟨fun _ he => ⟨hm _ (mem_keys he), hm _ (mem_values he)⟩, fun _ he => ⟨hd _ (mem_keys he), hd _ (mem_values he)⟩, hn⟩

omit [CanonicalForm] in
/-- Related entries as related keys and values in turn. -/
theorem zip_entries {R : JanetValue → Janet → Prop} {es : List (JanetValue × JanetValue)} {kvs : List JanetKV}
    (h : List.Forall₂ (fun e kv => R e.1 kv.key ∧ R e.2 kv.value) es kvs) :
    (es.flatMap fun e => [e.1, e.2]).length = (alternate kvs).length ∧
      ∀ p ∈ (es.flatMap fun e => [e.1, e.2]).zip (alternate kvs), R p.1 p.2 := by
  obtain ⟨hlen, hall⟩ := List.forall₂_iff_zip.mp (Assoc.forall₂_flatMap_pair.mpr h)
  exact ⟨hlen, fun p hp => hall hp⟩

/-- **Making a raw value of a value that crosses returns a representation of it.** -/
theorem makes_of_crosses (hlaws : code.PutLaws limit) (hlimit : limit < 2 ^ 31) {v : JanetValue}
    (h : Crosses limit v) : Makes code v := by
  induction v using partsInduction with
  | h v ih =>
    intro depth heap hd
    have hparts : ∀ w ∈ v.parts, Makes code w := fun w hw => ih w hw (h.part hw)
    cases v with
    | nil => exact ⟨janetWrapNil, heap, rfl, .refl, .leaf .nil⟩
    | boolean b => exact ⟨janetWrapBoolean b, heap, rfl, .refl, .leaf (.boolean b)⟩
    | number d => exact ⟨janetWrapNumber d, heap, rfl, .refl, .leaf (.number h.noNaN.here)⟩
    | string t =>
      obtain ⟨hx, hb⟩ := janetString_spec heap t.utf8
      refine ⟨_, _, ?_, hx, .leaf (.string hb)⟩
      rw [makeRaw, withJanetBytes, int32_eq h.fits.here]; rfl
    | keyword t =>
      obtain ⟨hx, hb⟩ := janetSymbol_spec heap t.utf8
      refine ⟨_, _, ?_, hx, .leaf (.keyword hb)⟩
      rw [makeRaw, withJanetBytes, int32_eq h.fits.here]; rfl
    | symbol t =>
      obtain ⟨hx, hb⟩ := janetSymbol_spec heap t.utf8
      refine ⟨_, _, ?_, hx, .leaf (.symbol hb)⟩
      rw [makeRaw, withJanetBytes, int32_eq h.fits.here]; rfl
    | tuple xs =>
      obtain ⟨hroom, hinner⟩ := room rfl hd
      obtain ⟨raws, heap', hraws, hx, hreps⟩ := makeRaws_spec heap (show ∀ x ∈ xs, Makes code x from hparts) hinner
      have hx' : heap'.Extends 0 (heap'.allocTuple ⟨raws, false⟩).1 := extends_allocTuple _
      obtain ⟨hlen, hzip⟩ := List.forall₂_iff_zip.mp hreps
      have hlt : raws.length < 2 ^ 31 := hlen ▸ h.fits.here
      refine ⟨Container.word (.tuple heap'.tuples.next), _, ?_, hx.trans hx', .container rfl
        ⟨heap'.tuples.pos, Nat.lt_succ_self _⟩ ?_ hlen fun p hp => (hzip hp).frame hx' heap.tables.pos⟩
      · rw [makeRaw, nest_eq hroom, Computation.lift_returns_bind, Computation.bind_of_returns hraws, int32_eq hlt]
        rfl
      · exact congrArg JanetTuple.data Store.get_alloc
    | array xs =>
      obtain ⟨hroom, hinner⟩ := room rfl hd
      obtain ⟨raws, heap', hraws, hx, hreps⟩ := makeRaws_spec heap (show ∀ x ∈ xs, Makes code x from hparts) hinner
      have hx' : heap'.Extends 0 (heap'.allocArray (janetArrayN raws)).1 := extends_allocArray _
      obtain ⟨hlen, hzip⟩ := List.forall₂_iff_zip.mp hreps
      have hlt : raws.length < 2 ^ 31 := hlen ▸ h.fits.here
      refine ⟨Container.word (.array heap'.arrays.next), _, ?_, hx.trans hx', .container rfl
        ⟨heap'.arrays.pos, Nat.lt_succ_self _⟩ ?_ hlen fun p hp => (hzip hp).frame hx' heap.tables.pos⟩
      · rw [makeRaw, nest_eq hroom, Computation.lift_returns_bind, Computation.bind_of_returns hraws, int32_eq hlt]
        rfl
      · exact congrArg JanetArray.data Store.get_alloc
    | struct es =>
      obtain ⟨hroom, hinner⟩ := room rfl hd
      obtain ⟨hcount, hnil⟩ := h.fits.here
      obtain ⟨st, kvs, heap', hput, hx, hst, hfill⟩ := putStruct_spec hlaws hcount (fillable hparts hinner hnil)
        (.start heap) (.nil : Filling code heap heap.tables.next [] []) (by simp) (Nat.le_refl _)
        heap.tables.pos (by rw [List.nil_append]; exact h.lawful.here) fun f hf => h.lawful.part (mem_keys hf)
      rw [List.nil_append] at hfill
      have hkvs : es.length = kvs.length := List.Forall₂.length_eq hfill
      obtain ⟨s, hs, hholds⟩ := hlaws.struct (by omega) (hkvs ▸ hst)
      have hx' : heap'.Extends 0 (heap'.allocStruct s).1 := extends_allocStruct _
      have hend : structEnd code st heap' = (.returns heap'.structs.next, (heap'.allocStruct s).1) := by
        rw [structEnd, hs]; rfl
      obtain ⟨hlen, hzip⟩ := zip_entries hfill
      refine ⟨Container.word (.struct heap'.structs.next), _, ?_, hx.trans hx', .container rfl
        ⟨heap'.structs.pos, Nat.lt_succ_self _⟩ ⟨kvs, rfl, ?_⟩ hlen fun p hp => (hzip p hp).frame hx' heap.tables.pos⟩
      · rw [makeRaw, nest_eq hroom, Computation.lift_returns_bind, int32_eq (by omega), Computation.lift_returns_bind,
          Computation.bind_of_returns hput, Computation.bind_of_returns hend]
        rfl
      · rw [show (heap'.allocStruct s).1.structs.get heap'.structs.next = s from Store.get_alloc]
        exact hholds
    | table es =>
      obtain ⟨hroom, hinner⟩ := room rfl hd
      obtain ⟨hcount, hnil⟩ := h.fits.here
      let heap₁ : Heap := (heap.allocTable (code.table (BitVec.ofNat 32 es.length))).1
      have ht : code.TableFilled heap₁ (heap₁.tables.get heap.tables.next) es.length [] := by
        rw [show heap₁.tables.get heap.tables.next = _ from Store.get_alloc]; exact .start heap₁
      obtain ⟨kvs, heap₀, heap', hput, hx, ht', hfill⟩ := putTable_spec hlaws hcount heap.tables.pos
        (fillable hparts hinner hnil) (Nat.lt_succ_self _ : heap.tables.next < heap₁.tables.next)
        ⟨.refl, .refl, .refl⟩ ht (.nil : Filling code heap₁ (heap.tables.next + 1) [] [])
        (by simp) (by rw [List.nil_append]; exact h.lawful.here) fun f hf => h.lawful.part (mem_keys hf)
      rw [List.nil_append] at hfill
      have hkvs : es.length = kvs.length := List.Forall₂.length_eq hfill
      obtain ⟨hlen, hzip⟩ := zip_entries hfill
      obtain ⟨hblock, hperm⟩ := hlaws.table (by omega) (hkvs ▸ ht')
      refine ⟨Container.word (.table heap.tables.next), heap', ?_, extends_of_newTable hx, .container rfl
        ⟨Nat.le_refl _, heap.tables.pos, Nat.lt_of_lt_of_le (Nat.lt_succ_self _) hx.tables.next_le⟩
        ⟨kvs, rfl, hblock, hperm⟩ hlen fun p hp => (hzip p hp).mono (Nat.le_succ _)⟩
      have halloc : allocating (·.allocTable (code.table (BitVec.ofNat 32 es.length))) heap =
        (.returns heap.tables.next, heap₁) := rfl
      rw [makeRaw, nest_eq hroom, Computation.lift_returns_bind, int32_eq (by omega), Computation.lift_returns_bind,
        Computation.bind_of_returns halloc, Computation.bind_of_returns hput]
      rfl
    | unsupported t => exact absurd h.fits.here id

end SwiftJanet
