import SwiftJanet.Define.JanetDef

/-!
# Entries of an environment

The table that `janet_def` makes for a name. Its keys are keywords, and `janet_table_get_keyword` finds in it what was
put under their bytes (`field_put`).

- `Heap.Entry`: the table has the value under `:value`, perhaps a documentation, and nothing else;
- `Entry.binding`: `janet_binding_from_entry` reads it as a definition of the value;
- `entry_spec`: `janet_def` makes such a table before it names it.
-/

namespace SwiftJanet

open Lib Lib.Probing

/-! ## Keywords as keys -/

/-- An interned keyword. -/
def Heap.IsKeyword (heap : Heap) (x : Janet) : Prop := ∃ p ∈ heap.symcache, x = janetWrapKeyword p

/-- What stands under a keyword in the cells. -/
def Heap.field (heap : Heap) (cells : List JanetKV) (keyword : List UInt8) : Option Janet :=
  lookupCells (heap.keywordSearch keyword) cells janetWrapNil

section Fields

variable {hashing : Heap → Hashing} {heap heap' : Heap} {cells : List JanetKV} {t u : JanetTable} {value : Janet}
  {bytes : List UInt8} {p q : Nat}

theorem pointer_beq (p q : Nat) (hp : 0 < p) : (pointer p == pointer q) = true ↔ p = q := by
  rw [beq_iff_eq, pointer_pos hp]
  constructor
  · intro h
    exact (pointer_eq_some.mp h.symm).1.symm
  · rintro rfl
    exact (pointer_pos hp).symm

theorem keyword_equals_iff (hn : NameLaws hashing) (hp : 0 < p) :
    (hashing heap).equals (janetWrapKeyword p) (janetWrapKeyword q) = true ↔ p = q := by
  rw [hn.keyword_equals]
  show (JanetType.keyword == JanetType.keyword && (pointer p == pointer q)) = true ↔ _
  rw [beq_self_eq_true, Bool.true_and]
  exact pointer_beq p q hp

/-- Interned keywords are lawful keys. -/
theorem keywords_lawful (hn : NameLaws hashing) : LawfulKeys (hashing heap) heap.IsKeyword := by
  refine ⟨?_, ?_, ?_, fun h => mem_probeOrder h⟩
  · rintro _ _ ⟨p, hp, rfl⟩ ⟨q, hq, rfl⟩ h
    have hpq := (keyword_equals_iff hn (heap.interned p hp).1).mp h
    exact (keyword_equals_iff hn (heap.interned q hq).1).mpr hpq.symm
  · rintro _ _ _ ⟨p, hp, rfl⟩ ⟨q, hq, rfl⟩ ⟨r, hr, rfl⟩ h h'
    obtain rfl := (keyword_equals_iff hn (heap.interned p hp).1).mp h
    exact h'
  · rintro _ _ n ⟨p, hp, rfl⟩ ⟨q, hq, rfl⟩ h
    obtain rfl := (keyword_equals_iff hn (heap.interned p hp).1).mp h
    rfl

/-- The test of the search by bytes, on an interned keyword. -/
theorem keywordSearch_equals (hp : 0 < p) :
    (heap.keywordSearch bytes).equals (janetWrapKeyword p) janetWrapNil = (heap.strings.get p == bytes) := by
  simp only [Heap.keywordSearch, janetWrapKeyword, janetChecktype_box, beq_self_eq_true, Bool.true_and,
    janetUnwrapKeyword, janetUnwrapPointer_box, pointer_pos hp]

/-- A search by bytes finds what a search for the keyword with those bytes finds. -/
theorem field_of_mem (hn : NameLaws hashing) (hi : heap.Interned)
    (hkeys : ∀ kv ∈ live cells, heap.IsKeyword kv.key) (hq : q ∈ heap.symcache) :
    heap.field cells (heap.strings.get q) = lookupCells (hashing heap) cells (janetWrapKeyword q) := by
  refine lookupCells_congr ?_ fun kv hkv => ?_
  · rw [hn.keyword_hash]
    rfl
  · obtain ⟨p, hp, hkey⟩ := hkeys kv hkv
    have hpos := (heap.interned p hp).1
    rw [hkey, keywordSearch_equals hpos, Bool.eq_iff_iff, keyword_equals_iff hn hpos, beq_iff_eq]
    constructor
    · exact hi.unique hp hq
    · rintro rfl
      rfl

/-- Nothing is found where no key answers the search. -/
theorem field_of_apart (hcells : 0 < cells.length)
    (h : ∀ kv ∈ live cells, (heap.keywordSearch bytes).equals kv.key janetWrapNil = false) :
    heap.field cells bytes = none := by
  cases hf : heap.field cells bytes with
  | none => rfl
  | some v =>
    obtain ⟨kv, hkv, _, heq⟩ := holds_of_lookupCells hcells hf
    rw [h kv hkv] at heq
    cases heq

/-- Without a keyword of those bytes nothing is found. -/
theorem field_of_not_mem (hcells : 0 < cells.length) (hkeys : ∀ kv ∈ live cells, heap.IsKeyword kv.key)
    (h : ∀ p ∈ heap.symcache, heap.strings.get p ≠ bytes) : heap.field cells bytes = none := by
  apply field_of_apart hcells
  intro kv hkv
  obtain ⟨p, hp, hkey⟩ := hkeys kv hkv
  rw [hkey, keywordSearch_equals (heap.interned p hp).1]
  exact beq_eq_false_iff_ne.mpr (h p hp)

/-- Putting under a keyword changes what stands under its bytes. -/
theorem field_put (hn : NameLaws hashing) (hi : heap.Interned) (hc : CellsInv (hashing heap) heap.IsKeyword t.cells)
    (hq : q ∈ heap.symcache) (hv : janetChecktype value .nil = false)
    (h : janetTablePut (hashing heap) t (janetWrapKeyword q) value = some u) :
    CellsInv (hashing heap) heap.IsKeyword u.cells ∧ u.proto = t.proto ∧ ∀ bytes,
      heap.field u.cells bytes = if bytes = heap.strings.get q then some value else heap.field t.cells bytes := by
  have hs : Storable (janetWrapKeyword q) value := ⟨rfl, fun h => (nomatch h), hv⟩
  obtain ⟨hinv, hproto, hlookup⟩ := inv_put (keywords_lawful hn) hc ⟨q, hq, rfl⟩ hs h
  have hcells : ∀ {cells : List JanetKV}, CellsInv (hashing heap) heap.IsKeyword cells → 0 < cells.length := fun h => by
    rw [← length_slots]
    exact h.nonempty
  refine ⟨hinv, hproto, fun bytes => ?_⟩
  by_cases hmem : ∃ p ∈ heap.symcache, heap.strings.get p = bytes
  · obtain ⟨p, hp, rfl⟩ := hmem
    rw [field_of_mem hn hi (fun kv hkv => keys_of_inv hinv hkv) hp,
      field_of_mem hn hi (fun kv hkv => keys_of_inv hc hkv) hp, hlookup _ ⟨p, hp, rfl⟩]
    congr 1
    rw [keyword_equals_iff hn (heap.interned q hq).1, eq_iff_iff]
    constructor
    · rintro rfl
      rfl
    · exact fun h => (hi.unique hp hq h).symm
  · have hnone : ∀ p ∈ heap.symcache, heap.strings.get p ≠ bytes := fun p hp heq => hmem ⟨p, hp, heq⟩
    rw [field_of_not_mem (hcells hinv) (fun kv hkv => keys_of_inv hinv hkv) hnone,
      field_of_not_mem (hcells hc) (fun kv hkv => keys_of_inv hc hkv) hnone, if_neg]
    exact fun h => hnone q hq h.symm

/-- What stands under keywords does not change while the heap keeps them. -/
theorem field_frame (hk : heap.Keeps p heap') (hkeys : ∀ kv ∈ live cells, heap.IsKeyword kv.key) :
    heap'.field cells bytes = heap.field cells bytes := by
  refine lookupCells_congr rfl fun kv hkv => ?_
  obtain ⟨q, hq, hkey⟩ := hkeys kv hkv
  obtain ⟨hpos, hlt⟩ := heap.interned q hq
  rw [hkey, keywordSearch_equals hpos, keywordSearch_equals hpos, hk.strings.get_eq q hpos hlt (Nat.ne_of_gt hpos)]

theorem Heap.IsKeyword.frame {x : Janet} (h : heap.IsKeyword x) (hk : heap.Keeps p heap') : heap'.IsKeyword x := by
  obtain ⟨q, hq, rfl⟩ := h
  exact ⟨q, hk.symbols q hq, rfl⟩

theorem keywords_frame (hn : NameLaws hashing) (hk : heap.Keeps p heap')
    (hc : CellsInv (hashing heap) heap.IsKeyword cells) : CellsInv (hashing heap') heap'.IsKeyword cells := by
  refine inv_congr hc (fun kv hkv => Heap.IsKeyword.frame (keys_of_inv hc hkv) hk) (fun kv hkv => ?_) fun kv hkv kv' hkv' => ?_
  · obtain ⟨q, hq, hkey⟩ := keys_of_inv hc hkv
    obtain ⟨hpos, hlt⟩ := heap.interned q hq
    rw [hkey, hn.keyword_hash, hn.keyword_hash, hk.strings.get_eq q hpos hlt (Nat.ne_of_gt hpos)]
  · obtain ⟨q, hq, hkey⟩ := keys_of_inv hc hkv'
    rw [hkey, hn.keyword_equals, hn.keyword_equals]

end Fields

/-! ## Entries -/

/-- The table at `p` has keywords for keys, and `f` says what stands under their bytes. -/
structure Heap.Fields (hashing : Heap → Hashing) (heap : Heap) (p : Nat) (f : List UInt8 → Option Janet) : Prop where
  pos : 0 < p
  lt : p < heap.tables.next
  cells : CellsInv (hashing heap) heap.IsKeyword (heap.tables.get p).cells
  proto : (heap.tables.get p).proto = none
  field : ∀ bytes, heap.field (heap.tables.get p).cells bytes = f bytes

/-- What a definition puts into its entry; nil cannot be put. -/
def fieldsOf (value : Janet) (bytes : List UInt8) : Option Janet :=
  if bytes = Text.utf8 "value".toList ∧ janetChecktype value .nil = false then some value else none

/-- The entry of a definition, apart from its documentation. -/
def Heap.Entry (hashing : Heap → Hashing) (heap : Heap) (e : Nat) (value : Janet) : Prop :=
  ∃ f, heap.Fields hashing e f ∧ ∀ bytes, bytes ≠ Text.utf8 "doc".toList → f bytes = fieldsOf value bytes

/-- The value that an entry gives back. -/
def storedValue (value : Janet) : Janet := if janetChecktype value .nil then janetWrapNil else value

section Entries

variable {hashing : Heap → Hashing} {heap heap' : Heap} {value : Janet} {bytes : List UInt8} {e p q : Nat}
  {f : List UInt8 → Option Janet}

theorem fields_new (capacity : BitVec 32) (h : capacity.slt 0#32 = false) :
    (heap.allocTable (janetTable capacity)).1.Fields hashing heap.tables.next fun _ => none := by
  have hget : (heap.allocTable (janetTable capacity)).1.tables.get heap.tables.next = janetTable capacity :=
    Store.get_alloc
  have hsize : 0 < (janetTablen capacity).toNat := by
    apply Nat.pos_of_ne_zero
    intro hzero
    exact janetTablen_ne_zero h (BitVec.eq_of_toNat_eq hzero)
  have hcells : (janetTable capacity).cells = janetMemempty (janetTablen capacity).toNat := by
    rw [janetTable, janetTableInitImpl, if_pos (by omega)]
    rfl
  refine ⟨heap.tables.pos, Nat.lt_succ_self _, ?_, ?_, fun bytes => ?_⟩
  · rw [hget, hcells]
    exact inv_memempty hsize
  · rw [hget, janetTable, janetTableInitImpl, if_pos (by omega)]
  · rw [hget, hcells]
    apply field_of_apart
    · rw [janetMemempty, List.length_replicate]
      exact hsize
    · intro kv hkv
      rw [live_memempty] at hkv
      cases hkv

theorem Heap.Fields.frame (h : heap.Fields hashing e f) (hn : NameLaws hashing) (hk : heap.Keeps p heap') (hne : e ≠ p) :
    heap'.Fields hashing e f := by
  have hget : heap'.tables.get e = heap.tables.get e := hk.tables.get_eq e h.pos h.lt hne
  refine ⟨h.pos, Nat.lt_of_lt_of_le h.lt hk.tables.next_le, ?_, ?_, fun bytes => ?_⟩
  · rw [hget]
    exact keywords_frame hn hk h.cells
  · rw [hget]
    exact h.proto
  · rw [hget, field_frame hk fun kv hkv => keys_of_inv h.cells hkv]
    exact h.field bytes

/-- `janet_table_get_keyword` finds it. -/
theorem Heap.Fields.get (h : heap.Fields hashing e f) (keyword : List UInt8) :
    heap.janetTableGetKeyword (some e) keyword = (f keyword).getD janetWrapNil := by
  rw [Heap.janetTableGetKeyword, janetMaxProtoDepth, janetTableGet_succ, h.proto, Heap.janetTableGet]
  exact congrArg (Option.getD · janetWrapNil) (h.field keyword)

/-- Putting under a keyword. -/
theorem Heap.Fields.put (h : heap.Fields hashing e f) (hn : NameLaws hashing) (hi : heap.Interned) (hq : q ∈ heap.symcache)
    (hv : janetChecktype value .nil = false)
    (hput : tablePut (vmDictionaries hashing) e (janetWrapKeyword q) value heap = (.returns (), heap')) :
    heap'.Fields hashing e fun bytes => if bytes = heap.strings.get q then some value else f bytes := by
  unfold tablePut at hput
  cases hu : (vmDictionaries hashing).tablePut heap (heap.tables.get e) (janetWrapKeyword q) value with
  | none =>
    rw [hu] at hput
    cases hput
  | some u =>
    rw [hu] at hput
    cases hput
    obtain ⟨hinv, hproto, hfield⟩ := field_put hn hi h.cells hq hv hu
    have hk : heap.Keeps e { heap with tables := heap.tables.set e u } :=
      .of_symcache ⟨⟨.refl, .refl, .refl⟩, .refl, Store.extends_set⟩ rfl
    refine ⟨h.pos, h.lt, ?_, ?_, fun bytes => ?_⟩
    · rw [Store.get_set]
      exact keywords_frame hn hk hinv
    · rw [Store.get_set]
      exact hproto.trans h.proto
    · rw [Store.get_set, field_frame hk fun kv hkv => keys_of_inv hinv hkv, hfield, h.field]

/-- Putting nil under a keyword that is not there. -/
theorem Heap.Fields.put_nil (h : heap.Fields hashing e f) (hn : NameLaws hashing) (hi : heap.Interned) (hq : q ∈ heap.symcache)
    (hf : f (heap.strings.get q) = none) (hv : janetChecktype value .nil = true) :
    tablePut (vmDictionaries hashing) e (janetWrapKeyword q) value heap = (.returns (), heap) := by
  have hlookup : lookupCells (hashing heap) (heap.tables.get e).cells (janetWrapKeyword q) = none := by
    rw [← field_of_mem hn hi (fun kv hkv => keys_of_inv h.cells hkv) hq, h.field, hf]
  have hremove : janetTableRemove (hashing heap) (heap.tables.get e) (janetWrapKeyword q) = heap.tables.get e := by
    rw [lookupCells_eq] at hlookup
    unfold janetTableRemove
    cases hfind : janetDictFind (hashing heap) (heap.tables.get e).cells (janetWrapKeyword q) with
    | none => rfl
    | some i =>
      obtain ⟨kv, hkv⟩ := find_cell_of_some hfind
      rw [hfind, Option.bind_some, hkv, Option.bind_some] at hlookup
      refine if_neg fun hocc => ?_
      simp only [occupied, hkv] at hocc
      rw [if_pos (show kv.isLive = true from hocc)] at hlookup
      cases hlookup
  have hput : (vmDictionaries hashing).tablePut heap (heap.tables.get e) (janetWrapKeyword q) value =
      some (heap.tables.get e) := by
    show janetTablePut (hashing heap) (heap.tables.get e) (janetWrapKeyword q) value = _
    have hnil : janetChecktype (janetWrapKeyword q) .nil = false := rfl
    have hnumber : janetChecktype (janetWrapKeyword q) .number = false := rfl
    simp only [janetTablePut, hnil, hnumber, hv, hremove, Bool.false_and, Bool.false_eq_true, if_false, if_true]
  rw [tablePut, hput]
  simp only [Store.set, Function.update_eq_self]

/-- An interned symbol is one with its bytes. -/
theorem janetSymbol_mem (bytes : List UInt8) : (heap.janetSymbol bytes).2 ∈ (heap.janetSymbol bytes).1.symcache := by
  unfold Heap.janetSymbol
  cases h : heap.symcache.find? fun p => heap.strings.get p == bytes with
  | some p => exact List.mem_of_find?_eq_some h
  | none => exact List.mem_cons_self

theorem janetCsymbol_returns {cstr : List UInt8} (h : janetCsymbol cstr heap = (.returns q, heap')) :
    heap.Keeps 0 heap' ∧ q ∈ heap'.symcache ∧ cBytes cstr = some (heap'.strings.get q) := by
  have hk := janetCsymbol_keeps cstr heap
  rw [h] at hk
  unfold janetCsymbol at h
  cases hbytes : cBytes cstr with
  | none =>
    rw [hbytes] at h
    cases h
  | some bytes =>
    rw [hbytes] at h
    cases h
    exact ⟨hk, janetSymbol_mem bytes, congrArg some (janetSymbol_spec heap bytes).2.2.2.symm⟩

/-- `janet_add_meta` at most puts a documentation. -/
theorem addMeta_fields {doc : Option (List UInt8)} (hn : NameLaws hashing) (hi : heap.Interned)
    (h : heap.Fields hashing e f) (hrun : janetAddMeta (vmDictionaries hashing) e doc heap = (.returns (), heap')) :
    ∃ f', heap'.Fields hashing e f' ∧ ∀ bytes, bytes ≠ Text.utf8 "doc".toList → f' bytes = f bytes := by
  cases doc with
  | none =>
    cases hrun
    exact ⟨f, h, fun _ _ => rfl⟩
  | some doc =>
    obtain ⟨q, heap₁, hq, hrun⟩ := Computation.returns_of_bind hrun
    obtain ⟨p, heap₂, hp, hput⟩ := Computation.returns_of_bind hrun
    obtain ⟨hk₁, hmem, hbytes⟩ := janetCsymbol_returns hq
    have hk₂ : heap₁.Keeps 0 heap₂ := Heap.Keeps.of_run (janetCstring_keeps doc) hp
    have hk := hk₁.trans hk₂
    have hdoc : cBytes (Eval.cString "doc".toList) = some (Text.utf8 "doc".toList) := cBytes_cString (by decide) (by decide)
    have hget : heap₂.strings.get q = Text.utf8 "doc".toList := by
      obtain ⟨hpos, hlt⟩ := heap₁.interned q hmem
      rw [hk₂.strings.get_eq q hpos hlt (Nat.ne_of_gt hpos)]
      exact Option.some.inj (hbytes.symm.trans hdoc)
    have hfields := (h.frame hn hk (Nat.ne_of_gt h.pos)).put hn (hk.interned hi) (hk₂.symbols q hmem)
      (show janetChecktype (janetWrapString p) .nil = false from rfl) hput
    refine ⟨_, hfields, fun bytes hne => if_neg ?_⟩
    rw [hget]
    exact hne

/-- **`janet_def` makes an entry with the value**, and changes nothing that was there. -/
theorem entry_spec {doc : Option (List UInt8)} (hn : NameLaws hashing) (hi : heap.Interned)
    (h : janetDefEntry (vmDictionaries hashing) value doc heap = (.returns e, heap')) :
    e = heap.tables.next ∧ heap.Keeps 0 heap' ∧ heap'.Entry hashing e value := by
  have hkeeps := Heap.Keeps.of_run (janetDefEntry_keeps value doc) h
  unfold janetDefEntry at h
  obtain ⟨subt, heap₀, hsubt, h₀⟩ := Computation.returns_of_bind h
  obtain ⟨q, heap₁, hq, h₁⟩ := Computation.returns_of_bind h₀
  obtain ⟨_, heap₂, hput, h₂⟩ := Computation.returns_of_bind h₁
  obtain ⟨_, heap₃, hmeta, h₃⟩ := Computation.returns_of_bind h₂
  cases hsubt
  cases h₃
  obtain ⟨hk₁, hmem, hbytes⟩ := janetCsymbol_returns hq
  have hvalue : cBytes (Eval.cString "value".toList) = some (Text.utf8 "value".toList) :=
    cBytes_cString (by decide) (by decide)
  have hget : heap₁.strings.get q = Text.utf8 "value".toList := Option.some.inj (hbytes.symm.trans hvalue)
  have hi₁ : heap₁.Interned := hk₁.interned (Heap.Interned.frame hi .refl rfl)
  have hnew : heap₁.Fields hashing heap.tables.next fun _ => none :=
    (fields_new 2#32 (by decide)).frame hn hk₁ (Nat.ne_of_gt heap.tables.pos)
  have hk₂ : heap₁.Keeps heap.tables.next heap₂ := Heap.Keeps.of_run (tablePut_keeps _) hput
  -- nil cannot be put, and leaves the table empty
  have hfields : heap₂.Fields hashing heap.tables.next (fieldsOf value) := by
    cases hv : janetChecktype value .nil with
    | false =>
      have hset := hnew.put hn hi₁ hmem hv hput
      rw [hget] at hset
      convert hset using 1
      funext bytes
      simp only [fieldsOf, hv, and_true]
    | true =>
      cases (hnew.put_nil hn hi₁ hmem rfl hv).symm.trans hput
      convert hnew using 1
      funext bytes
      simp only [fieldsOf, hv, Bool.true_eq_false, and_false, if_false]
  obtain ⟨f, hf, hsame⟩ := addMeta_fields hn (hk₂.interned hi₁) hfields hmeta
  exact ⟨rfl, hkeeps, f, hf, hsame⟩

theorem Heap.Entry.frame (h : heap.Entry hashing e value) (hn : NameLaws hashing) (hk : heap.Keeps p heap') (hne : e ≠ p) :
    heap'.Entry hashing e value := by
  obtain ⟨f, hf, hsame⟩ := h
  exact ⟨f, hf.frame hn hk hne, hsame⟩

theorem Heap.Entry.pos (h : heap.Entry hashing e value) : 0 < e := by
  obtain ⟨_, hf, _⟩ := h
  exact hf.pos

/-- **An entry reads as a definition of its value.** -/
theorem Heap.Entry.binding (h : heap.Entry hashing e value) :
    heap.janetBindingFromEntry (janetWrapTable e) = ⟨.bindingDef, storedValue value, .none⟩ := by
  obtain ⟨f, hf, hsame⟩ := h
  have hutf8 : ∀ {k k' : String}, Text.utf8 k.toList = Text.utf8 k'.toList ↔ k = k' := fun {k k'} =>
    ⟨fun h => String.toList_inj.mp (Text.utf8_injective h), fun h => h ▸ rfl⟩
  have hget : ∀ keyword : String, keyword ≠ "doc" →
      heap.janetTableGetKeyword (some e) (Text.utf8 keyword.toList) =
        if keyword = "value" then storedValue value else janetWrapNil := by
    intro keyword hne
    rw [hf.get, hsame _ (fun h => hne (hutf8.mp h))]
    simp only [fieldsOf, hutf8]
    by_cases hvalue : keyword = "value"
    · cases hv : janetChecktype value .nil <;> simp [hvalue, hv, storedValue]
    · simp [hvalue]
  have htable : janetUnwrapTable (janetWrapTable e) = some e := pointer_pos hf.pos
  have hdeprecated := hget "deprecated" (by decide)
  have hmacro := hget "macro" (by decide)
  have href := hget "ref" (by decide)
  have hvalue := hget "value" (by decide)
  rw [if_neg (by decide)] at hdeprecated hmacro href
  rw [if_pos rfl] at hvalue
  have hdef : janetChecktype (janetWrapTable e) .table = true := rfl
  simp only [Heap.janetBindingFromEntry, hdef, htable, hdeprecated, hmacro, href, hvalue]
  rfl

end Entries

end SwiftJanet
