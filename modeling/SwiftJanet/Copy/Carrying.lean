import SwiftJanet.Copy.Carries

/-!
# Making raw values that carry

`makeRaw_carries`: with the VM's dictionaries, the raw value that making returns carries the value, in containers that
the call has made, provided that Janet stores every entry inside (`StoredEntry`), that structs have cells, and that the
numbers inside keys are untagged. The loops over entries carry the invariant that the entries so far are carried, under
keys that stay apart whatever is made later (`Kept`).
-/

namespace SwiftJanet

open Lib JanetValue

/-! ## Entries that are kept -/

variable [CanonicalForm] {hashing : Heap → Hashing}

/-- What making the value returns carries it, in containers that the call has made. -/
def Carried (hashing : Heap → Hashing) (v : JanetValue) : Prop :=
  ∀ {depth heap raw heap'}, makeRaw (vmDictionaries hashing) v depth heap = (.returns raw, heap') →
    Carries (vmDictionaries hashing) heap heap' heap' v raw

/-- The entries `es` are carried by `kvs`, under keys that stay apart whatever happens to the table at `p`. -/
structure Kept (hashing : Heap → Hashing) (base heap : Heap) (p : Nat) (es : List (JanetValue × JanetValue))
    (kvs : List JanetKV) : Prop where
  carries : List.Forall₂ (fun e kv => Carries (vmDictionaries hashing) base heap heap e.1 kv.key ∧
    Carries (vmDictionaries hashing) base heap heap e.2 kv.value) es kvs
  apart : kvs.Pairwise fun a b => ∀ heap', heap.Extends p heap' → heap'.ToldApart a.key b.key

section Entries

variable {base heap heap₁ heap₂ heap' : Heap} {p inner count : Nat} {es ds : List (JanetValue × JanetValue)}
  {kvs : List JanetKV} {e : JanetValue × JanetValue} {key value : Janet} {st st' start : StructBuilder}

omit [CanonicalForm] in
/-- What is kept stays kept while only the table changes. -/
theorem Kept.frame (h : Kept hashing base heap p es kvs) (hx : heap.Extends p heap') (hp : p < base.tables.next) :
    Kept hashing base heap' p es kvs :=
  ⟨h.carries.imp fun _ _ ⟨hk, hv⟩ => ⟨hk.later hx hp, hv.later hx hp⟩,
    h.apart.imp fun hapart heap'' hx' => hapart heap'' (hx.trans hx')⟩

omit [CanonicalForm] in
/-- What was made before and what was made after a heap are different containers. -/
theorem since_disjoint {mid top : Heap} (c : Container) (h : base.Since mid c) : ¬mid.Since top c := by
  intro h'
  cases c with
  | tuple q | array q | struct q | table q => exact Nat.lt_irrefl _ (Nat.lt_of_lt_of_le h.2 h'.1)

/-- **One more entry.** Its key is in containers of its own, so it is told apart from the keys so far. -/
theorem Kept.put (h : Kept hashing base heap p ds kvs) (hbase : base.Extends p heap) (hp : p < base.tables.next)
    (hkey : makeRaw (vmDictionaries hashing) e.1 inner heap = (.returns key, heap₁))
    (hvalue : makeRaw (vmDictionaries hashing) e.2 inner heap₁ = (.returns value, heap₂))
    (hcarried : Carried hashing e.1 ∧ Carried hashing e.2)
    (hl : ∀ d ∈ ds ++ [e], Lawful d.1) (hu : 0 < ds.length → ∀ d ∈ ds ++ [e], All UntaggedNumbers d.1)
    (hd : Assoc.Distinct equal (ds ++ [e])) :
    Kept hashing base heap₂ p (ds ++ [e]) (kvs ++ [⟨key, value⟩]) := by
  have hx₁ : heap.Extends 0 heap₁ := extends_of_makeRaw hkey
  have hx₂ : heap₁.Extends 0 heap₂ := extends_of_makeRaw hvalue
  have hx : heap.Extends p heap₂ := hx₁.weaken.trans hx₂.weaken
  have hk := hcarried.1 hkey
  have hv := hcarried.2 hvalue
  have hk₂ : Carries (vmDictionaries hashing) base heap₂ heap₂ e.1 key :=
    (hk.later hx₂ heap.tables.pos).widen hbase (@Heap.Extends.refl heap₂ 0)
  have hv₂ : Carries (vmDictionaries hashing) base heap₂ heap₂ e.2 value :=
    hv.widen (hbase.trans hx₁.weaken) (@Heap.Extends.refl heap₂ 0)
  have hold := h.frame hx hp
  refine ⟨List.rel_append hold.carries (.cons ⟨hk₂, hv₂⟩ .nil), ?_⟩
  refine List.pairwise_append.mpr ⟨hold.apart, List.pairwise_singleton .., fun kv hkv x hm heap' hx' => ?_⟩
  obtain rfl := List.mem_singleton.mp hm
  obtain ⟨d, hdm, hcarry, -⟩ := Assoc.partner_of_mem h.carries.flip hkv
  have hpnext : p < heap.tables.next := Nat.lt_of_lt_of_le hp hbase.tables.next_le
  have hold' := hcarry.frame (hx.trans hx') hp
  have hnew := hk.frame (hx₂.weaken.trans hx') hpnext
  -- there is a key before this one
  have hboth := hu (List.length_pos_of_mem hdm)
  refine hold'.toldApart (hl d (by simp [hdm])) (hboth d (by simp [hdm])) hnew (hl e (by simp)) (hboth e (by simp))
    (fun c hc => since_disjoint c hc) ?_
  exact (List.pairwise_append.mp hd).2.2 d hdm e (by simp)

omit [CanonicalForm] in
theorem Kept.puttable (h : Kept hashing base heap p (ds ++ [e]) (kvs ++ [⟨key, value⟩])) (hs : Storable key value) :
    Puttable heap kvs ⟨key, value⟩ :=
  ⟨hs.key_not_nil, hs.key_not_nan, hs.value_not_nil, List.pairwise_map.mpr (h.apart.imp fun hapart =>
    hapart heap .refl)⟩

/-- What is needed of the entries still to be put. -/
structure ToKeep (hashing : Heap → Hashing) (ds es : List (JanetValue × JanetValue)) : Prop where
  carried : ∀ e ∈ es, Carried hashing e.1 ∧ Carried hashing e.2
  stored : ∀ e ∈ es, StoredEntry e
  lawful : ∀ e ∈ ds ++ es, Lawful e.1
  untagged : 1 < (ds ++ es).length → ∀ e ∈ ds ++ es, All UntaggedNumbers e.1
  distinct : Assoc.Distinct equal (ds ++ es)

theorem ToKeep.next (h : ToKeep hashing ds (e :: es)) : ToKeep hashing (ds ++ [e]) es :=
  ⟨fun d hd => h.carried d (List.mem_cons_of_mem _ hd), fun d hd => h.stored d (List.mem_cons_of_mem _ hd),
    by rw [← List.append_cons]; exact h.lawful, by rw [← List.append_cons]; exact h.untagged,
    by rw [← List.append_cons]; exact h.distinct⟩

/-- The next entry is kept. -/
theorem ToKeep.put (h : ToKeep hashing ds (e :: es)) (hkept : Kept hashing base heap p ds kvs)
    (hbase : base.Extends p heap) (hp : p < base.tables.next)
    (hkey : makeRaw (vmDictionaries hashing) e.1 inner heap = (.returns key, heap₁))
    (hvalue : makeRaw (vmDictionaries hashing) e.2 inner heap₁ = (.returns value, heap₂)) :
    Kept hashing base heap₂ p (ds ++ [e]) (kvs ++ [⟨key, value⟩]) ∧ Puttable heap₂ kvs ⟨key, value⟩ := by
  have hso : ∀ {d}, d ∈ ds ++ [e] → d ∈ ds ++ e :: es := fun hd => by
    rw [List.append_cons]
    exact List.mem_append_left _ hd
  have hput := hkept.put hbase hp hkey hvalue (h.carried e (by simp)) (fun d hd => h.lawful d (hso hd))
    (fun hlen d hd => h.untagged (by rw [List.length_append, List.length_cons]; omega) d (hso hd)) (by
      have hdistinct := h.distinct
      rw [List.append_cons] at hdistinct
      exact (List.pairwise_append.mp hdistinct).1)
  exact ⟨hput, hput.puttable ((storable_iff hkey hvalue).mpr (h.stored e (by simp)))⟩

end Entries

/-! ## Values -/

section Values

variable {heap heap' : Heap} {inner : Nat} {v : JanetValue}

/-- The numbers inside the keys of a dictionary with several entries are untagged. -/
def UntaggedKeys : JanetValue → Prop
  | .struct es | .table es => 1 < es.length → ∀ e ∈ es, All UntaggedNumbers e.1
  | _ => True

/-- What making needs of a value to keep all of it. -/
structure Keepable (v : JanetValue) : Prop where
  lawful : Lawful v
  untagged : All UntaggedKeys v
  stored : All EntriesStored v
  small : All SmallStruct v

theorem Keepable.part {w : JanetValue} (h : Keepable v) (hw : w ∈ v.parts) : Keepable w :=
  ⟨h.lawful.part hw, h.untagged.part hw, h.stored.part hw, h.small.part hw⟩

end Values

end SwiftJanet
