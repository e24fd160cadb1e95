import SwiftJanet.Lib.Assoc
import SwiftJanet.VM.Layout
import SwiftJanet.VM.Script

/-!
# Structs are determined by their entries

A struct that is built from a list of entries is the finite map that the list describes, in which the last value put
under a key counts (`build_spec`, `rawget_eq`). Equal maps have equal cells: `janet_equals` compares two structs cell by
cell, and answers that they are equal exactly when they give equal values to all keys (`equals_iff_rawget`), whatever
the order in which they were built.
-/

namespace SwiftJanet

open Lib Lib.Comparison

/-- A struct as `janet_struct_end` leaves it when no pair was refused. -/
structure JanetStruct.Robin (hashing : Hashing) (P : Janet → Prop) (s : JanetStruct) : Prop where
  stable : ∃ b ≤ 30, RobinHood.Stable (2 ^ b) (home hashing (2 ^ b)) (tie hashing) P (layout s.data)
  blank : ∀ kv ∈ s.data, kv.isLive = false → kv = ⟨janetWrapNil, janetWrapNil⟩
  storable : ∀ kv ∈ live s.data, Storable kv.key kv.value
  room : s.length < s.data.length
  wellBuilt : s.WellBuilt

/-- Build a struct from a list of entries, as `struct` and `janet_struct_begin` … `janet_struct_end` do. -/
def buildStruct (hashing : Hashing) (kvs : List JanetKV) (proto : Option Nat) : Option JanetStruct := do
  janetStructEnd hashing (← structPutAll hashing (janetStructBegin (BitVec.ofNat 32 kvs.length)) kvs) proto

section Build

variable {hashing : Hashing} {P : Janet → Prop} {b n : Nat} {st : StructBuilder} {key value : Janet} {kv kv' : JanetKV}
  {kvs : List JanetKV} {proto : Option Nat}

/-- **Puts keep the invariant, and add to the finite map.** -/
theorem robin_putAll (ho : hashing.Orders P) (hb : b ≤ 30) : ∀ {kvs : List JanetKV} {st : StructBuilder},
    st.Robin hashing P b → (∀ kv ∈ kvs, Storable kv.key kv.value → P kv.key) → st.count + kvs.length ≤ st.length →
      (putAllCells hashing st kvs).Robin hashing P b ∧ (putAllCells hashing st kvs).length = st.length ∧
        (putAllCells hashing st kvs).cells.length = st.cells.length ∧
        ∀ key, P key → lookup hashing (putAllCells hashing st kvs).cells key =
          (lastPut hashing kvs key).or (lookup hashing st.cells key)
  | [], st, h, _, _ => ⟨h, rfl, rfl, fun _ _ => rfl⟩
  | kv :: kvs, st, h, hkvs, hlen => by
    rw [List.length_cons] at hlen
    have hcount : st.count ≠ st.length := by omega
    have hsteps := @steps_putCells hashing st kv.key kv.value true
    have hput := robin_put ho hb h (hkvs kv List.mem_cons_self) hcount
    have hroom : (structPutCells hashing st kv.key kv.value true).count + kvs.length ≤
        (structPutCells hashing st kv.key kv.value true).length := by
      have hold := h.count
      have hnew := hput.count
      have hle := hsteps.live_le
      rw [hsteps.length]
      omega
    obtain ⟨hall, hlength, hcells, hlookup⟩ :=
      robin_putAll ho hb hput (fun kv' hkv' => hkvs kv' (List.mem_cons_of_mem _ hkv')) hroom
    refine ⟨hall, hlength.trans hsteps.length, hcells.trans hsteps.cells, fun key hkey => ?_⟩
    have hone := lookup_put ho hb h (hkvs kv List.mem_cons_self) hkey hcount
    rw [putAllCells] at hlookup ⊢
    rw [List.foldl_cons, hlookup key hkey, hone, lastPut, Option.or_assoc]

/-! ## Entries -/

section Entries

variable {cells : List JanetKV}

/-- What is found is in a cell. -/
theorem lookup_iff_mem (ho : hashing.Orders P) (hb : b ≤ 30)
    (hs : RobinHood.Stable (2 ^ b) (home hashing (2 ^ b)) (tie hashing) P (layout cells)) (hk : P key) :
    lookup hashing cells key = some value ↔
      ∃ kv ∈ live cells, P kv.key ∧ hashing.compare kv.key key = 0 ∧ kv.value = value := by
  have hcap : cells.length = 2 ^ b := by
    rw [← length_layout]
    exact hs.length
  rw [lookup, hcap, RobinHood.find_eq_some (ho.lawful hb) hs hk]
  constructor
  · rintro ⟨e, ⟨i, hi⟩, hsame, rfl⟩
    exact ⟨⟨e.1, e.2⟩, holds_layout.mp ⟨i, hi⟩, hs.keys hi, (ho.tie_eq (hs.keys hi) hk).mp hsame, rfl⟩
  · rintro ⟨kv, hkv, hkey, hsame, rfl⟩
    exact ⟨(kv.key, kv.value), holds_layout.mpr hkv, (ho.tie_eq hkey hk).mpr hsame, rfl⟩

/-- The keys in the cells can be ordered, and are told apart. -/
theorem live_separate (ho : hashing.Orders P)
    (hs : RobinHood.Stable (2 ^ b) (home hashing (2 ^ b)) (tie hashing) P (layout cells)) :
    (∀ kv ∈ live cells, P kv.key) ∧ (live cells).Pairwise (Separate hashing) := by
  have hentry : ∀ {i : Nat} {kv : JanetKV}, cells[i]? = some kv → kv.isLive = true →
      (layout cells)[i]? = some (some (kv.key, kv.value)) := fun hi hlive => by
    rw [getElem?_layout, hi, Option.map_some, entryOf_live hlive]
  refine ⟨fun kv hkv => ?_, List.pairwise_filter.mpr (List.pairwise_iff_getElem.mpr fun i j hi hj hij hlive hlive' => ?_)⟩
  · obtain ⟨hmem, hlive⟩ := List.mem_filter.mp hkv
    obtain ⟨i, hi⟩ := List.mem_iff_getElem?.mp hmem
    exact hs.keys (hentry hi hlive)
  · have hi' := hentry (List.getElem?_eq_getElem hi) hlive
    have hj' := hentry (List.getElem?_eq_getElem hj) hlive'
    have hne : ∀ {i j : Nat} {e f : Janet × Janet}, (layout cells)[i]? = some (some e) →
        (layout cells)[j]? = some (some f) → i ≠ j → hashing.compare e.1 f.1 ≠ 0 := fun he hf hij hzero =>
      hij (hs.apart he hf ((ho.tie_eq (hs.keys he) (hs.keys hf)).mpr hzero))
    exact ⟨hne hi' hj' (Nat.ne_of_lt hij), hne hj' hi' (Nat.ne_of_gt hij)⟩

/-- The value that a list gives a key comes from one of its entries. -/
theorem mem_of_lastPut : ∀ {kvs : List JanetKV}, lastPut hashing kvs key = some value →
    ∃ kv ∈ kvs, Storable kv.key kv.value ∧ hashing.compare kv.key key = 0 ∧ kv.value = value
  | kv :: kvs, h => by
    rw [lastPut, Option.or_eq_some_iff] at h
    rcases h with h | ⟨-, h⟩
    · obtain ⟨kv', hkv', hrest⟩ := mem_of_lastPut h
      exact ⟨kv', List.mem_cons_of_mem _ hkv', hrest⟩
    · split at h
      · next hthis =>
        rw [Bool.and_eq_true, beq_iff_eq, storable_eq_true] at hthis
        exact ⟨kv, List.mem_cons_self, hthis.1, hthis.2, Option.some.inj h⟩
      · cases h

/-- An entry gives its key a value. -/
theorem lastPut_isSome : ∀ {kvs : List JanetKV}, kv ∈ kvs → Storable kv.key kv.value → hashing.compare kv.key key = 0 →
    (lastPut hashing kvs key).isSome
  | kv' :: kvs, hmem, hs, hsame => by
    rw [lastPut, Option.isSome_or, Bool.or_eq_true]
    rcases List.mem_cons.mp hmem with rfl | hmem
    · refine Or.inr ?_
      rw [if_pos (by rw [Bool.and_eq_true, beq_iff_eq, storable_eq_true]; exact ⟨hs, hsame⟩)]
      rfl
    · exact Or.inl (lastPut_isSome hmem hs hsame)

end Entries

/-- Entries that are told apart are all added. -/
theorem count_putAll : ∀ {kvs : List JanetKV} {st : StructBuilder}, (∀ kv ∈ kvs, Storable kv.key kv.value) →
    (kvs ++ live st.cells).Pairwise (Separate hashing) → st.count + kvs.length ≤ st.length →
      (live st.cells).length + kvs.length ≤ st.cells.length →
        (putAllCells hashing st kvs).count = st.count + kvs.length
  | [], st, _, _, _, _ => by simp [putAllCells]
  | kv :: kvs, st, hs, hsep, hlen, hroom => by
    rw [List.length_cons] at hlen hroom
    have hsep' : (kv :: live st.cells ++ kvs).Pairwise (Separate hashing) :=
      hsep.perm (List.Perm.cons _ List.perm_append_comm) fun h => h.symm
    obtain ⟨hcount, hlive⟩ := putCells_separate (hs kv List.mem_cons_self) (by omega) (by omega)
      (List.pairwise_append.mp hsep').1
    have hsteps := @steps_putCells hashing st kv.key kv.value true
    have hlive' := hlive.length_eq
    rw [List.length_cons] at hlive'
    have hrest := @count_putAll kvs (structPutCells hashing st kv.key kv.value true)
      (fun kv' hkv' => hs kv' (List.mem_cons_of_mem _ hkv'))
      (hsep'.perm (List.perm_append_comm.trans (hlive.symm.append_left kvs)) fun h => h.symm)
      (by rw [hcount, hsteps.length]; omega) (by rw [hsteps.cells]; omega)
    rw [putAllCells] at hrest ⊢
    rw [List.foldl_cons, hrest, hcount, List.length_cons]
    push_cast
    omega

/-- All announced entries are there. -/
theorem StructBuilder.Robin.struct (hb : b ≤ 30) (h : st.Robin hashing P b) (hfull : st.count = st.length)
    (hcap : st.cells.length = (janetStructBegin (BitVec.ofNat 32 (live st.cells).length)).cells.length) :
    JanetStruct.Robin hashing P ⟨st.length.toNat, st.cells, proto⟩ := by
  have hcount := h.count
  have hroom := h.room
  have hlength : st.length.toNat = (live st.cells).length := by omega
  refine ⟨⟨b, hb, h.stable⟩, h.blank, h.storable, ?_, ⟨hlength, ?_⟩⟩
  · show st.length.toNat < st.cells.length
    omega
  · show st.cells.length = (janetStructBegin (BitVec.ofNat 32 st.length.toNat)).cells.length
    rw [hlength, hcap]

/-- **Building a struct**: the struct is the finite map that the entries describe. When some were put twice or ignored,
it is built once more, for as many entries as are left. -/
theorem build_spec (ho : hashing.Orders P) (hkvs : ∀ kv ∈ kvs, Storable kv.key kv.value → P kv.key)
    (hn : kvs.length < 2 ^ 29) : ∃ s, buildStruct hashing kvs proto = some s ∧ s.Robin hashing P ∧ s.proto = proto ∧
      ∀ key, P key → lookup hashing s.data key = lastPut hashing kvs key := by
  have hempty : ∀ {m : Nat}, m < 2 ^ 29 → ∀ key : Janet,
      lookup hashing (janetStructBegin (BitVec.ofNat 32 m)).cells key = none ∧
        live (janetStructBegin (BitVec.ofNat 32 m)).cells = [] := fun {m} hm key => by
    obtain ⟨_, _, _, k, hcells⟩ := @begin_capacity m (by omega)
    rw [hcells, live_memempty]
    refine ⟨Option.eq_none_iff_forall_ne_some.mpr fun v hv => ?_, rfl⟩
    obtain ⟨e, he, _⟩ := RobinHood.holds_of_findLoop hv
    have hmem := holds_layout.mp he
    rw [live_memempty] at hmem
    cases hmem
  obtain ⟨b, hb, hbegin⟩ := @robin_begin hashing P kvs.length hn
  obtain ⟨hlength₀, hcount₀, hroom₀, _⟩ := @begin_capacity kvs.length (by omega)
  obtain ⟨hst, hlength, hcells, hlookup⟩ := robin_putAll ho hb hbegin hkvs (by rw [hcount₀, hlength₀]; omega)
  rw [buildStruct, structPutAll_eq (Nat.zero_lt_of_lt hroom₀)]
  show ∃ s, janetStructEnd hashing _ proto = some s ∧ _
  rw [janetStructEnd]
  generalize putAllCells hashing (janetStructBegin (BitVec.ofNat 32 kvs.length)) kvs = st at hst hlength hcells hlookup ⊢
  have hcount := hst.count
  have hle := hst.le
  by_cases hfull : st.count = st.length
  · rw [if_neg (by simpa using hfull)]
    have hlive : (live st.cells).length = kvs.length := by omega
    refine ⟨_, rfl, hst.struct hb hfull (by rw [hlive, hcells]), rfl, fun key hkey => ?_⟩
    rw [hlookup key hkey, (hempty hn key).1, Option.or_none]
  · rw [if_pos hfull]
    -- the second time every entry has its own key
    have hn' : (live st.cells).length < 2 ^ 29 := by omega
    obtain ⟨hkeys, hsep⟩ := live_separate ho hst.stable
    obtain ⟨b', hb', hbegin'⟩ := @robin_begin hashing P (live st.cells).length hn'
    obtain ⟨hlength₁, hcount₁, hroom₁, _⟩ := @begin_capacity (live st.cells).length (by omega)
    have hbits : BitVec.ofInt 32 st.count = BitVec.ofNat 32 (live st.cells).length := by rw [hcount]; rfl
    obtain ⟨hst', hlength', hcells', hlookup'⟩ := robin_putAll ho hb' hbegin' (fun kv hkv _ => hkeys kv hkv)
      (by rw [hcount₁, hlength₁]; omega)
    have hall := @count_putAll hashing (live st.cells) (janetStructBegin (BitVec.ofNat 32 (live st.cells).length))
      hst.storable (by rw [(hempty hn' janetWrapNil).2, List.append_nil]; exact hsep)
      (by rw [hcount₁, hlength₁]; omega) (by rw [(hempty hn' janetWrapNil).2, List.length_nil]; omega)
    rw [hbits, structPutAll_eq (Nat.zero_lt_of_lt hroom₁)]
    generalize putAllCells hashing (janetStructBegin (BitVec.ofNat 32 (live st.cells).length)) (live st.cells) = st'
      at hst' hlength' hcells' hlookup' hall ⊢
    have hcount' := hst'.count
    have hfull' : st'.count = st'.length := by omega
    have hlive' : (live st'.cells).length = (live st.cells).length := by omega
    refine ⟨_, rfl, hst'.struct hb' hfull' (by rw [hlive', hcells']), rfl, fun key hkey => ?_⟩
    rw [hlookup' key hkey, (hempty hn' key).1, Option.or_none]
    have hold := hlookup key hkey
    rw [(hempty hn key).1, Option.or_none] at hold
    rw [← hold]
    refine Option.ext fun v => ?_
    rw [lookup_iff_mem ho hb hst.stable hkey]
    constructor
    · intro hv
      obtain ⟨kv, hkv, _, hsame, rfl⟩ := mem_of_lastPut hv
      exact ⟨kv, hkv, hkeys kv hkv, hsame, rfl⟩
    · rintro ⟨kv, hkv, hkeyP, hsame, rfl⟩
      obtain ⟨v', hv'⟩ := Option.isSome_iff_exists.mp (lastPut_isSome hkv (hst.storable kv hkv) hsame)
      obtain ⟨kv', hkv', _, hsame', rfl⟩ := mem_of_lastPut hv'
      have hfirst := (lookup_iff_mem ho hb hst.stable hkey).mpr ⟨kv, hkv, hkeyP, hsame, rfl⟩
      have hsecond := (lookup_iff_mem ho hb hst.stable hkey).mpr ⟨kv', hkv', hkeys kv' hkv', hsame', rfl⟩
      rw [hv', ← hsecond, hfirst]

end Build

/-! ## Looking up -/

section Rawget

variable {hashing : Hashing} {P : Janet → Prop} {b : Nat} {key : Janet} {cells : List JanetKV} {s s' : JanetStruct}

/-- The search of `janet_struct_find` is the one of the library. -/
theorem findLoop_eq (ho : hashing.Orders P) (hkeys : ∀ kv ∈ live cells, P kv.key)
    (hblank : ∀ kv ∈ cells, kv.isLive = false → kv = ⟨janetWrapNil, janetWrapNil⟩) (hk : P key) : ∀ is : List Nat,
      ((structFindLoop hashing cells key is).bind fun i => cells[i]?).elim janetWrapNil JanetKV.value =
        (RobinHood.findLoop (tie hashing) (layout cells) key is).getD janetWrapNil
  | [] => rfl
  | i :: is => by
    have ih := findLoop_eq ho hkeys hblank hk is
    rw [structFindLoop, RobinHood.findLoop, getElem?_layout]
    cases hi : cells[i]? with
    | none => rfl
    | some kv =>
      have hmem := List.mem_of_getElem? hi
      simp only [Option.map_some]
      cases hlive : kv.isLive with
      | false =>
        have hdead : janetChecktype kv.key .nil = true := by simpa [JanetKV.isLive] using hlive
        rw [entryOf_dead hlive, hdead, Bool.true_or, if_pos rfl, Option.bind_some, hi, hblank kv hmem hlive]
        rfl
      | true =>
        have hkv : janetChecktype kv.key .nil = false := by simpa [JanetKV.isLive] using hlive
        have hkey := hkeys kv (List.mem_filter.mpr ⟨hmem, hlive⟩)
        rw [entryOf_live hlive, hkv, Bool.false_or, ho.equals hkey hk]
        simp only [ho.tie_eq hkey hk, decide_eq_true_eq]
        by_cases hsame : hashing.compare kv.key key = 0
        · rw [if_pos hsame, if_pos hsame, Option.bind_some, hi]
          rfl
        · rw [if_neg hsame, if_neg hsame]
          exact ih

/-- `janet_struct_rawget` looks a key up in the finite map. -/
theorem rawget_eq (ho : hashing.Orders P) (h : s.Robin hashing P) (hk : P key) :
    janetStructRawget hashing s.data key = (lookup hashing s.data key).getD janetWrapNil := by
  obtain ⟨b, hb, hstable⟩ := h.stable
  have hcap : s.data.length = 2 ^ b := by
    rw [← length_layout]
    exact hstable.length
  have hhome : home hashing (2 ^ b) key < 2 ^ b := home_lt hb
  rw [janetStructRawget, janetStructFind, findLoop_eq ho (live_separate ho hstable).1 h.blank hk, lookup, RobinHood.find,
    hcap, ← probe_eq_ring hhome, home]

/-- What is found is nil or a value of a cell. -/
theorem all_rawget (ho : hashing.Orders P) (h : s.Robin hashing P) {Q : Janet → Prop} (hnil : Q janetWrapNil)
    (hall : CellsAll Q s.data) (hk : P key) : Q (janetStructRawget hashing s.data key) := by
  rw [rawget_eq ho h hk]
  cases hv : lookup hashing s.data key with
  | none => exact hnil
  | some v =>
    obtain ⟨b, hb, hstable⟩ := h.stable
    obtain ⟨kv, hkv, _, _, rfl⟩ := (lookup_iff_mem ho hb hstable hk).mp hv
    exact (hall kv (List.mem_filter.mp hkv).1).2

/-! ## One layout for every map -/

theorem JanetStruct.Robin.free (h : s.Robin hashing P) : none ∈ layout s.data := by
  apply none_mem_layout
  rw [← h.wellBuilt.length]
  exact h.room

/-- With a partner for every key there are as many entries. -/
theorem length_live_le (ho : hashing.Orders P) (h : s.Robin hashing P) (h' : s'.Robin hashing P)
    (hkeys : ∀ key, P key → (lookup hashing s.data key).isSome → (lookup hashing s'.data key).isSome) :
    (live s.data).length ≤ (live s'.data).length := by
  obtain ⟨b, hb, hstable⟩ := h.stable
  obtain ⟨b', hb', hstable'⟩ := h'.stable
  obtain ⟨hP, hsep⟩ := live_separate ho hstable
  obtain ⟨hP', _⟩ := live_separate ho hstable'
  refine Assoc.length_le_of_partners (R := fun kv kv' => P kv.key ∧ hashing.compare kv'.key kv.key = 0)
    (fun kv hkv => ?_) (hsep.imp_of_mem fun {kv kv'} hkv hkv' hne y hy hR hR' => ?_)
  · have hself : hashing.compare kv.key kv.key = 0 := Option.some.inj (ho.sorts.refl (hP kv hkv))
    have hfound := (lookup_iff_mem ho hb hstable (hP kv hkv)).mpr ⟨kv, hkv, hP kv hkv, hself, rfl⟩
    obtain ⟨v, hv⟩ := Option.isSome_iff_exists.mp (hkeys kv.key (hP kv hkv) (by rw [hfound]; rfl))
    obtain ⟨kv', hkv', _, hsame, _⟩ := (lookup_iff_mem ho hb' hstable' (hP kv hkv)).mp hv
    exact ⟨kv', hkv', hP kv hkv, hsame⟩
  · have hback := ho.sorts.symm (hP' y hy) hR.1 (congrArg some hR.2)
    have hsame := ho.sorts.congr hR.1 (hP' y hy) hR'.1 hback
    rw [hR'.2] at hsame
    exact hne.1 (Option.some.inj hsame)

/-- **Structs that give values to the same keys have the same key in every cell.** -/
theorem robin_unique (ho : hashing.Orders P) (h : s.Robin hashing P) (h' : s'.Robin hashing P)
    (hkeys : ∀ key, P key → ((lookup hashing s.data key).isSome ↔ (lookup hashing s'.data key).isSome)) :
    s.data.length = s'.data.length ∧ ∀ {i : Nat} {kv : JanetKV}, s.data[i]? = some kv → kv.isLive = true →
      ∃ kv', s'.data[i]? = some kv' ∧ kv'.isLive = true ∧ hashing.compare kv.key kv'.key = 0 := by
  have hle := length_live_le ho h h' fun key hk => (hkeys key hk).mp
  have hge := length_live_le ho h' h fun key hk => (hkeys key hk).mpr
  have hlength : s.length = s'.length := by
    rw [h.wellBuilt.length, h'.wellBuilt.length]
    omega
  have hcap : s.data.length = s'.data.length := by rw [h.wellBuilt.capacity, h'.wellBuilt.capacity, hlength]
  refine ⟨hcap, fun {i kv} hi hlive => ?_⟩
  obtain ⟨b, hb, hstable⟩ := h.stable
  obtain ⟨b', hb', hstable'⟩ := h'.stable
  have hpow : 2 ^ b' = 2 ^ b := by
    have hlen := hstable.length
    have hlen' := hstable'.length
    rw [length_layout] at hlen hlen'
    omega
  rw [hpow] at hstable'
  -- every key of one table is in the other one
  have hwithin : ∀ {t t' : JanetStruct} {c : Nat}, c ≤ 30 → t'.Robin hashing P →
      RobinHood.Stable (2 ^ c) (home hashing (2 ^ c)) (tie hashing) P (layout t.data) →
        (∀ key, P key → (lookup hashing t.data key).isSome → (lookup hashing t'.data key).isSome) →
          RobinHood.Within (tie hashing) (layout t.data) (layout t'.data) := by
    intro t t' c hc ht' ht hsub e he
    have hmem := holds_layout.mp he
    have hPe := (live_separate ho ht).1 _ hmem
    have hself : hashing.compare e.1 e.1 = 0 := Option.some.inj (ho.sorts.refl hPe)
    have hfound := (lookup_iff_mem ho hc ht hPe).mpr ⟨_, hmem, hPe, hself, rfl⟩
    obtain ⟨v, hv⟩ := Option.isSome_iff_exists.mp (hsub e.1 hPe (by rw [hfound]; rfl))
    obtain ⟨c', hc', ht'⟩ := ht'.stable
    obtain ⟨kv', hkv', hP', hsame, _⟩ := (lookup_iff_mem ho hc' ht' hPe).mp hv
    exact ⟨(kv'.key, kv'.value), holds_layout.mpr hkv',
      (ho.tie_eq hPe hP').mpr (Option.some.inj (ho.sorts.symm hP' hPe (congrArg some hsame)))⟩
  have hentry : (layout s.data)[i]? = some (some (kv.key, kv.value)) := by
    rw [getElem?_layout, hi, Option.map_some, entryOf_live hlive]
  obtain ⟨f, hf, hsame⟩ := RobinHood.stable_unique (ho.lawful hb) hstable hstable' h.free h'.free
    (hwithin hb h' hstable fun key hk => (hkeys key hk).mp)
    (hwithin hb h hstable' fun key hk => (hkeys key hk).mpr) hentry
  have hzero := (ho.tie_eq (hstable.keys hentry) (hstable'.keys hf)).mp hsame
  rw [getElem?_layout, Option.map_eq_some_iff] at hf
  obtain ⟨kv', hi', hkv'⟩ := hf
  obtain ⟨hlive', rfl⟩ := entryOf_eq_some.mp hkv'
  exact ⟨_, hi', hlive', hzero⟩

end Rawget

/-! ## Structs on the heap -/

/-- The VM's own hash, equality and order, for values that nest at most `n` deep. -/
def Heap.hashing (types : AbstractTypes) (n : Nat) (heap : Heap) : Hashing where
  hash x := (heap.janetHash types n x).getD 0#32
  equals x y := (heap.janetEquals n x y).getD false
  compare x y := (heap.janetCompare types n x y).getD 0

section Heap

variable {types : AbstractTypes} {heap : Heap} {n p q : Nat} {x y : Janet}

/-- What can be compared has an answer. -/
theorem compare_hashing (hl : types.Lawful heap) (hx : heap.Comparable n x) (hy : heap.Comparable n y) :
    heap.janetCompare types n x y = some ((heap.hashing types n).compare x y) := by
  have hanswer := (sorts_janetCompare hl n).answers hx hy
  show _ = some ((heap.janetCompare types n x y).getD 0)
  rcases hanswer with h | h | h <;> rw [h] <;> rfl

/-- The VM's hash, equality and order agree on what can be compared. -/
theorem orders_hashing (hl : types.Lawful heap) (hi : heap.Interned) :
    (heap.hashing types n).Orders (heap.Comparable n) where
  sorts := (sorts_janetCompare hl n).of_eq fun ha hb => (compare_hashing hl ha hb).symm
  equals {x y} hx hy := by
    have hagree := (agree_of_comparable hl hi n hx hy).equals
    show (heap.janetEquals n x y).getD false = _
    rw [hagree, compare_hashing hl hx hy]
    simp
  hash {x y} hx hy hzero := by
    have hagree := (agree_of_comparable hl hi n hx hy).hash (by rw [compare_hashing hl hx hy, hzero])
    show (heap.janetHash types n x).getD 0#32 = (heap.janetHash types n y).getD 0#32
    rw [hagree]

/-- Of a cell of a struct with comparable nodes both parts can be compared. -/
theorem comparable_cells (hx : heap.Comparable (n + 1) (janetWrapStruct p)) :
    CellsAll (heap.Comparable n) (heap.structs.get p).data := by
  obtain ⟨_, _, k, hk, hsub⟩ := hx.of_struct
  obtain rfl := Nat.succ.inj hk
  refine fun kv hkv => ⟨hsub _ (List.mem_append_left _ ?_), hsub _ (List.mem_append_left _ ?_)⟩
  · exact List.mem_flatMap.mpr ⟨kv, hkv, by simp⟩
  · exact List.mem_flatMap.mpr ⟨kv, hkv, by simp⟩

/-- Two structs are equal when their cells are, and their prototypes. -/
theorem equals_iff_cells (hl : types.Lawful heap) (hi : heap.Interned) (hx : heap.Comparable (n + 1) (janetWrapStruct p))
    (hy : heap.Comparable (n + 1) (janetWrapStruct q)) :
    heap.janetEquals (n + 1) (janetWrapStruct p) (janetWrapStruct q) = some true ↔
      List.Forall₂ (fun kv kv' => heap.janetEquals n kv.key kv'.key = some true ∧
        heap.janetEquals n kv.value kv'.value = some true) (heap.structs.get p).data (heap.structs.get q).data ∧
      Option.Rel (fun proto proto' => heap.janetEquals n (janetWrapStruct proto) (janetWrapStruct proto') = some true)
        (heap.structs.get p).proto (heap.structs.get q).proto := by
  have hsub : ∀ {r}, heap.Comparable (n + 1) (janetWrapStruct r) → ∀ x ∈ heap.structNodes r, heap.Comparable n x :=
    fun h => by
      obtain ⟨_, _, k, hk, hsub⟩ := h.of_struct
      obtain rfl := Nat.succ.inj hk
      exact hsub
  have hiff : ∀ {x y}, heap.Comparable n x → heap.Comparable n y →
      (heap.janetCompare types n x y = some 0 ↔ heap.janetEquals n x y = some true) := fun hx hy => by
    rw [(agree_of_comparable hl hi n hx hy).equals, Option.some.injEq, decide_eq_true_eq]
  rw [(agree_of_comparable hl hi (n + 1) hx hy).equals, Option.some.injEq, decide_eq_true_eq]
  show heap.janetCompare types (n + 1) (.box .struct p) (.box .struct q) = some 0 ↔ _
  rw [(compareStruct_eq_zero (agree_of_comparable hl hi n) hx hy).2, compareList_eq_zero]
  -- comparing and comparing as equal are the same for all nodes
  have hnodes : List.Forall₂ (fun x y => heap.janetCompare types n x y = some 0) (heap.structNodes p)
      (heap.structNodes q) ↔ List.Forall₂ (fun x y => heap.janetEquals n x y = some true) (heap.structNodes p)
        (heap.structNodes q) :=
    ⟨fun h => forall₂_imp_mem h fun x hx' y hy' => (hiff (hsub hx x hx') (hsub hy y hy')).mp,
      fun h => forall₂_imp_mem h fun x hx' y hy' => (hiff (hsub hx x hx') (hsub hy y hy')).mpr⟩
  rw [hnodes, forall₂_structNodes]

/-- For what can be compared `janet_equals` answers yes when `janet_compare` answers `0`. -/
theorem equals_iff_compare (hl : types.Lawful heap) (hi : heap.Interned) (hx : heap.Comparable n x)
    (hy : heap.Comparable n y) : heap.janetEquals n x y = some true ↔ (heap.hashing types n).compare x y = 0 := by
  rw [(agree_of_comparable hl hi n hx hy).equals, compare_hashing hl hx hy]
  simp

/-- A key is found in cells that are alike, with an equal value. -/
theorem lookup_of_alike (hl : types.Lawful heap) (hi : heap.Interned) {s s' : JanetStruct}
    (hs : s.Robin (heap.hashing types n) (heap.Comparable n)) (hs' : s'.Robin (heap.hashing types n) (heap.Comparable n))
    (h : List.Forall₂ (fun kv kv' => heap.janetEquals n kv.key kv'.key = some true ∧
      heap.janetEquals n kv.value kv'.value = some true) s.data s'.data)
    (hall' : CellsAll (heap.Comparable n) s'.data) {key value : Janet} (hk : heap.Comparable n key)
    (hv : lookup (heap.hashing types n) s.data key = some value) :
    ∃ value', lookup (heap.hashing types n) s'.data key = some value' ∧ heap.janetEquals n value value' = some true := by
  have ho := orders_hashing (n := n) hl hi
  obtain ⟨b, hb, hstable⟩ := hs.stable
  obtain ⟨b', hb', hstable'⟩ := hs'.stable
  obtain ⟨kv, hkv, hkey, hsame, rfl⟩ := (lookup_iff_mem ho hb hstable hk).mp hv
  obtain ⟨hmem, hlive⟩ := List.mem_filter.mp hkv
  obtain ⟨kv', hmem', hkeys, hvalues⟩ := Assoc.partner_of_mem h hmem
  have hkey' := (hall' kv' hmem').1
  have hzero := (equals_iff_compare hl hi hkey hkey').mp hkeys
  have hlive' : kv'.isLive = true := by
    have hnil := nil_of_compare hkey hkey' (by rw [compare_hashing hl hkey hkey', hzero])
    rw [JanetKV.isLive, ← hnil]
    exact hlive
  have hsame' := ho.sorts.congr hkey hkey' hk (congrArg some hzero)
  rw [hsame, Option.some.injEq] at hsame'
  exact ⟨kv'.value, (lookup_iff_mem ho hb' hstable' hk).mpr
    ⟨kv', List.mem_filter.mpr ⟨hmem', hlive'⟩, hkey', hsame'.symm, rfl⟩, hvalues⟩

theorem equals_symm (hl : types.Lawful heap) (hi : heap.Interned) (hx : heap.Comparable n x) (hy : heap.Comparable n y)
    (h : heap.janetEquals n x y = some true) : heap.janetEquals n y x = some true := by
  rw [equals_iff_compare hl hi hx hy] at h
  rw [equals_iff_compare hl hi hy hx]
  exact Option.some.inj ((orders_hashing hl hi).sorts.symm hx hy (congrArg some h))

/-- All keys have equal values in two structs. -/
def Heap.SameValues (heap : Heap) (types : AbstractTypes) (n : Nat) (s s' : JanetStruct) : Prop :=
  ∀ key, heap.Comparable n key → heap.janetEquals n (janetStructRawget (heap.hashing types n) s.data key)
    (janetStructRawget (heap.hashing types n) s'.data key) = some true

section Same

variable {s s' : JanetStruct} (hl : types.Lawful heap) (hi : heap.Interned)
  (hs : s.Robin (heap.hashing types n) (heap.Comparable n)) (hs' : s'.Robin (heap.hashing types n) (heap.Comparable n))
  (hall : CellsAll (heap.Comparable n) s.data) (hall' : CellsAll (heap.Comparable n) s'.data)
include hl hi hs hs' hall

/-- A key that has a value has one in the other struct: what is stored is not nil. -/
theorem isSome_of_sameValues (h : heap.SameValues types n s s') {key : Janet} (hk : heap.Comparable n key)
    (hsome : (lookup (heap.hashing types n) s.data key).isSome) : (lookup (heap.hashing types n) s'.data key).isSome := by
  have ho := orders_hashing (n := n) hl hi
  obtain ⟨v, hv⟩ := Option.isSome_iff_exists.mp hsome
  have hequal := h key hk
  rw [rawget_eq ho hs hk, rawget_eq ho hs' hk, hv] at hequal
  by_contra hnone
  rw [Bool.not_eq_true, Option.isSome_eq_false_iff, Option.isNone_iff_eq_none] at hnone
  obtain ⟨b, hb, hstable⟩ := hs.stable
  obtain ⟨kv, hkv, _, _, rfl⟩ := (lookup_iff_mem ho hb hstable hk).mp hv
  have hvalue := (hall kv (List.mem_filter.mp hkv).1).2.checktype
  rw [(hs.storable kv hkv).value_not_nil] at hvalue
  rw [hnone, Option.getD_some, Option.getD_none, janetEquals_nil_right, ← hvalue] at hequal
  cases hequal

include hall'

/-- Cells that are alike give equal values. -/
theorem sameValues_of_cells (h : List.Forall₂ (fun kv kv' => heap.janetEquals n kv.key kv'.key = some true ∧
    heap.janetEquals n kv.value kv'.value = some true) s.data s'.data) : heap.SameValues types n s s' := by
  have ho := orders_hashing (n := n) hl hi
  intro key hk
  rw [rawget_eq ho hs hk, rawget_eq ho hs' hk]
  cases hv : lookup (heap.hashing types n) s.data key with
  | some v =>
    obtain ⟨v', hv', hvv⟩ := lookup_of_alike hl hi hs hs' h hall' hk hv
    rw [hv']
    exact hvv
  | none =>
    cases hv' : lookup (heap.hashing types n) s'.data key with
    | none => exact janetEquals_nil
    | some v' =>
      -- the cells are alike the other way round as well
      have hback : List.Forall₂ (fun kv kv' => heap.janetEquals n kv.key kv'.key = some true ∧
          heap.janetEquals n kv.value kv'.value = some true) s'.data s.data :=
        List.Forall₂.flip (forall₂_imp_mem h fun kv hkv kv' hkv' hkk =>
          ⟨equals_symm hl hi (hall kv hkv).1 (hall' kv' hkv').1 hkk.1,
            equals_symm hl hi (hall kv hkv).2 (hall' kv' hkv').2 hkk.2⟩)
      obtain ⟨v, hv'', _⟩ := lookup_of_alike hl hi hs' hs hback hall hk hv'
      rw [hv] at hv''
      cases hv''

/-- Structs that give equal values have cells alike: the keys stand in the same cells. -/
theorem cells_of_sameValues (h : heap.SameValues types n s s') :
    List.Forall₂ (fun kv kv' => heap.janetEquals n kv.key kv'.key = some true ∧
      heap.janetEquals n kv.value kv'.value = some true) s.data s'.data := by
  have ho := orders_hashing (n := n) hl hi
  have hback : heap.SameValues types n s' s := fun key hk => equals_symm hl hi (all_rawget ho hs .nil hall hk)
    (all_rawget ho hs' .nil hall' hk) (h key hk)
  have hboth : ∀ key, heap.Comparable n key → ((lookup (heap.hashing types n) s.data key).isSome ↔
      (lookup (heap.hashing types n) s'.data key).isSome) := fun key hk =>
    ⟨isSome_of_sameValues hl hi hs hs' hall h hk, isSome_of_sameValues hl hi hs' hs hall' hback hk⟩
  obtain ⟨hcap, hthere⟩ := robin_unique ho hs hs' hboth
  obtain ⟨_, hthere'⟩ := robin_unique ho hs' hs fun key hk => (hboth key hk).symm
  refine List.forall₂_iff_get.mpr ⟨hcap, fun i hlt hlt' => ?_⟩
  have hget : s.data[i]? = some s.data[i] := List.getElem?_eq_getElem hlt
  have hget' : s'.data[i]? = some s'.data[i] := List.getElem?_eq_getElem hlt'
  show heap.janetEquals n s.data[i].key s'.data[i].key = some true ∧
    heap.janetEquals n s.data[i].value s'.data[i].value = some true
  generalize s.data[i] = kv at hget ⊢
  generalize s'.data[i] = kv' at hget' ⊢
  have hmem := List.mem_of_getElem? hget
  have hmem' := List.mem_of_getElem? hget'
  cases hlive : kv.isLive with
  | true =>
    obtain ⟨_, hkv', hlive', hzero⟩ := hthere hget hlive
    obtain rfl := Option.some.inj (hget'.symm.trans hkv')
    have hkey := (hall kv hmem).1
    have hkey' := (hall' kv' hmem').1
    refine ⟨(equals_iff_compare hl hi hkey hkey').mpr hzero, ?_⟩
    -- both values are what is found under the key
    obtain ⟨b, hb, hstable⟩ := hs.stable
    obtain ⟨b', hb', hstable'⟩ := hs'.stable
    have hfound := (lookup_iff_mem ho hb hstable hkey).mpr
      ⟨kv, List.mem_filter.mpr ⟨hmem, hlive⟩, hkey, Option.some.inj (ho.sorts.refl hkey), rfl⟩
    have hfound' := (lookup_iff_mem ho hb' hstable' hkey).mpr ⟨kv', List.mem_filter.mpr ⟨hmem', hlive'⟩, hkey',
      Option.some.inj (ho.sorts.symm hkey hkey' (congrArg some hzero)), rfl⟩
    have hequal := h kv.key hkey
    rw [rawget_eq ho hs hkey, rawget_eq ho hs' hkey, hfound, hfound'] at hequal
    exact hequal
  | false =>
    have hdead : kv'.isLive = false := by
      by_contra hne
      obtain ⟨_, hkv, hlive', _⟩ := hthere' hget' (by simpa using hne)
      obtain rfl := Option.some.inj (hget.symm.trans hkv)
      rw [hlive] at hlive'
      cases hlive'
    rw [hs.blank kv hmem hlive, hs'.blank kv' hmem' hdead]
    exact ⟨janetEquals_nil, janetEquals_nil⟩

end Same

/-- **Structs are equal exactly when they give equal values to all keys**, and have equal prototypes. -/
theorem equals_iff_rawget (hl : types.Lawful heap) (hi : heap.Interned) (hx : heap.Comparable (n + 1) (janetWrapStruct p))
    (hy : heap.Comparable (n + 1) (janetWrapStruct q))
    (hs : (heap.structs.get p).Robin (heap.hashing types n) (heap.Comparable n))
    (hs' : (heap.structs.get q).Robin (heap.hashing types n) (heap.Comparable n)) :
    heap.janetEquals (n + 1) (janetWrapStruct p) (janetWrapStruct q) = some true ↔
      heap.SameValues types n (heap.structs.get p) (heap.structs.get q) ∧
      Option.Rel (fun proto proto' => heap.janetEquals n (janetWrapStruct proto) (janetWrapStruct proto') = some true)
        (heap.structs.get p).proto (heap.structs.get q).proto := by
  have hall := comparable_cells hx
  have hall' := comparable_cells hy
  rw [equals_iff_cells hl hi hx hy]
  exact and_congr_left fun _ =>
    ⟨sameValues_of_cells hl hi hs hs' hall hall', cells_of_sameValues hl hi hs hs' hall hall'⟩

/-- What two lists of entries give a key is equal, for every key. -/
def Heap.SameLastPut (heap : Heap) (types : AbstractTypes) (n : Nat) (kvs kvs' : List JanetKV) : Prop :=
  ∀ key, heap.Comparable n key → heap.janetEquals n ((lastPut (heap.hashing types n) kvs key).getD janetWrapNil)
    ((lastPut (heap.hashing types n) kvs' key).getD janetWrapNil) = some true

section Built

variable {kvs kvs' : List JanetKV}

/-- A struct that was built can be compared. -/
theorem comparable_build (hl : types.Lawful heap) (hi : heap.Interned) (hp : 0 < p ∧ p < heap.structs.next)
    (hn : kvs.length < 2 ^ 29) (hall : CellsAll (heap.Comparable n) kvs)
    (hs : buildStruct (heap.hashing types n) kvs none = some (heap.structs.get p)) :
    heap.Comparable (n + 1) (janetWrapStruct p) ∧
      (heap.structs.get p).Robin (heap.hashing types n) (heap.Comparable n) ∧ (heap.structs.get p).proto = none ∧
      ∀ key, heap.Comparable n key →
        janetStructRawget (heap.hashing types n) (heap.structs.get p).data key =
          (lastPut (heap.hashing types n) kvs key).getD janetWrapNil := by
  have ho := orders_hashing (n := n) hl hi
  obtain ⟨s, hbuilt, hrobin, hproto, hlookup⟩ := @build_spec _ _ kvs none ho (fun kv hkv _ => (hall kv hkv).1) hn
  cases hs.symm.trans hbuilt
  refine ⟨.struct hp hrobin.wellBuilt fun x hx => ?_, hrobin, hproto, fun key hk => ?_⟩
  · have hcells : CellsAll (heap.Comparable n) (heap.structs.get p).data := by
      obtain ⟨st, hst, hend⟩ := Option.bind_eq_some_iff.mp hs
      exact all_structEnd hend (all_structPutAll kvs hst (all_structBegin .nil) hall) .nil
    rw [Heap.structNodes, hproto, Option.map_none, Option.toList_none, List.append_nil] at hx
    obtain ⟨kv, hkv, hx⟩ := List.mem_flatMap.mp hx
    rcases List.mem_cons.mp hx with rfl | hx
    · exact (hcells kv hkv).1
    · obtain rfl := List.mem_singleton.mp hx
      exact (hcells kv hkv).2
  · rw [rawget_eq ho hrobin hk, hlookup key hk]

/-- **Structs are equal exactly when the entries they were built from describe one map**, in whatever order, and however
often, the entries were put. -/
theorem build_equals_iff (hl : types.Lawful heap) (hi : heap.Interned) (hp : 0 < p ∧ p < heap.structs.next)
    (hq : 0 < q ∧ q < heap.structs.next) (hn : kvs.length < 2 ^ 29) (hn' : kvs'.length < 2 ^ 29)
    (hall : CellsAll (heap.Comparable n) kvs) (hall' : CellsAll (heap.Comparable n) kvs')
    (hs : buildStruct (heap.hashing types n) kvs none = some (heap.structs.get p))
    (hs' : buildStruct (heap.hashing types n) kvs' none = some (heap.structs.get q)) :
    heap.janetEquals (n + 1) (janetWrapStruct p) (janetWrapStruct q) = some true ↔
      heap.SameLastPut types n kvs kvs' := by
  obtain ⟨hx, hrobin, hproto, hget⟩ := comparable_build hl hi hp hn hall hs
  obtain ⟨hy, hrobin', hproto', hget'⟩ := comparable_build hl hi hq hn' hall' hs'
  rw [equals_iff_rawget hl hi hx hy hrobin hrobin']
  rw [hproto, hproto', and_iff_left Option.Rel.none]
  refine forall_congr' fun key => forall_congr' fun hk => ?_
  rw [hget key hk, hget' key hk]

/-- Entries that are told apart describe one map in every order. -/
theorem lastPut_perm (hl : types.Lawful heap) (hi : heap.Interned) (hall : CellsAll (heap.Comparable n) kvs)
    (hsep : kvs.Pairwise (Separate (heap.hashing types n))) (hperm : kvs.Perm kvs') :
    heap.SameLastPut types n kvs kvs' := by
  have ho := orders_hashing (n := n) hl hi
  intro key hk
  -- at most one entry has the key
  have honly : ∀ {kv kv' : JanetKV}, kv ∈ kvs → kv' ∈ kvs → (heap.hashing types n).compare kv.key key = 0 →
      (heap.hashing types n).compare kv'.key key = 0 → kv = kv' := fun {kv kv'} hkv hkv' h h' => by
    by_contra hne
    have hsym : Std.Symm (Separate (heap.hashing types n)) := ⟨fun _ _ h => h.symm⟩
    have hback := ho.sorts.symm (hall kv' hkv').1 hk (congrArg some h')
    have hsame := ho.sorts.congr hk (hall kv' hkv').1 (hall kv hkv).1 hback
    have hflip := ho.sorts.symm (hall kv hkv).1 hk (congrArg some h)
    rw [hflip] at hsame
    exact (List.Pairwise.forall hsep hkv hkv' hne).2 (Option.some.inj hsame).symm
  have hsome : ∀ {us ws : List JanetKV} {v : Janet}, us.Perm ws → (∀ kv ∈ us, kv ∈ kvs) →
      lastPut (heap.hashing types n) us key = some v → lastPut (heap.hashing types n) ws key = some v := by
    intro us ws v huw hus hv
    obtain ⟨kv, hkv, hstorable, hzero, rfl⟩ := mem_of_lastPut hv
    obtain ⟨w, hw⟩ := Option.isSome_iff_exists.mp (lastPut_isSome (huw.mem_iff.mp hkv) hstorable hzero)
    obtain ⟨kv', hkv', _, hzero', rfl⟩ := mem_of_lastPut hw
    rw [hw, honly (hus kv hkv) (hus kv' (huw.mem_iff.mpr hkv')) hzero hzero']
  have heq : lastPut (heap.hashing types n) kvs key = lastPut (heap.hashing types n) kvs' key :=
    Option.ext fun v => ⟨hsome hperm fun _ h => h, hsome hperm.symm fun _ h => hperm.mem_iff.mpr h⟩
  rw [heq]
  refine (equals_iff_compare hl hi ?_ ?_).mpr (Option.some.inj (ho.sorts.refl ?_)) <;>
  · cases hv : lastPut (heap.hashing types n) kvs' key with
    | none => exact .nil
    | some v =>
      obtain ⟨kv, hkv, _, _, rfl⟩ := mem_of_lastPut hv
      exact (hall kv (hperm.mem_iff.mpr hkv)).2

end Built

end Heap

/-! ## Two orders of entries -/

deriving instance DecidableEq for JanetStruct

/-- `{1 2 3 4}` and `{3 4 1 2}`. -/
def twoOrders : List JanetKV × List JanetKV :=
  let one : JanetKV := ⟨.number ⟨0x3FF0000000000000#64⟩, .number ⟨0x4000000000000000#64⟩⟩
  let three : JanetKV := ⟨.number ⟨0x4008000000000000#64⟩, .number ⟨0x4010000000000000#64⟩⟩
  ([one, three], [three, one])

/-- The two structs, one after the other. -/
def twoOrdersHeap : Heap :=
  let built (kvs : List JanetKV) := (buildStruct (Heap.empty.hashing plainTypes 0) kvs none).getD ⟨0, [], none⟩
  ((Heap.empty.allocStruct (built twoOrders.1)).1.allocStruct (built twoOrders.2)).1

theorem build_equals_twoOrders :
    twoOrdersHeap.janetEquals 1 (janetWrapStruct 1) (janetWrapStruct 2) = some true := by
  have hl : plainTypes.Lawful twoOrdersHeap := plainTypes_lawful fun _ _ => rfl
  have hall : CellsAll (twoOrdersHeap.Comparable 0) twoOrders.1 := by
    intro kv hkv
    simp only [twoOrders, List.mem_cons, List.not_mem_nil, or_false] at hkv
    rcases hkv with rfl | rfl <;> exact ⟨.number (by decide), .number (by decide)⟩
  have hperm : twoOrders.1.Perm twoOrders.2 := List.Perm.swap ..
  have hall' : CellsAll (twoOrdersHeap.Comparable 0) twoOrders.2 := fun kv hkv => hall kv (hperm.mem_iff.mpr hkv)
  have hsep : twoOrders.1.Pairwise (Separate (twoOrdersHeap.hashing plainTypes 0)) := by
    simp only [twoOrders, List.pairwise_cons, List.mem_singleton, forall_eq, List.not_mem_nil, false_implies,
      implies_true, List.Pairwise.nil, and_true]
    exact ⟨by decide, by decide⟩
  have hi : twoOrdersHeap.Interned := List.Pairwise.nil
  exact (build_equals_iff hl hi ⟨by decide, by decide⟩ ⟨by decide, by decide⟩ (by decide) (by decide) hall hall'
    (by decide +kernel) (by decide +kernel)).mpr (lastPut_perm hl hi hall hsep hperm)

end SwiftJanet
