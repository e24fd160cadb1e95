import SwiftJanet.Copy.MakeRaw
import SwiftJanet.VM.Compare
import SwiftJanet.VM.Struct

/-!
# The VM's dictionaries keep what is told apart

`vmDictionaries_laws`: putting entries whose keys `janet_equals` tells apart keeps all of them, up to `2 ^ 30 - 1`
entries. What it needs of the VM's hash, equality and order of values is that the latter two tell apart what
`janet_equals` tells apart (`TellsApart`). `StructFilling` and `TableFilling` say what a dictionary looks like on the way.

`StoredEntry`: what a put does not leave out, as the Swift value says it.

`roomyDictionaries` have cells for larger structs as well, and differ in nothing else (`makeRaw_roomy`).
-/

namespace SwiftJanet

open Lib

/-- Equality and order of the VM tell apart what `janet_equals` tells apart. -/
structure TellsApart (hashing : Heap → Hashing) : Prop where
  equals : ∀ {heap : Heap} {x y : Janet}, heap.ToldApart x y → (hashing heap).equals x y = false
  compare : ∀ {heap : Heap} {x y : Janet}, heap.ToldApart x y → (hashing heap).compare x y ≠ 0

variable {hashing : Heap → Hashing} {heap heap' : Heap} {st : StructBuilder} {t : JanetTable} {kvs : List JanetKV}
  {kv : JanetKV} {count limit : Nat}

theorem Puttable.storable (h : Puttable heap kvs kv) : Storable kv.key kv.value :=
  ⟨h.key_not_nil, h.key_not_nan, h.value_not_nil⟩

theorem Puttable.pairwise (h : Puttable heap kvs kv) :
    (kvs ++ [kv]).Pairwise fun a b => heap.ToldApart a.key b.key :=
  List.pairwise_map.mp h.apart

/-- What was put is told apart, in whatever order it stands now. -/
theorem Puttable.perm (h : Puttable heap kvs kv) {cells : List JanetKV} (hperm : cells.Perm kvs) :
    (kv :: cells).Pairwise fun a b => heap.ToldApart a.key b.key := by
  refine List.Pairwise.perm h.pairwise ?_ fun h => h.symm
  exact (List.perm_append_singleton kv kvs).trans (hperm.symm.cons kv)

/-! ## Structs -/

/-- What the struct looks like while it is being filled from `start`. -/
structure StructFilling (start : StructBuilder) (count : Nat) (st : StructBuilder) (kvs : List JanetKV) : Prop where
  length : st.length = count
  counted : st.count = kvs.length
  entries : (live st.cells).Perm kvs
  room : count < st.cells.length
  capacity : st.cells.length = start.cells.length
  free : ∀ kv ∈ st.cells, kv.isLive = false → kv = ⟨janetWrapNil, janetWrapNil⟩

/-- A struct with more free cells than entries to come. -/
theorem structFilling_free {size : Nat} (h : count < size) :
    StructFilling ⟨count, 0, janetMemempty size⟩ count ⟨count, 0, janetMemempty size⟩ [] := by
  refine ⟨rfl, rfl, ?_, ?_, rfl, fun kv hkv _ => List.eq_of_mem_replicate hkv⟩
  · rw [live_memempty]
  · rw [janetMemempty, List.length_replicate]
    exact h

theorem structFilling_begin (hcount : count < 2 ^ 30) :
    StructFilling (janetStructBegin (BitVec.ofNat 32 count)) count (janetStructBegin (BitVec.ofNat 32 count)) [] := by
  obtain ⟨hlength, hzero, hroom, m, hcells⟩ := begin_capacity hcount
  have hst : janetStructBegin (BitVec.ofNat 32 count) = ⟨count, 0, janetMemempty m⟩ := by
    rw [← hlength, ← hzero, ← hcells]
  rw [hst] at hroom ⊢
  rw [janetMemempty, List.length_replicate] at hroom
  exact structFilling_free hroom

theorem structFilling_put {start : StructBuilder} (hlaws : TellsApart hashing) (h : StructFilling start count st kvs)
    (hlen : kvs.length < count) (hp : Puttable heap kvs kv) :
    ∃ st', janetStructPut (hashing heap) st kv.key kv.value = some st' ∧ StructFilling start count st' (kvs ++ [kv]) := by
  have hsep : (kv :: live st.cells).Pairwise (Separate (hashing heap)) :=
    (hp.perm h.entries).imp fun h => ⟨hlaws.compare h, hlaws.compare h.symm⟩
  have hlive := h.entries.length_eq
  have hroom := h.room
  obtain ⟨hcount, hperm⟩ := @putCells_separate (hashing heap) st kv.key kv.value true hp.storable
    (by rw [h.counted, h.length]; omega) (by omega) hsep
  have hsteps := @steps_putCells (hashing heap) st kv.key kv.value true
  refine ⟨_, structPut_eq (by omega), hsteps.length.trans h.length, ?_, ?_, ?_, ?_, fun x hx hdead => h.free x (hsteps.free x hx hdead) hdead⟩
  · rw [hcount, h.counted]
    simp
  · exact hperm.trans ((h.entries.cons kv).trans (List.perm_append_singleton kv kvs).symm)
  · rw [hsteps.cells]
    exact h.room
  · rw [hsteps.cells]
    exact h.capacity

/-- Entries that are told apart fill the struct one after the other. -/
theorem structFilling_filled {start : StructBuilder} (hlaws : TellsApart hashing) (hstart : StructFilling start count start [])
    (h : Filled (fun heap => janetStructPut (hashing heap)) start heap st kvs)
    (hlen : kvs.length ≤ count) : StructFilling start count st kvs := by
  induction h with
  | start heap => exact hstart
  | put _ _ hp hput ih =>
    rw [List.length_append, List.length_singleton] at hlen
    obtain ⟨st', hst', hfilling⟩ := structFilling_put hlaws (ih (by omega)) (by omega) hp
    obtain rfl := Option.some.inj (hst'.symm.trans hput)
    exact hfilling

/-- A filled struct is ended as it is. -/
theorem structEnd_filling {start : StructBuilder} (h : StructFilling start kvs.length st kvs) :
    janetStructEnd (hashing heap) st none = some ⟨kvs.length, st.cells, none⟩ := by
  unfold janetStructEnd
  simp only [h.counted, h.length, ne_eq, not_true_eq_false, if_false, Option.map_some, Int.toNat_natCast]

/-! ## Tables -/

/-- What the table looks like while it is being filled. -/
structure TableFilling (t : JanetTable) (kvs : List JanetKV) : Prop where
  ok : t.Ok
  used : t.used ≤ kvs.length
  block : t.Has fun _ => True
  entries : (live t.cells).Perm kvs

theorem tableFilling_begin (hcount : count < 2 ^ 31) : TableFilling (janetTable (BitVec.ofNat 32 count)) [] := by
  have hnat := toNat_count hcount
  obtain ⟨hok, hused, _, hlive, _⟩ := @ok_table (BitVec.ofNat 32 count) (by omega)
  refine ⟨hok, by rw [hused]; exact Int.le_refl 0, has_init (slt_of_toNat_lt (by omega)) trivial, ?_⟩
  rw [hlive]

theorem tableFilling_put (hlaws : TellsApart hashing) (h : TableFilling t kvs) (hlen : kvs.length < 2 ^ 31 - 1)
    (hp : Puttable heap kvs kv) :
    ∃ u, janetTablePut (hashing heap) t kv.key kv.value = some u ∧ TableFilling u (kvs ++ [kv]) := by
  obtain ⟨hkey, hapart⟩ := List.pairwise_cons.mp (hp.perm h.entries)
  have hused := h.used
  obtain ⟨u, hu, hok, huse, _, hperm⟩ := @put_apart (hashing heap) t kv.key kv.value h.ok (by omega) hp.storable
    (hapart.imp fun h => hlaws.equals h) fun x hx => hlaws.equals (hkey x hx).symm
  refine ⟨u, hu, hok, ?_, has_put hu h.block trivial trivial trivial trivial, ?_⟩
  · rw [List.length_append, List.length_singleton]
    omega
  · exact hperm.trans ((h.entries.cons kv).trans (List.perm_append_singleton kv kvs).symm)

theorem tableFilling_filled (hlaws : TellsApart hashing) (hcount : count < 2 ^ 31)
    (h : (vmDictionaries hashing).TableFilled heap t count kvs) (hlen : kvs.length ≤ count) : TableFilling t kvs := by
  induction h with
  | start heap => exact tableFilling_begin hcount
  | put _ _ hp hput ih =>
    rw [List.length_append, List.length_singleton] at hlen
    obtain ⟨u, hu, hfilling⟩ := tableFilling_put hlaws (ih (by omega)) (by omega) hp
    obtain rfl := Option.some.inj (hu.symm.trans hput)
    exact hfilling

/-! ## The laws -/

/-- **The VM's dictionaries keep an entry for every key that is told apart.** -/
theorem vmDictionaries_laws (hlaws : TellsApart hashing) : (vmDictionaries hashing).PutLaws (2 ^ 30 - 1) where
  structPut {heap heap' st count kvs kv} hlen hcount h _ hp := by
    have hf := structFilling_filled hlaws (structFilling_begin (by omega)) h (by omega)
    obtain ⟨st', hst', _⟩ := structFilling_put hlaws hf (by omega) hp
    exact Option.isSome_iff_exists.mpr ⟨st', hst'⟩
  struct {heap st kvs} hlen h := by
    have hf := structFilling_filled hlaws (structFilling_begin (by omega)) h (Nat.le_refl _)
    exact ⟨_, structEnd_filling hf, hf.entries, rfl, hf.capacity, hf.free, rfl⟩
  tablePut {heap heap' t count kvs kv} hlen hcount h _ hp := by
    obtain ⟨u, hu, _⟩ := tableFilling_put hlaws (tableFilling_filled hlaws (by omega) h (by omega)) (by omega) hp
    exact Option.isSome_iff_exists.mpr ⟨u, hu⟩
  table {heap t kvs} hlen h := by
    have hf := tableFilling_filled hlaws (by omega) h (Nat.le_refl _)
    exact ⟨hf.block.block, hf.entries⟩

/-! ## Keys that compare by their words -/

/-- Numbers are equal as doubles, and everything else when it is one object; strings are hashed by their bytes. -/
def plainHashing (heap : Heap) : Hashing where
  hash x :=
    if janetType x = .string ∨ janetType x = .symbol ∨ janetType x = .keyword then
      janetStringCalchash (heap.strings.get ((janetUnwrapPointer x).getD 0))
    else 0#32
  equals := plainEquals
  compare x y := if plainEquals x y then 0 else 1
where
  /-- The test of equality. -/
  plainEquals (x y : Janet) : Bool :=
    janetType x == janetType y && match janetType x with
      | .nil => true
      | .boolean => janetUnwrapBoolean x == janetUnwrapBoolean y
      | .number => (janetUnwrapNumber x).equal (janetUnwrapNumber y)
      | _ => janetUnwrapPointer x == janetUnwrapPointer y

/-- `janet_equals` does not tell apart what is plainly equal. -/
theorem plainEquals_not_apart {heap : Heap} {n : Nat} {x y : Janet} (h : plainHashing.plainEquals x y = true) :
    heap.janetEquals n x y ≠ some false := by
  rw [plainHashing.plainEquals, Bool.and_eq_true, beq_iff_eq] at h
  obtain ⟨ht, h⟩ := h
  unfold Heap.janetEquals
  rw [if_neg (not_not.mpr ht)]
  cases hx : janetType x with
  | nil => simp
  | boolean =>
    rw [hx] at h
    simp [eq_of_beq h]
  | number =>
    rw [hx] at h
    simp only [show (janetUnwrapNumber x).equal (janetUnwrapNumber y) = true from h]
    simp
  | string =>
    rw [hx] at h
    have hptr : janetUnwrapString x = janetUnwrapString y := eq_of_beq h
    simp only [hptr]
    cases janetUnwrapString y with
    | none => simp
    | some p => simp [Heap.janetStringEqual]
  | abstract =>
    rw [hx] at h
    have hptr : janetUnwrapAbstract x = janetUnwrapAbstract y := eq_of_beq h
    simp only [hptr]
    cases janetUnwrapAbstract y <;> simp
  | tuple =>
    rw [hx] at h
    have hptr : janetUnwrapTuple x = janetUnwrapTuple y := eq_of_beq h
    simp [hptr]
  | struct =>
    rw [hx] at h
    have hptr : janetUnwrapStruct x = janetUnwrapStruct y := eq_of_beq h
    simp [hptr]
  | _ =>
    rw [hx] at h
    simp [h]

/-- Plain keys satisfy the laws of dictionaries. -/
theorem plainHashing_tellsApart : TellsApart plainHashing := by
  have hfalse : ∀ {heap : Heap} {x y : Janet}, heap.ToldApart x y → plainHashing.plainEquals x y = false := by
    rintro heap x y ⟨n, hn, _⟩
    by_contra h
    exact plainEquals_not_apart (by simpa using h) hn
  refine ⟨hfalse, fun {heap x y} h => ?_⟩
  show (if plainHashing.plainEquals x y then 0 else 1 : Int) ≠ 0
  rw [hfalse h]
  decide

/-! ## What Janet stores -/

/-- What the value is made into reads as nil. -/
def JanetValue.readsNil : JanetValue → Bool
  | .nil => true
  | .number d => janetChecktype (janetWrapNumber d) .nil
  | _ => false

/-- What the value is made into reads as a NaN. -/
def JanetValue.readsNaN : JanetValue → Bool
  | .number d => janetChecktype (janetWrapNumber d) .number && (janetUnwrapNumber (janetWrapNumber d)).isNaN
  | _ => false

/-- Janet stores the entry: neither half reads as nil, and the key does not read as a NaN. -/
def StoredEntry (e : JanetValue × JanetValue) : Prop :=
  e.1.readsNil = false ∧ e.1.readsNaN = false ∧ e.2.readsNil = false

instance (e : JanetValue × JanetValue) : Decidable (StoredEntry e) := inferInstanceAs (Decidable (_ ∧ _ ∧ _))

/-- Janet stores every entry of a dictionary. -/
def EntriesStored : JanetValue → Prop
  | .struct es | .table es => ∀ e ∈ es, StoredEntry e
  | _ => True

section Stored

variable {code : DictionaryCode} {v key value : JanetValue} {d : Nat} {heap heap' heap'' : Heap}
  {raw rawKey rawValue : Janet}

/-- A raw value reads as the value says. -/
theorem makeRaw_reads (h : makeRaw code v d heap = (.returns raw, heap')) :
    janetChecktype raw .nil = v.readsNil ∧
      (janetChecktype raw .number && (janetUnwrapNumber raw).isNaN) = v.readsNaN := by
  have pointed : ∀ {t : JanetType} {p : Nat}, t ≠ .nil → t ≠ .number →
      janetChecktype (.box t p) .nil = false ∧
        (janetChecktype (.box t p) .number && (janetUnwrapNumber (.box t p)).isNaN) = false := by
    intro t p hnil hnumber
    rw [janetChecktype_box, janetChecktype_box, beq_eq_false_iff_ne.mpr hnil, beq_eq_false_iff_ne.mpr hnumber]
    exact ⟨rfl, rfl⟩
  cases v with
  | nil => cases h; exact ⟨rfl, rfl⟩
  | boolean b => cases h; cases b <;> exact ⟨rfl, rfl⟩
  | number x => cases h; exact ⟨rfl, rfl⟩
  | string t | keyword t | symbol t =>
    rw [makeRaw] at h
    obtain ⟨p, _, _, h⟩ := Computation.returns_of_bind (withJanetBytes_returns h)
    cases h
    exact pointed (by simp) (by simp)
  | tuple xs =>
    obtain ⟨_, _, _, _, rfl, _⟩ := makeRaw_tuple_returns h
    exact pointed (by simp) (by simp)
  | array xs =>
    obtain ⟨_, _, _, _, rfl, _⟩ := makeRaw_array_returns h
    exact pointed (by simp) (by simp)
  | struct es =>
    obtain ⟨_, _, _, _, _, _, _, rfl, _⟩ := makeRaw_struct_returns h
    exact pointed (by simp) (by simp)
  | table es =>
    obtain ⟨_, rfl, _⟩ := makeRaw_table_returns h
    exact pointed (by simp) (by simp)
  | unsupported name => cases h

/-- Putting stores the raw entry exactly when Janet stores the entry. -/
theorem storable_iff (hk : makeRaw code key d heap = (.returns rawKey, heap'))
    (hv : makeRaw code value d heap' = (.returns rawValue, heap'')) :
    Storable rawKey rawValue ↔ StoredEntry (key, value) := by
  obtain ⟨hknil, hknan⟩ := makeRaw_reads hk
  obtain ⟨hvnil, -⟩ := makeRaw_reads hv
  rw [StoredEntry, ← hknil, ← hknan, ← hvnil, Bool.and_eq_false_imp]
  exact ⟨fun h => ⟨h.key_not_nil, h.key_not_nan, h.value_not_nil⟩, fun h => ⟨h.1, h.2.1, h.2.2⟩⟩

end Stored

/-! ## Structs of every size -/

/-- The VM's dictionaries, with a block of cells also for structs of `2 ^ 30` entries and more. -/
def roomyDictionaries (hashing : Heap → Hashing) : DictionaryCode :=
  { vmDictionaries hashing with
    structBegin := fun count =>
      if count.toNat < 2 ^ 30 then janetStructBegin count else ⟨count.toNat, 0, janetMemempty (2 ^ 31)⟩ }

theorem roomyDictionaries_begin (hashing : Heap → Hashing) (hcount : count < 2 ^ 31) :
    StructFilling ((roomyDictionaries hashing).structBegin (BitVec.ofNat 32 count)) count
      ((roomyDictionaries hashing).structBegin (BitVec.ofNat 32 count)) [] := by
  have hnat := toNat_count hcount
  simp only [roomyDictionaries, hnat]
  split
  · next h => exact structFilling_begin h
  · exact structFilling_free hcount

/-- With blocks for all structs the entries are kept up to the limit of tables. -/
theorem roomyDictionaries_laws (hlaws : TellsApart hashing) : (roomyDictionaries hashing).PutLaws (2 ^ 31 - 1) where
  structPut {heap heap' st count kvs kv} hlen hcount h _ hp := by
    have hf := structFilling_filled hlaws (roomyDictionaries_begin hashing (by omega)) h (by omega)
    obtain ⟨st', hst', _⟩ := structFilling_put hlaws hf (by omega) hp
    exact Option.isSome_iff_exists.mpr ⟨st', hst'⟩
  struct {heap st kvs} hlen h := by
    have hf := structFilling_filled hlaws (roomyDictionaries_begin hashing (by omega)) h (Nat.le_refl _)
    exact ⟨_, structEnd_filling hf, hf.entries, rfl, hf.capacity, hf.free, rfl⟩
  tablePut {heap heap' t count kvs kv} hlen hcount h _ hp := by
    obtain ⟨u, hu, _⟩ := tableFilling_put hlaws (tableFilling_filled hlaws (by omega) h (by omega)) (by omega) hp
    exact Option.isSome_iff_exists.mpr ⟨u, hu⟩
  table {heap t kvs} hlen h := by
    have hf := tableFilling_filled hlaws (by omega) h (Nat.le_refl _)
    exact ⟨hf.block.block, hf.entries⟩

/-- A struct that the VM has cells for. -/
def SmallStruct : JanetValue → Prop
  | .struct es => es.length < 2 ^ 30
  | _ => True

mutual
/-- While structs are small, the blocks for larger ones make no difference. -/
theorem makeRaw_roomy : ∀ (v : JanetValue) (d : Nat), JanetValue.All SmallStruct v →
    makeRaw (roomyDictionaries hashing) v d = makeRaw (vmDictionaries hashing) v d
  | .nil, _, _ | .boolean _, _, _ | .number _, _, _ | .string _, _, _ | .keyword _, _, _ | .symbol _, _, _
  | .unsupported _, _, _ => rfl
  | .tuple xs, d, h => by
    rw [makeRaw, makeRaw]
    simp only [makeRaws_roomy xs _ fun x hx => h.part hx]
  | .array xs, d, h => by
    rw [makeRaw, makeRaw]
    simp only [makeRaws_roomy xs _ fun x hx => h.part hx]
  | .struct es, d, h => by
    have hsmall : es.length < 2 ^ 30 := h.here
    have hbegin : (roomyDictionaries hashing).structBegin (BitVec.ofNat 32 es.length) =
        (vmDictionaries hashing).structBegin (BitVec.ofNat 32 es.length) := by
      refine if_pos ?_
      rw [toNat_count (by omega)]
      exact hsmall
    rw [makeRaw, makeRaw, int32, if_pos (by omega)]
    simp only [Computation.lift_returns_bind, hbegin, putStruct_roomy es _ fun x hx => h.part hx]
    rfl
  | .table es, d, h => by
    rw [makeRaw, makeRaw]
    simp only [putTable_roomy es _ fun x hx => h.part hx]
    rfl
theorem makeRaws_roomy : ∀ (xs : List JanetValue) (d : Nat), (∀ x ∈ xs, JanetValue.All SmallStruct x) →
    makeRaws (roomyDictionaries hashing) xs d = makeRaws (vmDictionaries hashing) xs d
  | [], _, _ => rfl
  | x :: xs, d, h => by
    rw [makeRaws, makeRaws, makeRaw_roomy x d (h x List.mem_cons_self),
      makeRaws_roomy xs d fun y hy => h y (List.mem_cons_of_mem _ hy)]
theorem putStruct_roomy : ∀ (es : List (JanetValue × JanetValue)) (d : Nat),
    (∀ x ∈ es.flatMap (fun e => [e.1, e.2]), JanetValue.All SmallStruct x) →
      ∀ st, putStruct (roomyDictionaries hashing) es d st = putStruct (vmDictionaries hashing) es d st
  | [], _, _, _ => rfl
  | (key, value) :: es, d, h, st => by
    rw [putStruct, putStruct, makeRaw_roomy key d (h key (by simp)), makeRaw_roomy value d (h value (by simp))]
    simp only [putStruct_roomy es d fun x hx => h x (by
      simp only [List.flatMap_cons, List.mem_append]
      exact Or.inr hx)]
    rfl
theorem putTable_roomy : ∀ (es : List (JanetValue × JanetValue)) (d : Nat),
    (∀ x ∈ es.flatMap (fun e => [e.1, e.2]), JanetValue.All SmallStruct x) →
      ∀ p, putTable (roomyDictionaries hashing) es d p = putTable (vmDictionaries hashing) es d p
  | [], _, _, _ => rfl
  | (key, value) :: es, d, h, p => by
    rw [putTable, putTable, makeRaw_roomy key d (h key (by simp)), makeRaw_roomy value d (h value (by simp))]
    simp only [putTable_roomy es d fun x hx => h x (by
      simp only [List.flatMap_cons, List.mem_append]
      exact Or.inr hx)]
    rfl
end

end SwiftJanet
