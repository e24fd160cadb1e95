import SwiftJanet.Copy.CopyOut
import SwiftJanet.VM.Equals
import SwiftJanet.VM.Script

/-!
# Making raw values

`JanetValue.makeRaw(depth:)` over a heap, which keeps what was allocated however the call ends. A table is put into
while its entries are still being made; a struct becomes an object when `janet_struct_end` returns it.

- `DictionaryCode`: the operations on dictionaries that making calls, over a heap that says which keys are equal;
  `vmDictionaries` is the VM's own;
- `PutLaws code limit`: putting at most `limit` entries whose keys `janet_equals` tells apart keeps all of them.
-/

namespace SwiftJanet

open Lib

/-! ## Dictionaries -/

/-- The operations of the VM on dictionaries. Those that put have no result when they leave the dictionary's memory. -/
structure DictionaryCode where
  structBegin : BitVec 32 → StructBuilder
  structPut : Heap → StructBuilder → Janet → Janet → Option StructBuilder
  structEnd : Heap → StructBuilder → Option JanetStruct
  table : BitVec 32 → JanetTable
  tablePut : Heap → JanetTable → Janet → Janet → Option JanetTable

/-- `janet_struct_begin`, `janet_struct_put`, `janet_struct_end`, `janet_table` and `janet_table_put`. -/
def vmDictionaries (hashing : Heap → Hashing) : DictionaryCode where
  structBegin := janetStructBegin
  structPut heap := janetStructPut (hashing heap)
  structEnd heap st := janetStructEnd (hashing heap) st none
  table := janetTable
  tablePut heap := janetTablePut (hashing heap)

/-! ## Allocation -/

/-- A call that allocates in the VM. -/
abbrev Making := Computation Heap JanetError Trap

/-- Make one object. -/
def allocating (alloc : Heap → Heap × Nat) : Making Nat := fun heap => (.returns (alloc heap).2, (alloc heap).1)

/-- `Int32.init`. -/
def int32 (n : Nat) : Result (BitVec 32) := if n < 2 ^ 31 then .returns (BitVec.ofNat 32 n) else .traps .overflow

/-- `JanetValue.nest`. -/
def nest (depth : Nat) : Result Nat :=
  if depth ≥ maxValueNestingDepth then .throws nestedDeeper else .returns (depth + 1)

/-- `withJanetBytes`. -/
def withJanetBytes (text : Text) (body : List UInt8 → Making Janet) : Making Janet := do
  let _ ← .lift (int32 text.utf8.length)
  body text.utf8

/-! ## Values -/

section Make

variable (code : DictionaryCode)

/-- Put one entry into the struct being built. -/
def structPut (st : StructBuilder) (key value : Janet) : Making StructBuilder := fun heap =>
  match code.structPut heap st key value with
  | none => (.traps .memory, heap)
  | some st => (.returns st, heap)

/-- End the struct being built. -/
def structEnd (st : StructBuilder) : Making Nat := fun heap =>
  match code.structEnd heap st with
  | none => (.traps .memory, heap)
  | some s => allocating (·.allocStruct s) heap

/-- Put one entry into the table at `p`. -/
def tablePut (p : Nat) (key value : Janet) : Making Unit := fun heap =>
  match code.tablePut heap (heap.tables.get p) key value with
  | none => (.traps .memory, heap)
  | some t => (.returns (), { heap with tables := heap.tables.set p t })

mutual
/-- `JanetValue.makeRaw(depth:)`. -/
def makeRaw : JanetValue → Nat → Making Janet
  | .nil, _ => pure janetWrapNil
  | .boolean flag, _ => pure (janetWrapBoolean flag)
  | .number number, _ => pure (janetWrapNumber number)
  | .string text, _ => withJanetBytes text fun bytes => do
    return janetWrapString (← allocating (·.janetString bytes))
  | .keyword text, _ => withJanetBytes text fun bytes => do
    return janetWrapKeyword (← allocating (·.janetSymbol bytes))
  | .symbol text, _ => withJanetBytes text fun bytes => do
    return janetWrapSymbol (← allocating (·.janetSymbol bytes))
  | .tuple elements, depth => do
    let inner ← .lift (nest depth)
    let raws ← makeRaws elements inner
    let _ ← .lift (int32 raws.length)
    return janetWrapTuple (← allocating (·.allocTuple ⟨raws, false⟩))
  | .array elements, depth => do
    let inner ← .lift (nest depth)
    let raws ← makeRaws elements inner
    let _ ← .lift (int32 raws.length)
    return janetWrapArray (← allocating (·.allocArray (janetArrayN raws)))
  | .struct entries, depth => do
    let inner ← .lift (nest depth)
    let count ← .lift (int32 entries.length)
    let st ← putStruct entries inner (code.structBegin count)
    return janetWrapStruct (← structEnd code st)
  | .table entries, depth => do
    let inner ← .lift (nest depth)
    let count ← .lift (int32 entries.length)
    let table ← allocating (·.allocTable (code.table count))
    putTable entries inner table
    return janetWrapTable table
  | .unsupported _, _ => .lift (.traps .precondition)
/-- The loop of `makeRaws`. -/
def makeRaws : List JanetValue → Nat → Making (List Janet)
  | [], _ => pure []
  | element :: elements, inner => do
    let raw ← makeRaw element inner
    return raw :: (← makeRaws elements inner)
/-- The loop that puts the entries of a struct. -/
def putStruct : List (JanetValue × JanetValue) → Nat → StructBuilder → Making StructBuilder
  | [], _, st => pure st
  | (key, value) :: entries, inner, st => do
    let rawKey ← makeRaw key inner
    let rawValue ← makeRaw value inner
    putStruct entries inner (← structPut code st rawKey rawValue)
/-- The loop that puts the entries of a table. -/
def putTable : List (JanetValue × JanetValue) → Nat → Nat → Making Unit
  | [], _, _ => pure ()
  | (key, value) :: entries, inner, table => do
    let rawKey ← makeRaw key inner
    let rawValue ← makeRaw value inner
    tablePut code table rawKey rawValue
    putTable entries inner table
end

end Make

/-! ## What returned -/

section Returned

variable {code : DictionaryCode} {d inner p : Nat} {heap heap' : Heap} {raw : Janet} {text : Text}
  {elements : List JanetValue} {entries : List (JanetValue × JanetValue)} {key value : JanetValue} {raws : List Janet}
  {st st' : StructBuilder}

/-- A length that passed the test for 32 bits. -/
theorem int32_returns {n : Nat} {count : BitVec 32} (h : int32 n = .returns count) :
    n < 2 ^ 31 ∧ count = BitVec.ofNat 32 n := by
  rw [int32] at h
  split at h
  · next hlt =>
    cases h
    exact ⟨hlt, rfl⟩
  · cases h

theorem withJanetBytes_returns {body : List UInt8 → Making Janet}
    (h : withJanetBytes text body heap = (.returns raw, heap')) : body text.utf8 heap = (.returns raw, heap') := by
  rw [withJanetBytes] at h
  obtain ⟨_, _, h⟩ := Computation.returns_of_lift_bind h
  exact h

theorem makeRaw_tuple_returns (h : makeRaw code (.tuple elements) d heap = (.returns raw, heap')) :
    ∃ inner raws heap₁, makeRaws code elements inner heap = (.returns raws, heap₁) ∧
      raw = janetWrapTuple heap₁.tuples.next ∧ heap' = (heap₁.allocTuple ⟨raws, false⟩).1 := by
  rw [makeRaw] at h
  obtain ⟨inner, _, h⟩ := Computation.returns_of_lift_bind h
  obtain ⟨raws, heap₁, hraws, h⟩ := Computation.returns_of_bind h
  obtain ⟨_, _, h⟩ := Computation.returns_of_lift_bind h
  cases h
  exact ⟨inner, raws, heap₁, hraws, rfl, rfl⟩

theorem makeRaw_array_returns (h : makeRaw code (.array elements) d heap = (.returns raw, heap')) :
    ∃ inner raws heap₁, makeRaws code elements inner heap = (.returns raws, heap₁) ∧
      raw = janetWrapArray heap₁.arrays.next ∧ heap' = (heap₁.allocArray (janetArrayN raws)).1 := by
  rw [makeRaw] at h
  obtain ⟨inner, _, h⟩ := Computation.returns_of_lift_bind h
  obtain ⟨raws, heap₁, hraws, h⟩ := Computation.returns_of_bind h
  obtain ⟨_, _, h⟩ := Computation.returns_of_lift_bind h
  cases h
  exact ⟨inner, raws, heap₁, hraws, rfl, rfl⟩

theorem structPut_returns_iff {key value : Janet} : structPut code st key value heap = (.returns st', heap') ↔
    code.structPut heap st key value = some st' ∧ heap' = heap := by
  rw [structPut]
  cases code.structPut heap st key value with
  | none => simp
  | some st => simp [eq_comm]

theorem structEnd_returns (h : structEnd code st heap = (.returns p, heap')) :
    ∃ s, code.structEnd heap st = some s ∧ p = heap.structs.next ∧ heap' = (heap.allocStruct s).1 := by
  rw [structEnd] at h
  cases hs : code.structEnd heap st with
  | none => rw [hs] at h; cases h
  | some s =>
    rw [hs] at h
    cases h
    exact ⟨s, rfl, rfl, rfl⟩

theorem makeRaw_struct_returns (h : makeRaw code (.struct entries) d heap = (.returns raw, heap')) :
    entries.length < 2 ^ 31 ∧ ∃ inner st heap₁ s,
      putStruct code entries inner (code.structBegin (BitVec.ofNat 32 entries.length)) heap = (.returns st, heap₁) ∧
        code.structEnd heap₁ st = some s ∧ raw = janetWrapStruct heap₁.structs.next ∧
          heap' = (heap₁.allocStruct s).1 := by
  rw [makeRaw] at h
  obtain ⟨inner, _, h⟩ := Computation.returns_of_lift_bind h
  obtain ⟨count, hcount, h⟩ := Computation.returns_of_lift_bind h
  obtain ⟨st, heap₁, hst, h⟩ := Computation.returns_of_bind h
  obtain ⟨p, heap₂, hend, h⟩ := Computation.returns_of_bind h
  cases h
  obtain ⟨s, hs, rfl, rfl⟩ := structEnd_returns hend
  obtain ⟨hlt, rfl⟩ := int32_returns hcount
  exact ⟨hlt, inner, st, heap₁, s, hst, hs, rfl, rfl⟩

theorem makeRaw_table_returns (h : makeRaw code (.table entries) d heap = (.returns raw, heap')) :
    entries.length < 2 ^ 31 ∧ raw = janetWrapTable heap.tables.next ∧ ∃ inner,
      putTable code entries inner heap.tables.next (heap.allocTable (code.table (BitVec.ofNat 32 entries.length))).1 =
        (.returns (), heap') := by
  rw [makeRaw] at h
  obtain ⟨inner, _, h⟩ := Computation.returns_of_lift_bind h
  obtain ⟨count, hcount, h⟩ := Computation.returns_of_lift_bind h
  obtain ⟨p, heap₁, hp, h⟩ := Computation.returns_of_bind h
  obtain ⟨⟨⟩, heap₂, ht, h⟩ := Computation.returns_of_bind h
  cases h
  cases hp
  obtain ⟨hlt, rfl⟩ := int32_returns hcount
  exact ⟨hlt, rfl, inner, ht⟩

theorem makeRaws_returns {element : JanetValue}
    (h : makeRaws code (element :: elements) inner heap = (.returns raws, heap')) :
    ∃ raw heap₁ rest, makeRaw code element inner heap = (.returns raw, heap₁) ∧
      makeRaws code elements inner heap₁ = (.returns rest, heap') ∧ raws = raw :: rest := by
  rw [makeRaws] at h
  obtain ⟨raw, heap₁, hraw, h⟩ := Computation.returns_of_bind h
  obtain ⟨rest, heap₂, hrest, h⟩ := Computation.returns_of_bind h
  cases h
  exact ⟨raw, heap₁, rest, hraw, hrest, rfl⟩

theorem putStruct_returns (h : putStruct code ((key, value) :: entries) inner st heap = (.returns st', heap')) :
    ∃ rawKey heap₁ rawValue heap₂ st₁, makeRaw code key inner heap = (.returns rawKey, heap₁) ∧
      makeRaw code value inner heap₁ = (.returns rawValue, heap₂) ∧
        code.structPut heap₂ st rawKey rawValue = some st₁ ∧
          putStruct code entries inner st₁ heap₂ = (.returns st', heap') := by
  rw [putStruct] at h
  obtain ⟨rawKey, heap₁, hkey, h⟩ := Computation.returns_of_bind h
  obtain ⟨rawValue, heap₂, hvalue, h⟩ := Computation.returns_of_bind h
  obtain ⟨st₁, heap₃, hput, hrest⟩ := Computation.returns_of_bind h
  obtain ⟨hput, rfl⟩ := structPut_returns_iff.mp hput
  exact ⟨rawKey, heap₁, rawValue, _, st₁, hkey, hvalue, hput, hrest⟩

theorem tablePut_returns {key value : Janet} (h : tablePut code p key value heap = (.returns (), heap')) :
    ∃ t, code.tablePut heap (heap.tables.get p) key value = some t ∧
      heap' = { heap with tables := heap.tables.set p t } := by
  rw [tablePut] at h
  cases ht : code.tablePut heap (heap.tables.get p) key value with
  | none => rw [ht] at h; cases h
  | some t =>
    rw [ht] at h
    cases h
    exact ⟨t, rfl, rfl⟩

theorem putTable_returns (h : putTable code ((key, value) :: entries) inner p heap = (.returns (), heap')) :
    ∃ rawKey heap₁ rawValue heap₂ heap₃, makeRaw code key inner heap = (.returns rawKey, heap₁) ∧
      makeRaw code value inner heap₁ = (.returns rawValue, heap₂) ∧
        tablePut code p rawKey rawValue heap₂ = (.returns (), heap₃) ∧
          putTable code entries inner p heap₃ = (.returns (), heap') := by
  rw [putTable] at h
  obtain ⟨rawKey, heap₁, hkey, h⟩ := Computation.returns_of_bind h
  obtain ⟨rawValue, heap₂, hvalue, h⟩ := Computation.returns_of_bind h
  obtain ⟨⟨⟩, heap₃, hput, h⟩ := Computation.returns_of_bind h
  exact ⟨rawKey, heap₁, rawValue, heap₂, heap₃, hkey, hvalue, hput, h⟩

end Returned

/-! ## What putting keeps -/

/-- Strings, tuples and structs stay as they are, and more may be made. -/
structure Heap.Frozen (heap heap' : Heap) : Prop where
  strings : heap.strings.Extends 0 heap'.strings
  tuples : heap.tuples.Extends 0 heap'.tuples
  structs : heap.structs.Extends 0 heap'.structs

/-- The entry can be put next to the entries `kvs`: neither half is nil, the key is no NaN, and `janet_equals` tells
all the keys apart. -/
structure Puttable (heap : Heap) (kvs : List JanetKV) (kv : JanetKV) : Prop where
  key_not_nil : janetChecktype kv.key .nil = false
  key_not_nan : janetChecktype kv.key .number = true → (janetUnwrapNumber kv.key).isNaN = false
  value_not_nil : janetChecktype kv.value .nil = false
  apart : ((kvs ++ [kv]).map JanetKV.key).Pairwise heap.ToldApart

/-- The entries `kvs` were put one after the other, each into the heap of its time. -/
inductive Filled {D : Type} (put : Heap → D → Janet → Janet → Option D) (start : D) : Heap → D → List JanetKV → Prop
  | start (heap : Heap) : Filled put start heap start []
  | put {heap heap' : Heap} {d d' : D} {kvs : List JanetKV} {kv : JanetKV} (h : Filled put start heap d kvs)
      (hf : heap.Frozen heap') (hp : Puttable heap' kvs kv) (hput : put heap' d kv.key kv.value = some d') :
      Filled put start heap' d' (kvs ++ [kv])

namespace DictionaryCode

variable (code : DictionaryCode)

/-- A struct with the entries `kvs`. -/
def StructFilled (heap : Heap) (st : StructBuilder) (count : Nat) (kvs : List JanetKV) : Prop :=
  Filled code.structPut (code.structBegin (BitVec.ofNat 32 count)) heap st kvs

/-- A table with the entries `kvs`. -/
def TableFilled (heap : Heap) (t : JanetTable) (count : Nat) (kvs : List JanetKV) : Prop :=
  Filled code.tablePut (code.table (BitVec.ofNat 32 count)) heap t kvs

/-- How many cells a struct of `count` entries has. -/
def structCapacity (count : Nat) : Nat := (code.structBegin (BitVec.ofNat 32 count)).cells.length

/-- The struct holds the entries `kvs` and nothing else. -/
structure StructHolds (s : JanetStruct) (kvs : List JanetKV) : Prop where
  entries : (live s.data).Perm kvs
  length : s.length = kvs.length
  capacity : s.data.length = code.structCapacity kvs.length
  empty : ∀ kv ∈ s.data, kv.isLive = false → kv = ⟨janetWrapNil, janetWrapNil⟩
  proto : s.proto = none

/-- Putting keeps one entry for every key that is told apart, up to `limit` entries. -/
structure PutLaws (limit : Nat) : Prop where
  structPut : ∀ {heap heap' st count kvs kv}, kvs.length < count → count ≤ limit → code.StructFilled heap st count kvs →
    heap.Frozen heap' → Puttable heap' kvs kv → (code.structPut heap' st kv.key kv.value).isSome
  struct : ∀ {heap st kvs}, kvs.length ≤ limit → code.StructFilled heap st kvs.length kvs →
    ∃ s, code.structEnd heap st = some s ∧ code.StructHolds s kvs
  tablePut : ∀ {heap heap' t count kvs kv}, kvs.length < count → count ≤ limit → code.TableFilled heap t count kvs →
    heap.Frozen heap' → Puttable heap' kvs kv → (code.tablePut heap' t kv.key kv.value).isSome
  table : ∀ {heap t kvs}, kvs.length ≤ limit → code.TableFilled heap t kvs.length kvs →
    t.data.isSome ∧ (live t.cells).Perm kvs

end DictionaryCode

end SwiftJanet
