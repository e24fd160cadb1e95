import Mathlib.Data.List.TakeWhile
import SwiftJanet.Define.Binding

/-!
# `JanetVM.define`

`janet_def` puts an entry, a table of its own, under the symbol of a name. The symbol is that of the bytes up to the
first NUL (`janetCsymbol`).

- `define`: make the raw value, and then the entry;
- `janetDef_keeps`: a definition changes the environment and nothing else that was there.
-/

namespace SwiftJanet

open Lib Lib.Probing

/-! ## C strings -/

/-- The bytes that `strlen`, converted to `int32_t`, counts of a C string; `none` when that is negative. -/
def cBytes (cstr : List UInt8) : Option (List UInt8) :=
  let len := BitVec.ofNat 32 (Eval.untilNul cstr).length
  if len.slt 0#32 then none else some (cstr.take len.toNat)

/-- The NUL behind the text is not read. -/
theorem untilNul_cString (t : Text) : Eval.untilNul (Eval.cString t) = Eval.untilNul t.utf8 := by
  rw [Eval.untilNul, Eval.cString, List.takeWhile_append]
  split
  · next h =>
    rw [List.takeWhile_cons_of_neg (by simp), List.append_nil]
    exact ((List.takeWhile_prefix _).eq_of_length h).symm
  · rfl

theorem untilNul_eq_self_iff {str : List UInt8} : Eval.untilNul str = str ↔ 0 ∉ str := by
  rw [Eval.untilNul, List.takeWhile_eq_self_iff]
  simp only [decide_eq_true_eq]
  constructor
  · exact fun h h0 => h 0 h0 rfl
  · rintro h x hx rfl
    exact h hx

/-- A short C string is read up to its NUL. -/
theorem cBytes_short {cstr : List UInt8} (h : (Eval.untilNul cstr).length < 2 ^ 31) :
    cBytes cstr = some (Eval.untilNul cstr) := by
  have hnat : (BitVec.ofNat 32 (Eval.untilNul cstr).length).toNat = (Eval.untilNul cstr).length := by
    rw [BitVec.toNat_ofNat]
    omega
  have hslt : (BitVec.ofNat 32 (Eval.untilNul cstr).length).slt 0#32 = false := by
    rw [BitVec.slt_zero_eq_msb, BitVec.msb_eq_false_iff_two_mul_lt]
    omega
  simp only [cBytes, hslt, Bool.false_eq_true, if_false, hnat]
  exact congrArg some (List.prefix_iff_eq_take.mp (List.takeWhile_prefix _)).symm

/-- The bytes of a short text without a NUL arrive whole. -/
theorem cBytes_cString {t : Text} (hnul : 0 ∉ t.utf8) (hshort : t.utf8.length < 2 ^ 31) :
    cBytes (Eval.cString t) = some t.utf8 := by
  have h : Eval.untilNul (Eval.cString t) = t.utf8 := (untilNul_cString t).trans (untilNul_eq_self_iff.mpr hnul)
  rw [cBytes_short (by rw [h]; exact hshort), h]

/-- `janet_csymbol`: there is no memory for a negative length. -/
def janetCsymbol (cstr : List UInt8) : Making Nat :=
  match cBytes cstr with
  | none => .lift (.traps .memory)
  | some bytes => allocating (·.janetSymbol bytes)

/-- `janet_cstring`. -/
def janetCstring (cstr : List UInt8) : Making Nat :=
  match cBytes cstr with
  | none => .lift (.traps .memory)
  | some bytes => allocating (·.janetString bytes)

/-! ## Definitions -/

section Define

variable (code : DictionaryCode)

/-- `janet_add_meta`, without a source file. -/
def janetAddMeta (table : Nat) (doc : Option (List UInt8)) : Making Unit :=
  match doc with
  | none => pure ()
  | some doc => do
    let keyword ← janetCsymbol (Eval.cString "doc".toList)
    let string ← janetCstring doc
    tablePut code table (janetWrapKeyword keyword) (janetWrapString string)

/-- The entry that `janet_def` makes. -/
def janetDefEntry (value : Janet) (doc : Option (List UInt8)) : Making Nat := do
  let subt ← allocating (·.allocTable (code.table 2#32))
  let keyword ← janetCsymbol (Eval.cString "value".toList)
  tablePut code subt (janetWrapKeyword keyword) value
  janetAddMeta code subt doc
  return subt

/-- `janet_def`. -/
def janetDef (env : Nat) (name : List UInt8) (value : Janet) (doc : Option (List UInt8)) : Making Unit := do
  let subt ← janetDefEntry code value doc
  let symbol ← janetCsymbol name
  tablePut code env (janetWrapSymbol symbol) (janetWrapTable subt)

/-- `JanetVM.define`, on its own thread. -/
def define (env : Nat) (name : Text) (value : JanetValue) (documentation : Option Text) : Making Unit := do
  let raw ← makeRaw code value 0
  janetDef code env (Eval.cString name) raw (documentation.map Eval.cString)

end Define

/-! ## What a definition keeps -/

section Keeps

variable {code : DictionaryCode} {env p : Nat}

theorem janetCsymbol_keeps (cstr : List UInt8) : (janetCsymbol cstr).Keeps (Heap.Keeps 0) := by
  unfold janetCsymbol
  split
  · exact lift_keeps _
  · exact allocating_keeps fun _ => keeps_janetSymbol _

theorem janetCstring_keeps (cstr : List UInt8) : (janetCstring cstr).Keeps (Heap.Keeps 0) := by
  unfold janetCstring
  split
  · exact lift_keeps _
  · exact allocating_keeps fun _ => keeps_janetString _

theorem janetAddMeta_keeps (doc : Option (List UInt8)) : (janetAddMeta code p doc).Keeps (Heap.Keeps p) := by
  unfold janetAddMeta
  split
  · exact pure_keeps _
  · exact bind_keeps (fun heap => (janetCsymbol_keeps _ heap).weaken) fun _ =>
      bind_keeps (fun heap => (janetCstring_keeps _ heap).weaken) fun _ => tablePut_keeps code

/-- Making an entry changes nothing that was there. -/
theorem janetDefEntry_keeps (value : Janet) (doc : Option (List UInt8)) :
    (janetDefEntry code value doc).Keeps (Heap.Keeps 0) := by
  intro heap
  apply @keeps_of_newTable _ _ (code.table 2#32)
  have h : (do
      let keyword ← janetCsymbol (Eval.cString "value".toList)
      tablePut code heap.tables.next (janetWrapKeyword keyword) value
      janetAddMeta code heap.tables.next doc
      return heap.tables.next : Making Nat).Keeps (Heap.Keeps heap.tables.next) :=
    bind_keeps (fun heap => (janetCsymbol_keeps _ heap).weaken) fun _ =>
      bind_keeps (tablePut_keeps code) fun _ => bind_keeps (janetAddMeta_keeps doc) fun _ => pure_keeps _
  exact h _

/-- **A definition changes the environment and nothing else that was there.** -/
theorem janetDef_keeps (name : List UInt8) (value : Janet) (doc : Option (List UInt8)) :
    (janetDef code env name value doc).Keeps (Heap.Keeps env) :=
  bind_keeps (fun heap => (janetDefEntry_keeps value doc heap).weaken) fun _ =>
    bind_keeps (fun heap => (janetCsymbol_keeps name heap).weaken) fun _ => tablePut_keeps code

theorem define_keeps (name : Text) (v : JanetValue) (documentation : Option Text) :
    (define code env name v documentation).Keeps (Heap.Keeps env) :=
  bind_keeps (fun heap => (makeRaw_keeps code v 0 heap).weaken) fun _ => janetDef_keeps _ _ _

end Keeps

/-! ## What a definition throws -/

section Throws

variable {code : DictionaryCode} {env p : Nat}

theorem janetCsymbol_neverThrows (cstr : List UInt8) : (janetCsymbol cstr).NeverThrows := by
  intro heap e h
  unfold janetCsymbol at h
  cases hbytes : cBytes cstr with
  | none =>
    rw [hbytes] at h
    cases h
  | some bytes =>
    rw [hbytes] at h
    cases h

theorem janetCstring_neverThrows (cstr : List UInt8) : (janetCstring cstr).NeverThrows := by
  intro heap e h
  unfold janetCstring at h
  cases hbytes : cBytes cstr with
  | none =>
    rw [hbytes] at h
    cases h
  | some bytes =>
    rw [hbytes] at h
    cases h

theorem tablePut_neverThrows (key value : Janet) : (tablePut code p key value).NeverThrows := by
  intro heap e h
  unfold tablePut at h
  split at h
  · cases h
  · cases h

theorem janetAddMeta_neverThrows (doc : Option (List UInt8)) : (janetAddMeta code p doc).NeverThrows := by
  cases doc with
  | none => exact .pure ()
  | some doc =>
    exact .bind (janetCsymbol_neverThrows _) fun _ => .bind (janetCstring_neverThrows _) fun _ => tablePut_neverThrows _ _

/-- `janet_def` throws nothing, so a definition throws what making its value throws. -/
theorem janetDef_neverThrows (name : List UInt8) (value : Janet) (doc : Option (List UInt8)) :
    (janetDef code env name value doc).NeverThrows := by
  have hentry : (janetDefEntry code value doc).NeverThrows :=
    .bind (fun _ _ h => (nomatch h)) fun _ => .bind (janetCsymbol_neverThrows _) fun _ =>
      .bind (tablePut_neverThrows _ _) fun _ => .bind (janetAddMeta_neverThrows doc) fun _ => .pure _
  exact .bind hentry fun _ => .bind (janetCsymbol_neverThrows _) fun _ => tablePut_neverThrows _ _

/-- **A definition that throws has only made a part of its value.** -/
theorem define_throws {name : Text} {v : JanetValue} {documentation : Option Text} {heap heap' : Heap} {e : JanetError}
    (h : define code env name v documentation heap = (.throws e, heap')) :
    makeRaw code v 0 heap = (.throws e, heap') ∧ heap.Keeps 0 heap' := by
  have hmake := Computation.throws_of_bind (fun raw => janetDef_neverThrows _ raw _) h
  exact ⟨hmake, .of_run (makeRaw_keeps code v 0) hmake⟩

end Throws

end SwiftJanet
