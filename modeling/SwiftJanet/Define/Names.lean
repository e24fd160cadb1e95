import SwiftJanet.Define.Environment
import SwiftJanet.Define.Sizes
import SwiftJanet.Eval.Report

/-!
# Texts that arrive whole

Values carry their bytes with a length, but sources and names go to the VM as C strings.

- `WholeSource`: evaluating a source is running the loop on all of its bytes;
- `WholeName`: a definition binds the symbol of all bytes of its name, and no other one;
- `wholeText_iff`: a text arrives whole both ways exactly when it has no NUL and its length fits into 32 bits.
-/

namespace SwiftJanet

open Lib JanetValue Eval

/-- Whatever the parser and the heap are, evaluating the source does what the loop does on all of its bytes. -/
def WholeSource [CanonicalForm] (source : Text) : Prop :=
  ∀ (Q : Type) (parser : JanetParser Q) (pick : Heap → List JanetFiber → Nat) (janetToString : Heap → Janet → List UInt8)
    (stackn : Nat) (heap : Heap), eval parser pick janetToString stackn source "swift".toList heap =
      report janetToString (janetDobytes parser pick stackn source.utf8 (Text.utf8 "swift".toList) heap)

/-- In every environment, a definition of any value that returns binds the bytes of the name to an entry of its own,
which resolves to the value, and leaves the binding of all other bytes as it was. -/
def WholeName (hashing : Heap → Hashing) (K : Heap → Janet → Prop) (name : Text) : Prop :=
  ∀ (heap heap' : Heap) (env : Nat) (S : Nat → Prop) (v : JanetValue) (documentation : Option Text),
    heap.Environment hashing K env S →
    define (vmDictionaries hashing) env name v documentation heap = (.returns (), heap') →
    (∃ raw heap₁ e, makeRaw (vmDictionaries hashing) v 0 heap = (.returns raw, heap₁) ∧ heap₁.tables.next ≤ e ∧
      heap'.binding hashing env name.utf8 = janetWrapTable e ∧
      heap'.janetResolveExt hashing env name.utf8 = ⟨.bindingDef, storedValue raw, .none⟩) ∧
    ∀ bytes, bytes ≠ name.utf8 → heap'.binding hashing env bytes = heap.binding hashing env bytes

/-! ## Parsers of single bytes -/

/-- A parser to which some bytes are values. -/
def byteParser (f : UInt8 → Option Janet) : JanetParser Unit where
  init := ()
  consume _ byte := ((), (f byte).map fun v => .starts (.finishes id v))
  eof _ := ((), none)
  error _ := none
  line _ := 1
  column _ := 1

section Bytes

variable {f : UInt8 → Option Janet} {pick : Heap → List JanetFiber → Nat} {janetToString : Heap → Janet → List UInt8}

theorem forms_byteParser : ∀ (bytes : List UInt8) (form : Option Form), (byteParser f).forms bytes () form =
    (form.toList ++ (bytes.filterMap f).map fun v => .starts (.finishes id v), false)
  | [], form => by
    rw [JanetParser.forms]
    rfl
  | byte :: bytes, form => by
    rw [JanetParser.forms]
    simp only [byteParser, Option.isSome_none, Bool.false_eq_true, if_false]
    have ih := forms_byteParser bytes ((f byte).map fun v => Form.starts (.finishes id v))
    simp only [byteParser] at ih
    rw [ih]
    cases hf : f byte <;> simp [hf]

theorem stopsAt_values : ∀ vs : List Janet, stopsAt (vs.map fun v => .starts (.finishes id v)) false = none
  | [] => rfl
  | _ :: vs => stopsAt_values vs

theorem runs_values : ∀ vs : List Janet, runs (vs.map fun v => .starts (.finishes id v)) = vs.map (Run.finishes id)
  | [] => rfl
  | v :: vs => congrArg (Run.finishes id v :: ·) (runs_values vs)

/-- The result is the last value. -/
theorem report_byteParser [CanonicalForm] (bytes sourcePath : List UInt8) (heap : Heap) :
    (report janetToString (janetDobytes (byteParser f) pick 1 bytes sourcePath heap)).1 =
      copyOut (janetDobytes (byteParser f) pick 1 bytes sourcePath heap).2.2 ((bytes.filterMap f).getLast?.getD janetWrapNil) := by
  have hspec := dobytes_spec (byteParser f) pick 1 bytes sourcePath heap
  have hforms : (byteParser f).forms bytes (byteParser f).init none =
      ((bytes.filterMap f).map fun v => .starts (.finishes id v), false) := forms_byteParser bytes none
  simp only [hforms, stopsAt_values, runs_values] at hspec
  generalize janetDobytes (byteParser f) pick 1 bytes sourcePath heap = result at *
  obtain ⟨flags, out, heap'⟩ := result
  obtain ⟨rfl, hout, -⟩ := hspec
  have hlast : lastValue (((bytes.filterMap f).map (Run.finishes id)).map (Run.fateIn (1 == 0))) =
      (bytes.filterMap f).getLast?.getD janetWrapNil := by
    rw [lastValue, List.map_map, List.getLast?_map, Option.map_map]
    have hid : Fate.value ∘ Run.fateIn (1 == 0) ∘ Run.finishes id = id := rfl
    rw [hid, Option.map_id, id_eq]
  rw [hlast] at hout
  show copyOut heap' out = copyOut heap' _
  rw [← hout]

/-- A NUL as a value. -/
def nulValue (byte : UInt8) : Option Janet := if byte = 0 then some janetWrapTrue else none

theorem filterMap_nulValue {bytes : List UInt8} :
    (bytes.filterMap nulValue).getLast?.getD janetWrapNil = if 0 ∈ bytes then janetWrapTrue else janetWrapNil := by
  cases hlast : (bytes.filterMap nulValue).getLast? with
  | none =>
    have hnil := List.getLast?_eq_none_iff.mp hlast
    have hnot : 0 ∉ bytes := fun hmem => by
      have : janetWrapTrue ∈ bytes.filterMap nulValue := List.mem_filterMap.mpr ⟨0, hmem, rfl⟩
      rw [hnil] at this
      cases this
    rw [if_neg hnot]
    rfl
  | some v =>
    obtain ⟨byte, hmem, hv⟩ := List.mem_filterMap.mp (List.mem_of_getLast? hlast)
    unfold nulValue at hv
    split at hv
    · next hbyte =>
      subst hbyte
      cases hv
      rw [if_pos hmem]
      rfl
    · cases hv

/-- A source that is too long for the VM traps, and one with a NUL is cut there: a parser that knows the NUL for a
value sees the difference. -/
theorem wholeSource_iff [CanonicalForm] {source : Text} : WholeSource source ↔ 0 ∉ source.utf8 ∧ source.utf8.length < 2 ^ 31 := by
  have huntil : untilNul (cString source) = untilNul source.utf8 := untilNul_cString source
  have hname : untilNul (cString "swift".toList) = Text.utf8 "swift".toList := by decide
  constructor
  · intro h
    have hrun := congrArg Prod.fst (h Unit (byteParser nulValue) (fun _ _ => 0) (fun _ _ => []) 1 Heap.empty)
    rw [report_byteParser, filterMap_nulValue] at hrun
    by_cases hshort : Short source "swift".toList
    · rw [eval_short (byteParser nulValue) _ _ 1 Heap.empty hshort, report_byteParser, filterMap_nulValue, huntil,
        if_neg (fun hmem => ?_)] at hrun
      · have hnul : 0 ∉ source.utf8 := fun hmem => by
          rw [if_pos hmem] at hrun
          cases hrun
        have hcounted := hshort.1
        rw [Counted, huntil, untilNul_eq_self_iff.mpr hnul] at hcounted
        exact ⟨hnul, hcounted⟩
      · have := List.mem_takeWhile_imp hmem
        simp at this
    · rw [eval_long (byteParser nulValue) _ _ 1 Heap.empty hshort] at hrun
      split at hrun
      · cases hrun
      · cases hrun
  · rintro ⟨hnul, hlen⟩ Q parser pick janetToString stackn heap
    have hwhole : untilNul source.utf8 = source.utf8 := untilNul_eq_self_iff.mpr hnul
    have hshort : Short source "swift".toList := by
      refine ⟨?_, by decide⟩
      rw [Counted, huntil, hwhole]
      exact hlen
    rw [eval_short parser pick janetToString stackn heap hshort, huntil, hwhole, hname]

end Bytes

/-! ## Names -/

/-- The table of `heapWithTable`, as an environment. -/
theorem heapWithTable_environment (hashing : Heap → Hashing) (K : Heap → Janet → Prop) :
    heapWithTable.Environment hashing K 1 (· = 1) := by
  have hget : heapWithTable.tables.get 1 = janetTable 0#32 := Store.get_alloc
  refine ⟨List.Pairwise.nil, rfl, ?_, ?_, ?_, ?_⟩
  · rintro t rfl
    exact Nat.one_pos
  · rintro t rfl
    exact Nat.lt_succ_self 1
  · rintro t rfl
    rw [hget]
    exact inv_memempty Nat.one_pos
  · rintro t q rfl hq
    rw [hget] at hq
    cases hq

section Names

variable {hashing : Heap → Hashing} {K : Heap → Janet → Prop} {name : Text} {bytes : List UInt8}

/-- A name whose bytes arrive is bound. -/
theorem wholeName_of_cBytes (hl : KeyLaws hashing K) (h : ∀ bytes, cBytes (cString name) = some bytes → bytes = name.utf8) :
    WholeName hashing K name := by
  intro heap heap' env S v documentation he hrun
  obtain ⟨raw, heap₁, e, bytes, hraw, hbytes, hle, hentry, _, _, _, hnew, hothers⟩ := define_spec hl he hrun
  obtain rfl := h bytes hbytes
  exact ⟨⟨raw, heap₁, e, hraw, hle, hnew, hentry.resolve hl.toNameLaws hnew⟩, hothers⟩

/-- When other bytes arrive, these are bound instead. -/
theorem not_wholeName_of_cBytes (hl : KeyLaws hashing K) (h : cBytes (cString name) = some bytes)
    (hne : bytes ≠ name.utf8) : ¬WholeName hashing K name := by
  intro hwhole
  have he := heapWithTable_environment hashing K
  have hnil : Passes .nil 0 := Passes.leaf rfl (by decide) trivial trivial
  have hsmall : All SmallStruct .nil := .intro trivial fun w hw => absurd hw List.not_mem_nil
  obtain ⟨heap', hrun⟩ := @define_returns hashing _ _ name .nil heapWithTable_hasRoom hnil (not_lacksCells hsmall)
    (by rw [h, Option.isSome_some])
  obtain ⟨_, _, e, bytes', _, hbytes, _, _, _, _, _, hnew, _⟩ := define_spec hl he hrun
  obtain rfl := Option.some.inj (h.symm.trans hbytes)
  have hold := (hwhole _ _ _ _ _ _ he hrun).2 bytes hne
  rw [he.binding_new hl (fun q hq => absurd hq List.not_mem_nil), hnew] at hold
  cases hold

/-- **A definition binds the symbol of its name**, and no other one, exactly when no other bytes arrive. -/
theorem wholeName_iff (hl : KeyLaws hashing K) :
    WholeName hashing K name ↔ ∀ bytes, cBytes (cString name) = some bytes → bytes = name.utf8 := by
  constructor
  · intro h bytes hbytes
    by_contra hne
    exact not_wholeName_of_cBytes hl hbytes hne h
  · exact wholeName_of_cBytes hl

/-- **A text arrives whole**, as a source and as a name, exactly when it has no NUL and fewer than `2 ^ 31` bytes. -/
theorem wholeText_iff [CanonicalForm] (hl : KeyLaws hashing K) {t : Text} :
    WholeSource t ∧ WholeName hashing K t ↔ 0 ∉ t.utf8 ∧ t.utf8.length < 2 ^ 31 := by
  rw [wholeSource_iff]
  constructor
  · exact fun h => h.1
  · intro h
    refine ⟨h, wholeName_of_cBytes hl fun bytes hbytes => ?_⟩
    exact Option.some.inj (hbytes.symm.trans (cBytes_cString h.1 h.2))

theorem wholeText_greeting : @WholeSource ⟨id⟩ "grüße".toList ∧ WholeName plainHashing Heap.IsName "grüße".toList :=
  (@wholeText_iff _ _ ⟨id⟩ plainHashing_laws _).mpr (by decide)

/-- The digits one and two. -/
def digitValue (byte : UInt8) : Option Janet :=
  if byte = 49 then some (janetWrapNumber ⟨0x3FF0000000000000#64⟩)
  else if byte = 50 then some (janetWrapNumber ⟨0x4000000000000000#64⟩)
  else none

/-- The text "1", NUL, "2" evaluates to the result of "1", and as a name it binds "1". -/
theorem not_wholeText_nul : ¬@WholeSource ⟨id⟩ ['1', Char.ofNat 0, '2'] ∧
    ¬WholeName plainHashing Heap.IsName ['1', Char.ofNat 0, '2'] := by
  constructor
  · intro h
    have hrun := congrArg Prod.fst (h Unit (byteParser digitValue) (fun _ _ => 0) (fun _ _ => []) 1 Heap.empty)
    rw [@eval_short ⟨id⟩ _ (byteParser digitValue) _ _ 1 _ _ Heap.empty (by decide), @report_byteParser _ _ _ ⟨id⟩,
      @report_byteParser _ _ _ ⟨id⟩] at hrun
    have hcut : ((untilNul (cString ['1', Char.ofNat 0, '2'])).filterMap digitValue).getLast?.getD janetWrapNil =
        janetWrapNumber ⟨0x3FF0000000000000#64⟩ := by decide
    have hall : ((Text.utf8 ['1', Char.ofNat 0, '2']).filterMap digitValue).getLast?.getD janetWrapNil =
        janetWrapNumber ⟨0x4000000000000000#64⟩ := by decide
    rw [hcut, hall] at hrun
    cases hrun
  · exact @not_wholeName_of_cBytes _ _ _ [49] plainHashing_laws (by decide) (by decide)

end Names

end SwiftJanet
