import SwiftJanet.Copy.RoundTrip

/-!
# Numbers and text across the boundary

A number goes in by its bits and a string comes out by decoding its bytes. Neither always survives:

- `numbersStay_iff`: the numbers in a value stay numbers exactly when none is a NaN whose tag bits say another type;
- `textSurvives_iff`: text that is copied out and made again has the same bytes exactly when they were well-formed,
  and two texts have equal copies when they are canonically equivalent.
-/

namespace SwiftJanet

open Lib JanetValue

/-! ## Numbers -/

/-- Bits 47 to 50, where a boxed word has its type. -/
def Double.tag (d : Double) : BitVec 64 := (d.bits >>> 47) &&& 0xF#64

/-- Not a NaN, or one that leaves the tag bits clear. -/
def Double.Untagged (d : Double) : Prop := d.isNaN = true → d.tag = 0#64

instance (d : Double) : Decidable d.Untagged := inferInstanceAs (Decidable (_ → _))

theorem JanetType.ofTag_eq_number {n : Nat} : JanetType.ofTag n = .number ↔ n = 0 := by
  unfold JanetType.ofTag
  split <;> simp_all

/-- A word reads as a number exactly when its bits are untagged. -/
theorem janetType_eq_number {d : Double} : janetType (.number d) = .number ↔ d.Untagged := by
  rw [janetType, Double.Untagged]
  cases d.isNaN with
  | false => simp
  | true =>
    rw [if_pos rfl, JanetType.ofTag_eq_number]
    constructor
    · intro h0 _
      exact BitVec.eq_of_toNat_eq h0
    · intro h0
      exact congrArg BitVec.toNat (h0 rfl)

/-- The tag bits of a word with the whole tag of a type. -/
theorem tag_of_nanboxTag {d : Double} {t : JanetType} (h : d.bits &&& 0xFFFF800000000000#64 = janetNanboxTag t) :
    d.tag = BitVec.ofNat 64 t.rawValue := by
  have hmask : (0xFFFF800000000000#64 >>> 47) &&& 0xF#64 = 0xF#64 := by decide
  calc d.tag = (d.bits >>> 47) &&& ((0xFFFF800000000000#64 >>> 47) &&& 0xF#64) := by rw [hmask]; rfl
    _ = ((d.bits &&& 0xFFFF800000000000#64) >>> 47) &&& 0xF#64 := by
      rw [← BitVec.and_assoc, BitVec.ushiftRight_and_distrib]
    _ = (janetNanboxTag t >>> 47) &&& 0xF#64 := by rw [h]
    _ = BitVec.ofNat 64 t.rawValue := by cases t <;> decide

/-- An untagged number passes for no other type. -/
theorem janetChecktype_untagged {d : Double} {t : JanetType} (h : d.Untagged) :
    janetChecktype (.number d) t = (t == .number) := by
  cases hd : d.isNaN with
  | false => exact janetChecktype_number hd
  | true =>
    unfold janetChecktype
    split
    · next ht =>
      subst ht
      simp [janetType_eq_number.mpr h]
    · next ht =>
      have hne : d.bits &&& 0xFFFF800000000000#64 ≠ janetNanboxTag t := by
        intro htag
        have h0 := tag_of_nanboxTag htag
        rw [h hd] at h0
        cases t with
        | number => exact ht rfl
        | _ => exact absurd h0 (by decide)
      rw [beq_eq_false_iff_ne.mpr ht]
      exact beq_eq_false_iff_ne.mpr hne

section Numbers

variable [CanonicalForm] (code : DictionaryCode)

/-- At whatever depth and in whatever heap the number is made, its word is read as that number: `janet_type` and
`janet_checktype` say so, and copying it out gives the same bits, or a NaN for a NaN. -/
def NumberStays (d : Double) : Prop :=
  ∀ depth heap, ∃ raw, makeRaw code (.number d) depth heap = (.returns raw, heap) ∧ janetType raw = .number ∧
    (∀ t, janetChecktype raw t = (t == .number)) ∧ ∃ d', copyOut heap raw = .returns (.number d') ∧
      d'.isNaN = d.isNaN ∧ (d.isNaN = false → d' = d)

/-- What is a number stays one. -/
def NumbersStay : JanetValue → Prop
  | .number d => NumberStays code d
  | _ => True

/-- What is a number is untagged. -/
def UntaggedNumbers : JanetValue → Prop
  | .number d => d.Untagged
  | _ => True

theorem numberStays_iff {d : Double} : NumberStays code d ↔ d.Untagged := by
  constructor
  · intro h
    obtain ⟨raw, hraw, htype, _⟩ := h 0 Heap.empty
    have : raw = .number d := by
      injection hraw with hraw
      exact (Outcome.returns.inj hraw).symm
    rw [this] at htype
    exact janetType_eq_number.mp htype
  · intro h depth heap
    have htype : janetType (.number d) = .number := janetType_eq_number.mpr h
    refine ⟨.number d, rfl, htype, fun t => janetChecktype_untagged h, d, ?_, rfl, fun _ => rfl⟩
    rw [copyOut, initRawWith, initRaw, htype]
    rfl

omit [CanonicalForm] in
/-- A property of all values inside is weaker for a weaker property. -/
theorem JanetValue.All.imp {p q : JanetValue → Prop} (hpq : ∀ v, p v → q v) {v : JanetValue} (h : All p v) : All q v := by
  induction h with
  | intro h _ ih => exact .intro (hpq _ h) ih

/-- **The numbers in a value, alone or nested, stay numbers exactly when all of them are untagged.** -/
theorem numbersStay_iff (v : JanetValue) : All (NumbersStay code) v ↔ All UntaggedNumbers v := by
  have here : ∀ w : JanetValue, NumbersStay code w ↔ UntaggedNumbers w := by
    intro w
    cases w with
    | number d => exact numberStays_iff code
    | _ => exact Iff.rfl
  exact ⟨All.imp fun w => (here w).mp, All.imp fun w => (here w).mpr⟩

omit [CanonicalForm] in
/-- A NaN with the bits of nil is read as nil. -/
theorem not_numbersStay_nil : ¬∀ v : JanetValue, All (@NumbersStay ⟨id⟩ (vmDictionaries plainHashing)) v := by
  intro h
  obtain ⟨raw, hraw, htype, _⟩ := (h (.number ⟨0xFFF8800000000001#64⟩)).here 0 Heap.empty
  have : raw = .number ⟨0xFFF8800000000001#64⟩ := by
    injection hraw with hraw
    exact (Outcome.returns.inj hraw).symm
  rw [this] at htype
  exact absurd htype (by decide)

end Numbers

/-! ## Text -/

/-- The bytes are the UTF-8 of some text. -/
def WellFormed (bytes : List UInt8) : Prop := ∃ text : Text, text.utf8 = bytes

/-- The types whose objects are bytes. -/
def JanetType.isText : JanetType → Bool
  | .string | .keyword | .symbol => true
  | _ => false

/-- The Swift value of a text, under the constructor of the type. -/
def JanetValue.ofText : JanetType → Text → JanetValue
  | .keyword, text => .keyword text
  | .symbol, text => .symbol text
  | _, text => .string text

/-- `raw` is a string, keyword or symbol with these bytes, as many as an `int32_t` counts. -/
structure Heap.IsText (heap : Heap) (raw : Janet) (t : JanetType) (bytes : List UInt8) : Prop where
  kind : t.isText = true
  type : janetType raw = t
  held : (janetUnwrapString raw).map heap.strings.get = some bytes
  fits : bytes.length < 2 ^ 31

section Text

variable {code : DictionaryCode} {heap heap' : Heap} {raw raw' : Janet} {t t' : JanetType}
  {bytes bytes' : List UInt8} {text : Text} {depth : Nat}

theorem wellFormed_iff : WellFormed bytes ↔ (Text.decoding bytes).utf8 = bytes := by
  constructor
  · rintro ⟨text, rfl⟩
    rw [Text.decoding_utf8]
  · intro h
    exact ⟨_, h⟩

/-- Well-formed bytes that decode to one text are the same. -/
theorem decoding_injective (h : WellFormed bytes) (h' : WellFormed bytes')
    (heq : Text.decoding bytes = Text.decoding bytes') : bytes = bytes' := by
  rw [← wellFormed_iff.mp h, heq, wellFormed_iff.mp h']

theorem withJanetBytes_eq {body : List UInt8 → Making Janet} (hlen : text.utf8.length < 2 ^ 31) :
    withJanetBytes text body = body text.utf8 := by
  rw [withJanetBytes, int32_eq hlen]
  rfl

/-- The word for a new object of bytes is a text with them. -/
theorem isText_of_hasBytes {p : Nat} (ht : t.isText = true) (h : heap.HasBytes p bytes) (hlen : bytes.length < 2 ^ 31) :
    heap.IsText (.box t p) t bytes := by
  refine ⟨ht, rfl, ?_, hlen⟩
  rw [janetUnwrapString, janetUnwrapPointer_box, pointer_pos h.1, Option.map_some, h.2.2]

/-- Making a raw value of a text that fits gives a text of the type with its bytes. -/
theorem makeRaw_text (code : DictionaryCode) (ht : t.isText = true) (hlen : text.utf8.length < 2 ^ 31) (depth : Nat)
    (heap : Heap) :
    ∃ raw heap', makeRaw code (.ofText t text) depth heap = (.returns raw, heap') ∧ heap'.IsText raw t text.utf8 := by
  cases t with
  | string =>
    refine ⟨_, _, ?_, isText_of_hasBytes ht (janetString_spec heap text.utf8).2 hlen⟩
    rw [JanetValue.ofText, makeRaw, withJanetBytes_eq hlen]
    · rfl
    · exact fun h => nomatch h
    · exact fun h => nomatch h
  | keyword =>
    refine ⟨_, _, ?_, isText_of_hasBytes ht (janetSymbol_spec heap text.utf8).2 hlen⟩
    rw [JanetValue.ofText, makeRaw, withJanetBytes_eq hlen]
    rfl
  | symbol =>
    refine ⟨_, _, ?_, isText_of_hasBytes ht (janetSymbol_spec heap text.utf8).2 hlen⟩
    rw [JanetValue.ofText, makeRaw, withJanetBytes_eq hlen]
    rfl
  | _ => cases ht

/-- Text that does not fit traps. -/
theorem fits_of_makeRaw (ht : t.isText = true) (h : makeRaw code (.ofText t text) depth heap = (.returns raw, heap')) :
    text.utf8.length < 2 ^ 31 := by
  by_contra hlen
  have htrap : ∀ body : List UInt8 → Making Janet, withJanetBytes text body heap = (.traps .overflow, heap) := by
    intro body
    rw [withJanetBytes, int32, if_neg hlen]
    rfl
  cases t with
  | string =>
    rw [JanetValue.ofText, makeRaw, htrap] at h
    · cases h
    · intro h; cases h
    · intro h; cases h
  | keyword => rw [JanetValue.ofText, makeRaw, htrap] at h; cases h
  | symbol => rw [JanetValue.ofText, makeRaw, htrap] at h; cases h
  | _ => cases ht

/-- What is made of a text has its bytes and no others. -/
theorem bytes_of_makeRaw (ht : t.isText = true) (h : makeRaw code (.ofText t text) depth heap = (.returns raw, heap'))
    (hraw : heap'.IsText raw t bytes) : text.utf8 = bytes := by
  obtain ⟨raw₁, heap₁, h₁, hraw₁⟩ := makeRaw_text code ht (fits_of_makeRaw ht h) depth heap
  rw [h] at h₁
  obtain ⟨hraws, rfl⟩ := Prod.mk.inj h₁
  obtain rfl := Outcome.returns.inj hraws
  exact Option.some.inj (hraw₁.held.symm.trans hraw.held)

variable [CanonicalForm]

/-- A text copies to the decoding of its bytes. -/
theorem copyOut_text (h : heap.IsText raw t bytes) : copyOut heap raw = .returns (.ofText t (Text.decoding bytes)) := by
  obtain ⟨p, hp, hbytes⟩ := Option.map_eq_some_iff.mp h.held
  have hkind := h.kind
  rw [copyOut, initRawWith, initRaw, h.type]
  cases t with
  | string => simp only [hp, ofJanetBytes, hbytes]; rfl
  | keyword => simp only [janetUnwrapKeyword, show janetUnwrapPointer raw = some p from hp, ofJanetBytes, hbytes]; rfl
  | symbol => simp only [janetUnwrapSymbol, show janetUnwrapPointer raw = some p from hp, ofJanetBytes, hbytes]; rfl
  | _ => cases hkind

/-- Copied out and made again, the text is one of the same type with the same bytes, or copying throws. -/
def TextSurvives (code : DictionaryCode) (heap : Heap) (raw : Janet) (t : JanetType) (bytes : List UInt8) : Prop :=
  (∃ e, copyOut heap raw = .throws e ∧ e.phase = .copy) ∨ ∃ v, copyOut heap raw = .returns v ∧
    ∀ depth heap', ∃ raw' heap'', makeRaw code v depth heap' = (.returns raw', heap'') ∧ heap''.IsText raw' t bytes

/-- Swift's `==` on the copies of two raw values. -/
def EqualCopies (heap : Heap) (raw raw' : Janet) : Prop :=
  ∃ v v', copyOut heap raw = .returns v ∧ copyOut heap raw' = .returns v' ∧ equal v v' = true

theorem equal_ofText (ht : t.isText = true) (ht' : t'.isText = true) {s s' : Text} :
    equal (.ofText t s) (.ofText t' s') = true ↔ t = t' ∧ s.equal s' = true := by
  cases t <;> cases t' <;> simp_all [JanetType.isText, JanetValue.ofText, equal]

theorem textSurvives_iff (h : heap.IsText raw t bytes) : TextSurvives code heap raw t bytes ↔ WellFormed bytes := by
  have hcopy := copyOut_text h
  constructor
  · rintro (⟨e, he, _⟩ | ⟨v, hv, hmake⟩)
    · rw [hcopy] at he
      cases he
    · rw [hcopy] at hv
      obtain rfl := Outcome.returns.inj hv
      obtain ⟨raw', heap', hraw, ht⟩ := hmake 0 heap
      exact wellFormed_iff.mpr (bytes_of_makeRaw h.kind hraw ht)
  · intro hw
    have hbytes := wellFormed_iff.mp hw
    refine Or.inr ⟨_, hcopy, fun depth heap' => ?_⟩
    have hmake := makeRaw_text code h.kind (by rw [hbytes]; exact h.fits) depth heap'
    rw [hbytes] at hmake
    exact hmake

/-- **Text survives the crossing exactly when its bytes are well-formed**, and the copies of two texts are equal exactly
when the texts are of one type and canonically equivalent, which well-formed bytes are only as different spellings. -/
theorem text_crossing (h : heap.IsText raw t bytes) (h' : heap.IsText raw' t' bytes') :
    (TextSurvives code heap raw t bytes ↔ WellFormed bytes) ∧
      (EqualCopies heap raw raw' ↔ t = t' ∧ (Text.decoding bytes).equal (Text.decoding bytes') = true) ∧
      (WellFormed bytes → WellFormed bytes' → bytes ≠ bytes' → Text.decoding bytes ≠ Text.decoding bytes') := by
  refine ⟨textSurvives_iff h, ?_, fun hw hw' hne heq => hne (decoding_injective hw hw' heq)⟩
  rw [← equal_ofText h.kind h'.kind]
  constructor
  · rintro ⟨v, v', hv, hv', heq⟩
    rw [copyOut_text h] at hv
    rw [copyOut_text h'] at hv'
    obtain rfl := Outcome.returns.inj hv
    obtain rfl := Outcome.returns.inj hv'
    exact heq
  · intro heq
    exact ⟨_, _, copyOut_text h, copyOut_text h', heq⟩

end Text

/-- The heap with two strings. -/
def twoStrings (bytes bytes' : List UInt8) : Heap := ((Heap.empty.janetString bytes).1.janetString bytes').1

theorem twoStrings_isText (bytes bytes' : List UInt8) (h : bytes.length < 2 ^ 31) (h' : bytes'.length < 2 ^ 31) :
    (twoStrings bytes bytes').IsText (janetWrapString 1) .string bytes ∧
      (twoStrings bytes bytes').IsText (janetWrapString 2) .string bytes' :=
  ⟨⟨rfl, rfl, rfl, h⟩, ⟨rfl, rfl, rfl, h'⟩⟩

/-- A letter survives, and a byte that is none does not share its copy. -/
theorem text_crossing_letter :
    (@TextSurvives ⟨id⟩ (vmDictionaries plainHashing) (twoStrings [0x61] [0xFF]) (janetWrapString 1) .string [0x61] ↔ WellFormed [0x61]) ∧
      (@EqualCopies ⟨id⟩ (twoStrings [0x61] [0xFF]) (janetWrapString 1) (janetWrapString 2) ↔
        JanetType.string = .string ∧ @Text.equal ⟨id⟩ (Text.decoding [0x61]) (Text.decoding [0xFF]) = true) ∧
      (WellFormed [0x61] → WellFormed [0xFF] → ([0x61] : List UInt8) ≠ [0xFF] →
        Text.decoding [0x61] ≠ Text.decoding [0xFF]) :=
  have h := twoStrings_isText [0x61] [0xFF] (by decide) (by decide)
  @text_crossing _ _ _ _ _ _ _ _ ⟨id⟩ h.1 h.2

/-- A byte that begins no character comes back as three others, and two such bytes have equal copies. -/
theorem not_textSurvives_bytes :
    ¬∀ (heap : Heap) (raw raw' : Janet) (t t' : JanetType) (bytes bytes' : List UInt8), heap.IsText raw t bytes →
      heap.IsText raw' t' bytes' → @TextSurvives ⟨id⟩ (vmDictionaries plainHashing) heap raw t bytes ∧
        (bytes ≠ bytes' → ¬@EqualCopies ⟨id⟩ heap raw raw') := by
  intro h
  have htext := twoStrings_isText [0xFF] [0xFE] (by decide) (by decide)
  have hsurvives := (h _ _ _ _ _ _ _ htext.1 htext.2).1
  have hbytes := wellFormed_iff.mp ((@textSurvives_iff _ _ _ _ _ ⟨id⟩ htext.1).mp hsurvives)
  exact absurd hbytes (by decide)

end SwiftJanet
