/-!
# Swift scalars: `Double` and `String`

- `Double`: the 64 bits of an IEEE 754 binary64 number, with Swift's `==` (`Double.equal`);
- `Text`: the Unicode scalars of a Swift `String`, with `==` up to canonical equivalence (`Text.equal`), its UTF-8
  (`Text.utf8`), and `String(decoding:as:)` (`Text.decoding`), which replaces ill-formed bytes;
- decoding undoes encoding (`decoding_utf8`).
-/

namespace SwiftJanet

/-! ## Double -/

/-- A binary64 number, by its bits. -/
structure Double where
  bits : BitVec 64
deriving DecidableEq, Repr

namespace Double

/-- All exponent bits set and a nonzero fraction. -/
def isNaN (d : Double) : Bool :=
  (d.bits &&& 0x7FF0000000000000#64) == 0x7FF0000000000000#64 && (d.bits &&& 0x000FFFFFFFFFFFFF#64) != 0#64

/-- Either zero. -/
def isZero (d : Double) : Bool := (d.bits &&& 0x7FFFFFFFFFFFFFFF#64) == 0#64

/-- IEEE equality: a NaN equals nothing, the two zeros are equal. -/
def equal (a b : Double) : Bool := !a.isNaN && !b.isNaN && (a == b || (a.isZero && b.isZero))

theorem equal_refl {a : Double} (h : a.isNaN = false) : a.equal a = true := by simp [equal, h]

theorem equal_symm {a b : Double} (h : a.equal b = true) : b.equal a = true := by
  simp only [equal, Bool.and_eq_true, Bool.or_eq_true, beq_iff_eq] at h ⊢
  obtain ⟨⟨ha, hb⟩, h | ⟨h1, h2⟩⟩ := h
  · exact ⟨⟨hb, ha⟩, Or.inl h.symm⟩
  · exact ⟨⟨hb, ha⟩, Or.inr ⟨h2, h1⟩⟩

theorem equal_trans {a b c : Double} (h₁ : a.equal b = true) (h₂ : b.equal c = true) : a.equal c = true := by
  simp only [equal, Bool.and_eq_true, Bool.or_eq_true, beq_iff_eq] at h₁ h₂ ⊢
  obtain ⟨⟨ha, hb⟩, h₁⟩ := h₁
  obtain ⟨⟨_, hc⟩, h₂⟩ := h₂
  refine ⟨⟨ha, hc⟩, ?_⟩
  rcases h₁ with rfl | ⟨hza, hzb⟩
  · exact h₂
  · rcases h₂ with rfl | ⟨_, hzc⟩
    · exact Or.inr ⟨hza, hzb⟩
    · exact Or.inr ⟨hza, hzc⟩

end Double

/-! ## String -/

/-- A Swift string, by its Unicode scalars. -/
abbrev Text := List Char

/-- The canonical form of a sequence of scalars, which Unicode defines by its tables. Swift compares and hashes
strings by it; nothing below depends on what it does to them. -/
class CanonicalForm where
  form : Text → Text

namespace Text

/-- `==` on `String`: canonical equivalence. -/
def equal [CanonicalForm] (s t : Text) : Bool := CanonicalForm.form s == CanonicalForm.form t

/-- The bytes `withUTF8` gives. -/
def utf8 (s : Text) : List UInt8 := s.flatMap String.utf8EncodeChar

/-- The length of the ill-formed piece at the front that one replacement character stands for: the longest beginning
of a well-formed sequence, at least one byte. -/
def illFormed : List UInt8 → Nat
  | b₀ :: b₁ :: rest =>
    let follows : Bool :=
      if b₀ == 0xE0 then 0xA0 ≤ b₁ && b₁ ≤ 0xBF
      else if b₀ == 0xED then 0x80 ≤ b₁ && b₁ ≤ 0x9F
      else if b₀ == 0xF0 then 0x90 ≤ b₁ && b₁ ≤ 0xBF
      else if b₀ == 0xF4 then 0x80 ≤ b₁ && b₁ ≤ 0x8F
      else 0xE1 ≤ b₀ && b₀ ≤ 0xF3 && 0x80 ≤ b₁ && b₁ ≤ 0xBF
    if !follows then 1
    else match rest with
      | b₂ :: _ => if 0xF0 ≤ b₀ && 0x80 ≤ b₂ && b₂ ≤ 0xBF then 3 else 2
      | [] => 2
  | _ => 1

/-- Decode at most `n` scalars. -/
def decodingAux : Nat → List UInt8 → Text
  | 0, _ => []
  | _, [] => []
  | n + 1, bytes =>
    match bytes.toByteArray.utf8DecodeChar? 0 with
    | some c => c :: decodingAux n (bytes.drop c.utf8Size)
    | none => '\uFFFD' :: decodingAux n (bytes.drop (illFormed bytes))

/-- `String(decoding: bytes, as: UTF8.self)`: every step takes at least one byte. -/
def decoding (bytes : List UInt8) : Text := decodingAux bytes.length bytes

theorem equal_refl [CanonicalForm] (s : Text) : s.equal s = true := by simp [equal]

theorem equal_symm [CanonicalForm] {s t : Text} (h : s.equal t = true) : t.equal s = true := by
  simp only [equal, beq_iff_eq] at h ⊢
  exact h.symm

theorem equal_trans [CanonicalForm] {s t u : Text} (h₁ : s.equal t = true) (h₂ : t.equal u = true) :
    s.equal u = true := by
  simp only [equal, beq_iff_eq] at h₁ h₂ ⊢
  exact h₁.trans h₂

theorem utf8_cons (c : Char) (s : Text) : utf8 (c :: s) = String.utf8EncodeChar c ++ utf8 s := rfl

theorem length_le_utf8 (s : Text) : s.length ≤ (utf8 s).length := by
  induction s with
  | nil => exact Nat.le_refl 0
  | cons c s ih =>
    have := Char.utf8Size_pos c
    rw [utf8_cons, List.length_append, String.length_utf8EncodeChar, List.length_cons]
    omega

/-- With a step for every scalar, the scalars of an encoding come back. -/
theorem decodingAux_utf8 : ∀ {n : Nat} {s : Text}, s.length ≤ n → decodingAux n (utf8 s) = s
  | 0, s, h => by
    obtain rfl : s = [] := List.length_eq_zero_iff.mp (by omega)
    rfl
  | n + 1, [], _ => rfl
  | n + 1, c :: s, h => by
    have hlen : (String.utf8EncodeChar c).length = c.utf8Size := String.length_utf8EncodeChar c
    have hne : utf8 (c :: s) ≠ [] := by
      have := length_le_utf8 (c :: s)
      intro h'
      rw [h'] at this
      simp at this
    have hc : (utf8 (c :: s)).toByteArray.utf8DecodeChar? 0 = some c := by
      rw [utf8_cons, List.toByteArray_append]
      exact ByteArray.utf8DecodeChar?_utf8EncodeChar_append
    have hdrop : (utf8 (c :: s)).drop c.utf8Size = utf8 s := by
      rw [utf8_cons, ← hlen, List.drop_left]
    rw [decodingAux]
    · rw [hc]
      simp only [hdrop]
      rw [decodingAux_utf8 (by simpa using h)]
    · exact hne

/-- **Decoding undoes encoding.** -/
theorem decoding_utf8 (s : Text) : decoding (utf8 s) = s := decodingAux_utf8 (length_le_utf8 s)

/-- Different strings have different encodings. -/
theorem utf8_injective {s t : Text} (h : utf8 s = utf8 t) : s = t := by
  rw [← decoding_utf8 s, h, decoding_utf8]

example : decoding [0x61, 0xC3, 0xFF, 0xE2, 0x82, 0x62] = "a\uFFFD\uFFFD\uFFFDb".toList := by decide

end Text

end SwiftJanet
