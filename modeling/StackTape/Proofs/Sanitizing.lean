import StackTape.Proofs.Utf8

/-!
# What becomes of a text in a comment

A label goes into a comment character by character: a symbol of the tape machine or a line break is replaced by
another character, a stray byte by the replacement character, and all else is kept. So the result is a text of as
many characters (`chars_sanitize`) with none of the bytes that must not stand in a comment, and a text that was fit
already is not touched (`sanitize_minimal`).

That no byte of a longer character is taken for a symbol, and that no damaged sequence swallows a byte after it, is
what the reading of UTF-8 promises: an ASCII byte is always a character of its own.
-/

namespace StackTape.Listing

/-- The bytes that must not stand in a comment: the symbols of the tape machine and the line breaks. -/
def unfit : Bytes := ascii "+-<>[].,\n\r"

/-! ## Characters -/

theorem isPrimitive_ascii : ∀ n < 0x80, isPrimitive (UInt8.ofNat n) = true → UInt8.ofNat n ∈ unfit := by
  decide

/-- **A character is kept unless it is one of the unfit bytes.** -/
theorem sanitizeChar_eq_self_iff {c : Char} : sanitizeChar c = c ↔ ∀ b ∈ unfit, c ≠ Char.ofNat b.toNat := by
  have changed : ∀ b ∈ unfit, sanitizeChar (Char.ofNat b.toNat) ≠ Char.ofNat b.toNat := by decide +kernel
  constructor
  · rintro h b hb rfl
    exact changed b hb h
  · intro h
    have hchar : c.toNat < 0x80 → UInt8.ofNat c.toNat ∉ unfit := by
      intro hlt hmem
      have e : (UInt8.ofNat c.toNat).toNat = c.toNat := UInt8.toNat_ofNat_of_lt' (show c.toNat < 0x100 by omega)
      refine h _ hmem ?_
      rw [e, Char.ofNat_toNat]
    unfold sanitizeChar
    rw [if_neg, if_neg]
    · rintro (rfl | rfl)
      · exact hchar (by decide) (by decide)
      · exact hchar (by decide) (by decide)
    · rintro ⟨hlt, hp⟩
      exact hchar hlt (isPrimitive_ascii _ hlt hp)

/-- What replaces a character is kept itself. -/
theorem sanitizeChar_idem (c : Char) : sanitizeChar (sanitizeChar c) = sanitizeChar c := by
  by_cases hp : c.toNat < 0x80 ∧ isPrimitive (UInt8.ofNat c.toNat)
  · have e : sanitizeChar c = '_' := by rw [sanitizeChar, if_pos hp]
    rw [e]
    decide
  by_cases hl : c = '\n' ∨ c = '\r'
  · have e : sanitizeChar c = ' ' := by rw [sanitizeChar, if_neg hp, if_pos hl]
    rw [e]
    decide
  · have e : sanitizeChar c = c := by rw [sanitizeChar, if_neg hp, if_neg hl]
    rw [e, e]

/-! ## Texts -/

theorem chars_sanitize (s : Bytes) : Utf8.chars (sanitize s) = (Utf8.chars s).map sanitizeChar :=
  Utf8.chars_encode _

theorem valid_sanitize (s : Bytes) : Utf8.valid (sanitize s) = true :=
  Utf8.valid_iff_exists_encode.2 ⟨_, rfl⟩

/-- Unfit bytes are known from the characters of the text. -/
theorem fit_encode_iff {cs : List Char} : (∀ b ∈ Utf8.encode cs, b ∉ unfit) ↔ ∀ c ∈ cs, sanitizeChar c = c := by
  have hascii : ∀ b ∈ unfit, b < 0x80 := by decide +kernel
  constructor
  · intro h c hc
    rw [sanitizeChar_eq_self_iff]
    rintro b hb rfl
    exact h b ((Utf8.mem_encode_ascii (hascii b hb)).2 hc) hb
  · intro h b hmem hb
    have hc := (Utf8.mem_encode_ascii (hascii b hb)).1 hmem
    exact sanitizeChar_eq_self_iff.1 (h _ hc) b hb rfl

theorem fit_sanitize (s : Bytes) : ∀ b ∈ sanitize s, b ∉ unfit := by
  refine fit_encode_iff.2 fun c hc => ?_
  obtain ⟨d, -, rfl⟩ := List.mem_map.1 hc
  exact sanitizeChar_idem d

theorem sanitize_of_fit {s : Bytes} (hv : Utf8.valid s = true) (h : ∀ b ∈ s, b ∉ unfit) : sanitize s = s := by
  rw [← Utf8.encode_chars hv] at h
  calc sanitize s = Utf8.encode ((Utf8.chars s).map sanitizeChar) := rfl
    _ = Utf8.encode (Utf8.chars s) := by rw [List.map_congr_left (fit_encode_iff.1 h), List.map_id']
    _ = s := Utf8.encode_chars hv

/-- **A text is made fit for a comment, and no more than that.** Whatever bytes it has, the result is well-formed
and holds none of the symbols and line breaks; it has as many characters as the text, a stray byte counting as one;
doing it again changes nothing; and a text is kept as it is exactly when it is well-formed and holds none of these
bytes. -/
theorem sanitize_minimal (s : Bytes) :
    Utf8.valid (sanitize s) = true ∧
    (∀ b ∈ sanitize s, b ∉ ascii "+-<>[].,\n\r") ∧
    (Utf8.decode (sanitize s)).length = (Utf8.decode s).length ∧
    sanitize (sanitize s) = sanitize s ∧
    (sanitize s = s ↔ Utf8.valid s = true ∧ ∀ b ∈ s, b ∉ ascii "+-<>[].,\n\r") := by
  refine ⟨valid_sanitize s, fit_sanitize s, ?_, sanitize_of_fit (valid_sanitize s) (fit_sanitize s), ?_, ?_⟩
  · calc (Utf8.decode (sanitize s)).length = (Utf8.chars (sanitize s)).length := (List.length_map _).symm
      _ = (Utf8.decode s).length := by rw [chars_sanitize, List.length_map, Utf8.chars, List.length_map]
  · intro h
    rw [← h]
    exact ⟨valid_sanitize s, fit_sanitize s⟩
  · rintro ⟨hv, h⟩
    exact sanitize_of_fit hv h

/-- A sequence that is cut short leaves the symbol after it alone to be replaced, and its byte becomes a character. -/
example : sanitize [0xE2, 0x82, 0x2B, 0xC3, 0xA9, 0x0A] =
    [0xEF, 0xBF, 0xBD, 0xEF, 0xBF, 0xBD, 0x5F, 0xC3, 0xA9, 0x20] := by decide

end StackTape.Listing
