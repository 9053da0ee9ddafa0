import StackTape.Proofs.Listing

/-!
# Decoding loses nothing

The glyph at the front of a text is made of exactly the bytes that it takes (`bytes_head`), so the bytes of all
glyphs are the text again (`flatMap_bytes_decode`). In the other direction the bytes of a character are read as
that character, whatever follows them (`head_encodeChar`), so a text made of characters is read as these
(`decode_encode`).
-/

namespace StackTape

/-- The bytes that a glyph is made of. -/
def Glyph.bytes : Glyph → Bytes
  | .char c => Utf8.encodeChar c
  | .stray b => [b]

namespace Utf8

/-! ## Characters and their numbers -/

theorem toNat_ofNat {n : Nat} (h : n.isValidChar) : (Char.ofNat n).toNat = n := by
  rw [Char.ofNat, dif_pos h]
  rfl

theorem toNat_lt (c : Char) : c.toNat < 0xD800 ∨ 0xDFFF < c.toNat ∧ c.toNat < 0x110000 := c.valid

theorem ofNat_eq {n : Nat} {b : UInt8} (h : n = b.toNat) : UInt8.ofNat n = b := by
  rw [h, UInt8.ofNat_toNat]

theorem encodeChar_two {c : Char} (hlo : 0x80 ≤ c.toNat) (hhi : c.toNat ≤ 0x7FF) :
    encodeChar c = [UInt8.ofNat (c.toNat / 64 + 0xC0), UInt8.ofNat (c.toNat % 64 + 0x80)] := by
  have e : c.val.toNat = c.toNat := rfl
  rw [encodeChar, String.utf8EncodeChar]
  simp only [e]
  rw [if_neg (by omega), if_pos hhi, Nat.mod_eq_of_lt (by omega)]

theorem encodeChar_three {c : Char} (hlo : 0x800 ≤ c.toNat) (hhi : c.toNat ≤ 0xFFFF) :
    encodeChar c = [UInt8.ofNat (c.toNat / 4096 + 0xE0), UInt8.ofNat (c.toNat / 64 % 64 + 0x80),
      UInt8.ofNat (c.toNat % 64 + 0x80)] := by
  have e : c.val.toNat = c.toNat := rfl
  rw [encodeChar, String.utf8EncodeChar]
  simp only [e]
  rw [if_neg (by omega), if_neg (by omega), if_pos hhi, Nat.mod_eq_of_lt (by omega)]

theorem encodeChar_four {c : Char} (hlo : 0x10000 ≤ c.toNat) :
    encodeChar c = [UInt8.ofNat (c.toNat / 262144 + 0xF0), UInt8.ofNat (c.toNat / 4096 % 64 + 0x80),
      UInt8.ofNat (c.toNat / 64 % 64 + 0x80), UInt8.ofNat (c.toNat % 64 + 0x80)] := by
  have e : c.val.toNat = c.toNat := rfl
  have hlt := toNat_lt c
  rw [encodeChar, String.utf8EncodeChar]
  simp only [e]
  rw [if_neg (by omega), if_neg (by omega), if_neg (by omega), Nat.mod_eq_of_lt (by omega)]

theorem exists_encodeChar (c : Char) : ∃ b bs, encodeChar c = b :: bs := by
  apply List.exists_cons_of_ne_nil
  intro h
  have hlen : (encodeChar c).length = c.utf8Size := String.length_utf8EncodeChar c
  have := c.utf8Size_pos
  rw [h, List.length_nil] at hlen
  omega

/-! ## Sequences of two, three and four bytes -/

theorem isTail_iff {b : UInt8} : isTail b = true ↔ 0x80 ≤ b.toNat ∧ b.toNat ≤ 0xBF := by
  simp [isTail, UInt8.le_iff_toNat_le]

/-- A second byte is a continuation byte that keeps the bounds of its lead byte. -/
theorem isSecond_iff {b c : UInt8} : isSecond b c = true ↔ 0x80 ≤ c.toNat ∧ c.toNat ≤ 0xBF ∧
    (b.toNat = 0xE0 → 0xA0 ≤ c.toNat) ∧ (b.toNat = 0xED → c.toNat ≤ 0x9F) ∧
    (b.toNat = 0xF0 → 0x90 ≤ c.toNat) ∧ (b.toNat = 0xF4 → c.toNat ≤ 0x8F) := by
  have hb : ∀ n : UInt8, b = n ↔ b.toNat = n.toNat := fun n => UInt8.toNat_inj.symm
  unfold isSecond
  split
  · rename_i h
    subst h
    simp [UInt8.le_iff_toNat_le]
    omega
  · split
    · rename_i h
      subst h
      simp [UInt8.le_iff_toNat_le]
      omega
    · split
      · rename_i h
        subst h
        simp [UInt8.le_iff_toNat_le]
        omega
      · split
        · rename_i h
          subst h
          simp [UInt8.le_iff_toNat_le]
          omega
        · rename_i h₁ h₂ h₃ h₄
          simp only [hb, UInt8.reduceToNat] at h₁ h₂ h₃ h₄
          simp [isTail_iff, h₁, h₂, h₃, h₄]

theorem encodeChar_pair {b c : UInt8} (hb : 0xC2 ≤ b.toNat ∧ b.toNat ≤ 0xDF) (hc : isTail c = true) :
    encodeChar (Char.ofNat ((b.toNat - 0xC0) * 64 + tailBits c)) = [b, c] := by
  rw [isTail_iff] at hc
  unfold tailBits
  generalize hn : (b.toNat - 0xC0) * 64 + (c.toNat - 0x80) = n
  have hv : (Char.ofNat n).toNat = n := toNat_ofNat (Or.inl (by omega))
  rw [encodeChar_two (by omega) (by omega), hv, ofNat_eq (b := b) (by omega), ofNat_eq (b := c) (by omega)]

theorem encodeChar_triple {b c d : UInt8} (hb : 0xE0 ≤ b.toNat ∧ b.toNat ≤ 0xEF) (hc : isSecond b c = true)
    (hd : isTail d = true) :
    encodeChar (Char.ofNat (((b.toNat - 0xE0) * 64 + tailBits c) * 64 + tailBits d)) = [b, c, d] := by
  rw [isSecond_iff] at hc
  rw [isTail_iff] at hd
  unfold tailBits
  generalize hn : ((b.toNat - 0xE0) * 64 + (c.toNat - 0x80)) * 64 + (d.toNat - 0x80) = n
  have hv : (Char.ofNat n).toNat = n := toNat_ofNat (by unfold Nat.isValidChar; omega)
  rw [encodeChar_three (by omega) (by omega), hv, ofNat_eq (b := b) (by omega), ofNat_eq (b := c) (by omega),
    ofNat_eq (b := d) (by omega)]

theorem encodeChar_quadruple {b c d e : UInt8} (hb : 0xF0 ≤ b.toNat ∧ b.toNat ≤ 0xF4) (hc : isSecond b c = true)
    (hd : isTail d = true) (he : isTail e = true) :
    encodeChar (Char.ofNat ((((b.toNat - 0xF0) * 64 + tailBits c) * 64 + tailBits d) * 64 + tailBits e)) =
      [b, c, d, e] := by
  rw [isSecond_iff] at hc
  rw [isTail_iff] at hd he
  unfold tailBits
  generalize hn : (((b.toNat - 0xF0) * 64 + (c.toNat - 0x80)) * 64 + (d.toNat - 0x80)) * 64 + (e.toNat - 0x80) = n
  have hv : (Char.ofNat n).toNat = n := toNat_ofNat (by unfold Nat.isValidChar; omega)
  rw [encodeChar_four (by omega), hv, ofNat_eq (b := b) (by omega), ofNat_eq (b := c) (by omega),
    ofNat_eq (b := d) (by omega), ofNat_eq (b := e) (by omega)]

/-! ## The glyph at the front -/

theorem head_ascii {b : UInt8} (h : b < 0x80) (rest : Bytes) : head b rest = (.char (Char.ofNat b.toNat), 0) := by
  unfold head
  rw [if_pos h]

/-- **A glyph is made of the bytes it takes.** -/
theorem bytes_head (b : UInt8) (rest : Bytes) :
    (head b rest).1.bytes = b :: rest.take (head b rest).2 := by
  unfold head
  split
  · rename_i hb
    have hb : b.toNat < 0x80 := UInt8.lt_iff_toNat_lt.1 hb
    have hv : (Char.ofNat b.toNat).toNat = b.toNat := toNat_ofNat (Or.inl (by omega))
    simp only [Glyph.bytes, List.take_zero]
    rw [encodeChar_ascii (by omega), hv, UInt8.ofNat_toNat]
  · simp only [UInt8.le_iff_toNat_le, UInt8.reduceToNat]
    split
    · rename_i hb
      split
      · split
        · rename_i hc
          simp [Glyph.bytes, encodeChar_pair hb hc]
        · simp [Glyph.bytes]
      · simp [Glyph.bytes]
    · split
      · rename_i hb
        split
        · split
          · rename_i hcd
            obtain ⟨hc, hd⟩ := Bool.and_eq_true_iff.1 hcd
            simp [Glyph.bytes, encodeChar_triple hb hc hd]
          · simp [Glyph.bytes]
        · simp [Glyph.bytes]
      · split
        · rename_i hb
          split
          · split
            · rename_i hcde
              obtain ⟨hcd, he⟩ := Bool.and_eq_true_iff.1 hcde
              obtain ⟨hc, hd⟩ := Bool.and_eq_true_iff.1 hcd
              simp [Glyph.bytes, encodeChar_quadruple hb hc hd he]
            · simp [Glyph.bytes]
          · simp [Glyph.bytes]
        · simp [Glyph.bytes]

/-- **The bytes of the glyphs of a text are the text.** -/
theorem flatMap_bytes_decode (s : Bytes) : (decode s).flatMap Glyph.bytes = s := by
  have from_owed : ∀ owed, (decodeFrom owed s).flatMap Glyph.bytes = s.drop owed := by
    induction s with
    | nil => simp [decodeFrom]
    | cons b bs ih =>
      intro owed
      cases owed with
      | zero => simp [decodeFrom, bytes_head, ih]
      | succ owed => simp [decodeFrom, ih]
  exact from_owed 0

/-! ## Reading a character back -/

theorem head_pair {b c : UInt8} (rest : Bytes) (hb : 0xC2 ≤ b.toNat ∧ b.toNat ≤ 0xDF) (hc : isTail c = true) :
    head b (c :: rest) = (.char (Char.ofNat ((b.toNat - 0xC0) * 64 + tailBits c)), 1) := by
  unfold head
  simp only [UInt8.le_iff_toNat_le, UInt8.lt_iff_toNat_lt, UInt8.reduceToNat]
  rw [if_neg (by omega), if_pos hb, if_pos hc]

theorem head_triple {b c d : UInt8} (rest : Bytes) (hb : 0xE0 ≤ b.toNat ∧ b.toNat ≤ 0xEF)
    (hc : isSecond b c = true) (hd : isTail d = true) :
    head b (c :: d :: rest) =
      (.char (Char.ofNat (((b.toNat - 0xE0) * 64 + tailBits c) * 64 + tailBits d)), 2) := by
  unfold head
  simp only [UInt8.le_iff_toNat_le, UInt8.lt_iff_toNat_lt, UInt8.reduceToNat]
  rw [if_neg (by omega), if_neg (by omega), if_pos hb, if_pos (by rw [hc, hd]; rfl)]

theorem head_quadruple {b c d e : UInt8} (rest : Bytes) (hb : 0xF0 ≤ b.toNat ∧ b.toNat ≤ 0xF4)
    (hc : isSecond b c = true) (hd : isTail d = true) (he : isTail e = true) :
    head b (c :: d :: e :: rest) =
      (.char (Char.ofNat ((((b.toNat - 0xF0) * 64 + tailBits c) * 64 + tailBits d) * 64 + tailBits e)), 3) := by
  unfold head
  simp only [UInt8.le_iff_toNat_le, UInt8.lt_iff_toNat_lt, UInt8.reduceToNat]
  rw [if_neg (by omega), if_neg (by omega), if_neg (by omega), if_pos hb, if_pos (by rw [hc, hd, he]; rfl)]

/-- **The bytes of a character are read as that character**, whatever follows them. -/
theorem head_encodeChar {c : Char} {b : UInt8} {bs : Bytes} (h : encodeChar c = b :: bs) (rest : Bytes) :
    head b (bs ++ rest) = (.char c, bs.length) := by
  have back : ∀ n, n = c.toNat → Char.ofNat n = c := fun n hn => by rw [hn, Char.ofNat_toNat]
  have hlt := toNat_lt c
  have hbyte : ∀ n < 0x100, (UInt8.ofNat n).toNat = n := fun n hn => UInt8.toNat_ofNat_of_lt' hn
  by_cases h₁ : c.toNat < 0x80
  · rw [encodeChar_ascii h₁, List.cons.injEq] at h
    obtain ⟨rfl, rfl⟩ := h
    have e := hbyte c.toNat (by omega)
    rw [head_ascii (UInt8.lt_iff_toNat_lt.2 (by rw [e]; exact h₁)), back _ e, List.length_nil]
  · by_cases h₂ : c.toNat ≤ 0x7FF
    · rw [encodeChar_two (by omega) h₂, List.cons.injEq] at h
      obtain ⟨rfl, rfl⟩ := h
      have e₁ := hbyte (c.toNat / 64 + 0xC0) (by omega)
      have e₂ := hbyte (c.toNat % 64 + 0x80) (by omega)
      rw [List.cons_append, List.nil_append, head_pair rest (by omega) (isTail_iff.2 (by omega)), back]
      · rfl
      · unfold tailBits
        omega
    · by_cases h₃ : c.toNat ≤ 0xFFFF
      · rw [encodeChar_three (by omega) h₃, List.cons.injEq] at h
        obtain ⟨rfl, rfl⟩ := h
        have e₁ := hbyte (c.toNat / 4096 + 0xE0) (by omega)
        have e₂ := hbyte (c.toNat / 64 % 64 + 0x80) (by omega)
        have e₃ := hbyte (c.toNat % 64 + 0x80) (by omega)
        rw [List.cons_append, List.cons_append, List.nil_append,
          head_triple rest (by omega) (isSecond_iff.2 (by omega)) (isTail_iff.2 (by omega)), back]
        · rfl
        · unfold tailBits
          omega
      · rw [encodeChar_four (by omega), List.cons.injEq] at h
        obtain ⟨rfl, rfl⟩ := h
        have e₁ := hbyte (c.toNat / 262144 + 0xF0) (by omega)
        have e₂ := hbyte (c.toNat / 4096 % 64 + 0x80) (by omega)
        have e₃ := hbyte (c.toNat / 64 % 64 + 0x80) (by omega)
        have e₄ := hbyte (c.toNat % 64 + 0x80) (by omega)
        rw [List.cons_append, List.cons_append, List.cons_append, List.nil_append,
          head_quadruple rest (by omega) (isSecond_iff.2 (by omega)) (isTail_iff.2 (by omega))
            (isTail_iff.2 (by omega)), back]
        · rfl
        · unfold tailBits
          omega

/-! ## Bytes outside ASCII -/

/-- A byte outside ASCII belongs to a glyph that is no ASCII character. -/
theorem toChar_head_ge {b : UInt8} (h : 0x80 ≤ b) (rest : Bytes) : 0x80 ≤ (toChar (head b rest).1).toNat := by
  have hbytes := bytes_head b rest
  cases hg : (head b rest).1 with
  | stray x =>
    rw [toChar]
    decide
  | char c =>
    rw [hg, Glyph.bytes] at hbytes
    apply Nat.le_of_not_lt
    intro hlt
    rw [toChar] at hlt
    rw [encodeChar_ascii hlt, List.cons.injEq] at hbytes
    have e := UInt8.toNat_ofNat_of_lt' (show c.toNat < 0x100 by omega)
    rw [← hbytes.1, UInt8.le_iff_toNat_le, e] at h
    exact absurd h (by simpa using hlt)

/-- No byte of a glyph after its first one is an ASCII character. -/
theorem take_head_ge (b : UInt8) (rest : Bytes) : ∀ x ∈ rest.take (head b rest).2, 0x80 ≤ x := by
  intro x hx
  by_cases h : b < 0x80
  · rw [head_ascii h] at hx
    exact absurd hx List.not_mem_nil
  · have hge := toChar_head_ge (UInt8.not_lt.1 h) rest
    have hbytes := bytes_head b rest
    cases hg : (head b rest).1 with
    | stray y =>
      rw [hg, Glyph.bytes, List.cons.injEq] at hbytes
      rw [← hbytes.2] at hx
      exact absurd hx List.not_mem_nil
    | char c =>
      rw [hg, toChar] at hge
      rw [hg, Glyph.bytes] at hbytes
      apply encodeChar_ge hge
      rw [hbytes]
      exact List.mem_cons_of_mem b hx

/-! ## Texts of characters -/

theorem decodeFrom_eq_drop (owed : Nat) (s : Bytes) : decodeFrom owed s = decodeFrom 0 (s.drop owed) := by
  induction s generalizing owed with
  | nil => simp [decodeFrom]
  | cons b bs ih =>
    cases owed with
    | zero => rfl
    | succ owed => rw [decodeFrom, ih, List.drop_succ_cons]

theorem decode_encodeChar_append (c : Char) (rest : Bytes) :
    decode (encodeChar c ++ rest) = .char c :: decode rest := by
  obtain ⟨b, bs, he⟩ := exists_encodeChar c
  rw [he, List.cons_append, decode, decodeFrom, head_encodeChar he, decodeFrom_eq_drop, List.drop_left]
  rfl

/-- **The characters of a text made of characters are these.** -/
theorem decode_encode (cs : List Char) : decode (encode cs) = cs.map .char := by
  induction cs with
  | nil => rfl
  | cons c cs ih =>
    rw [encode, List.flatMap_cons, decode_encodeChar_append, List.map_cons]
    exact congrArg _ ih

theorem chars_encode (cs : List Char) : chars (encode cs) = cs := by
  rw [chars, decode_encode, List.map_map]
  exact List.map_id cs

/-- A text without stray bytes is made of its characters. -/
theorem encode_chars {s : Bytes} (h : valid s = true) : encode (chars s) = s := by
  have hbytes : ∀ g ∈ decode s, encodeChar (toChar g) = g.bytes := by
    intro g hg
    have hchar := List.all_eq_true.1 h g hg
    cases g with
    | char c => rfl
    | stray b => cases hchar
  calc encode (chars s) = (decode s).flatMap fun g => encodeChar (toChar g) := List.flatMap_map ..
    _ = (decode s).flatMap Glyph.bytes := by rw [List.flatMap_def, List.flatMap_def, List.map_congr_left hbytes]
    _ = s := flatMap_bytes_decode s

/-- **The texts without stray bytes are those made of characters.** -/
theorem valid_iff_exists_encode {s : Bytes} : valid s = true ↔ ∃ cs, s = encode cs := by
  constructor
  · exact fun h => ⟨chars s, (encode_chars h).symm⟩
  · rintro ⟨cs, rfl⟩
    rw [valid, decode_encode, List.all_map]
    exact List.all_eq_true.2 fun _ _ => rfl

/-- An ASCII byte stands in a text of characters only for its own character. -/
theorem mem_encode_ascii {b : UInt8} (hb : b < 0x80) {cs : List Char} :
    b ∈ encode cs ↔ Char.ofNat b.toNat ∈ cs := by
  have hnat : b.toNat < 0x80 := UInt8.lt_iff_toNat_lt.1 hb
  have hof : (Char.ofNat b.toNat).toNat = b.toNat := toNat_ofNat (Or.inl (by omega))
  rw [encode, List.mem_flatMap]
  constructor
  · rintro ⟨c, hc, hmem⟩
    by_cases h : c.toNat < 0x80
    · rw [encodeChar_ascii h, List.mem_singleton] at hmem
      have e : (UInt8.ofNat c.toNat).toNat = c.toNat := UInt8.toNat_ofNat_of_lt' (show c.toNat < 0x100 by omega)
      rwa [hmem, e, Char.ofNat_toNat]
    · exact absurd (encodeChar_ge (by omega) b hmem) (UInt8.not_le.2 hb)
  · intro hc
    refine ⟨_, hc, ?_⟩
    rw [encodeChar_ascii (by omega), hof, UInt8.ofNat_toNat]
    exact List.mem_singleton_self b

end Utf8

end StackTape
