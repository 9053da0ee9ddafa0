import StackTape.Proofs.Utf8
import StackTape.Text.Integer
import StackTape.Text.Quoted

/-!
# Literals and their values

The value of an integer literal said without a reader (`literalValue?`): a leading zero means octal, every digit
belongs to the base, and the value fits a signed word. The reader, which stops at the first digit that does not
fit, accepts the same literals (`readAnnouncedInt_iff`), numbers written in decimal among them
(`literalValue?_decimal`). Every byte string can be quoted and read back (`unquote_quote`).
-/

namespace StackTape

/-! ## Integer literals -/

/-- The number that decimal digits spell in a base, after digits of value `v`. -/
def digitsValue (base v : Nat) (s : Bytes) : Nat := s.foldl (fun v b => base * v + (b.toNat - 0x30)) v

/-- The base of a literal: a leading zero means octal. -/
def literalBase (s : Bytes) : Nat := if s.head? = some 0x30 then 8 else 10

/-- The value of an integer literal: all digits belong to its base and the value fits a signed word. -/
def literalValue? (s : Bytes) : Option Int :=
  if (s.all fun b => b.toNat - 0x30 < literalBase s) ∧ digitsValue (literalBase s) 0 s < wordBound then
    some (digitsValue (literalBase s) 0 s)
  else none

theorem isDigit_iff {b : UInt8} : isDigit b = true ↔ 0x30 ≤ b.toNat ∧ b.toNat ≤ 0x39 := by
  simp [isDigit, UInt8.le_iff_toNat_le]

theorem literalBase_pos (s : Bytes) : 0 < literalBase s := by
  unfold literalBase
  split <;> decide

theorem le_digitsValue {base : Nat} (hbase : 0 < base) (v : Nat) (s : Bytes) : v ≤ digitsValue base v s := by
  induction s generalizing v with
  | nil => exact Nat.le_refl v
  | cons b bs ih =>
    calc v ≤ base * v := Nat.le_mul_of_pos_left v hbase
      _ ≤ base * v + (b.toNat - 0x30) := Nat.le_add_right ..
      _ ≤ digitsValue base v (b :: bs) := ih _

namespace Integer

theorem digitValue?_digit {b : UInt8} (h : isDigit b = true) : digitValue? b = some (b.toNat - 0x30) := by
  rw [digitValue?, if_pos h]

/-- Reading digits succeeds when all of them belong to the base and the value fits a word. -/
theorem digits_eq_ok_iff {base v n : Nat} {s : Bytes} (hbase : 0 < base) (hv : v < wordCount)
    (hs : ∀ b ∈ s, isDigit b = true) :
    digits base v s = .ok n ↔
      (∀ b ∈ s, b.toNat - 0x30 < base) ∧ digitsValue base v s = n ∧ n < wordCount := by
  induction s generalizing v with
  | nil =>
    simp only [digits, Except.ok.injEq, List.not_mem_nil, false_implies, implies_true, true_and, digitsValue,
      List.foldl_nil]
    omega
  | cons b bs ih =>
    have hle := le_digitsValue hbase (base * v + (b.toNat - 0x30)) bs
    simp only [digits, digitValue?_digit (hs b List.mem_cons_self), List.forall_mem_cons]
    rw [show digitsValue base v (b :: bs) = digitsValue base (base * v + (b.toNat - 0x30)) bs from rfl]
    by_cases hd : base ≤ b.toNat - 0x30
    · rw [if_pos hd]
      simp only [reduceCtorEq, false_iff]
      omega
    · rw [if_neg hd]
      by_cases hw : wordCount ≤ base * v + (b.toNat - 0x30)
      · rw [if_pos hw]
        simp only [reduceCtorEq, false_iff]
        omega
      · rw [if_neg hw, ih (by omega) fun x hx => hs x (List.mem_cons_of_mem b hx), and_assoc]
        simp only [show b.toNat - 0x30 < base by omega, true_and]

theorem lower_digit {b : UInt8} (h : isDigit b = true) : lower b = b := by
  rw [isDigit_iff] at h
  simp [lower, UInt8.le_iff_toNat_le]
  omega

/-- Of plain digits only the leading zero announces a base. -/
theorem announced_digits {s : Bytes} (hs : ∀ b ∈ s, isDigit b = true) :
    announced s = (literalBase s, if s.head? = some 0x30 then s.tail else s) := by
  unfold announced
  split
  · rename_i b c rest
    have hb : isDigit b = true := hs b (by simp)
    have hne : ∀ x : UInt8, 0x39 < x → b ≠ x := by
      rintro x hx rfl
      have h := (isDigit_iff.1 hb).2
      simp only [UInt8.lt_iff_toNat_lt, UInt8.reduceToNat] at hx
      omega
    rw [lower_digit hb, if_neg (hne _ (by decide)), if_neg (hne _ (by decide)), if_neg (hne _ (by decide))]
    rfl
  · rfl
  · rename_i _ h
    have hne : s.head? ≠ some 0x30 := by
      intro e
      obtain ⟨rest, rfl⟩ := List.head?_eq_some_iff.1 e
      exact h rest rfl
    rw [literalBase, if_neg hne, if_neg hne]

theorem readAnnouncedNat_digits {s : Bytes} (hne : s ≠ []) (hs : ∀ b ∈ s, isDigit b = true) :
    readAnnouncedNat s = digits (literalBase s) 0 s := by
  rw [readAnnouncedNat, if_neg hne, announced_digits hs]
  by_cases hz : s.head? = some 0x30
  · -- the announcing zero is a digit that adds nothing
    obtain ⟨rest, rfl⟩ := List.head?_eq_some_iff.1 hz
    rfl
  · simp only [if_neg hz]

theorem signed_digits (magnitude : Bytes → Except IntFault Nat) {s : Bytes} (hs : ∀ b ∈ s, isDigit b = true) :
    signed magnitude s = signed.positive magnitude s := by
  unfold signed
  split
  · exact absurd (hs 0x2B (by simp)) (by decide)
  · exact absurd (hs 0x2D (by simp)) (by decide)
  · rfl

/-- **The reader accepts the integer literals that have a value**, and gives that value. -/
theorem readAnnouncedInt_iff {s : Bytes} (hne : s ≠ []) (hs : ∀ b ∈ s, isDigit b = true) {n : Int} :
    readAnnouncedInt s = .ok n ↔ literalValue? s = some n := by
  have hdigits : ∀ m, digits (literalBase s) 0 s = .ok m ↔ _ := fun m =>
    digits_eq_ok_iff (literalBase_pos s) (by decide) hs
  have hword : wordBound ≤ wordCount := by decide
  rw [readAnnouncedInt, signed_digits _ hs, signed.positive, readAnnouncedNat_digits hne hs, literalValue?]
  constructor
  · intro h
    cases hm : digits (literalBase s) 0 s with
    | error f =>
      rw [hm] at h
      cases h
    | ok m =>
      obtain ⟨hbase, hval, -⟩ := (hdigits m).1 hm
      simp only [hm, bind, Except.bind] at h
      split at h
      · rename_i hlt
        cases h
        rw [hval, if_pos ⟨by simpa using hbase, hlt⟩]
      · cases h
  · intro h
    split at h
    · rename_i hval
      have hm := (hdigits _).2 ⟨by simpa using hval.1, rfl, Nat.lt_of_lt_of_le hval.2 hword⟩
      simp only [hm, bind, Except.bind, if_pos hval.2]
      exact congrArg Except.ok (Option.some.inj h)
    · cases h

end Integer

/-! ## Numbers in decimal -/

theorem digitChar_toNat {n : Nat} (h : n < 10) : UInt8.ofNat n.digitChar.toNat = UInt8.ofNat (0x30 + n) := by
  have all : ∀ n < 10, UInt8.ofNat n.digitChar.toNat = UInt8.ofNat (0x30 + n) := by decide
  exact all n h

/-- The last digit stands at the end. -/
theorem decimal_eq (n : Nat) :
    decimal n = (if n < 10 then [] else decimal (n / 10)) ++ [UInt8.ofNat (0x30 + n % 10)] := by
  unfold decimal
  rw [Nat.toDigits_eq_if (by decide)]
  split
  · rename_i h
    rw [Nat.mod_eq_of_lt h, ← digitChar_toNat h]
    rfl
  · rw [List.map_append, ← digitChar_toNat (Nat.mod_lt n (by decide))]
    rfl

theorem toNat_digit (n : Nat) : (UInt8.ofNat (0x30 + n % 10)).toNat = 0x30 + n % 10 :=
  UInt8.toNat_ofNat_of_lt' (Nat.lt_of_lt_of_le (by omega : 0x30 + n % 10 < 0x3A) (by decide))

theorem isDigit_decimal (n : Nat) : ∀ b ∈ decimal n, isDigit b = true := by
  induction n using Nat.strongRecOn with
  | _ n ih =>
    intro b hb
    rw [decimal_eq, List.mem_append, List.mem_singleton] at hb
    rcases hb with hb | rfl
    · split at hb
      · cases hb
      · exact ih (n / 10) (by omega) b hb
    · rw [isDigit_iff, toNat_digit]
      omega

theorem decimal_ne_nil (n : Nat) : decimal n ≠ [] := by
  rw [decimal_eq]
  simp

theorem digitsValue_concat (base v : Nat) (s : Bytes) (b : UInt8) :
    digitsValue base v (s ++ [b]) = base * digitsValue base v s + (b.toNat - 0x30) := by
  rw [digitsValue, List.foldl_append]
  rfl

theorem digitsValue_decimal (n : Nat) : digitsValue 10 0 (decimal n) = n := by
  induction n using Nat.strongRecOn with
  | _ n ih =>
    rw [decimal_eq, digitsValue_concat, toNat_digit]
    split
    · simp only [digitsValue, List.foldl_nil]
      omega
    · rw [ih (n / 10) (by omega)]
      omega

/-- A number other than zero is written without leading zeros. -/
theorem head?_decimal {n : Nat} (h : 0 < n) : (decimal n).head? ≠ some 0x30 := by
  induction n using Nat.strongRecOn with
  | _ n ih =>
    rw [decimal_eq]
    split
    · intro e
      have := congrArg UInt8.toNat (Option.some.inj e)
      rw [toNat_digit] at this
      simp at this
      omega
    · rw [List.head?_append, Option.or_of_isSome (by simpa using decimal_ne_nil (n / 10))]
      exact ih (n / 10) (by omega) (by omega)

theorem literalValue?_decimal {n : Nat} (h : n < wordBound) : literalValue? (decimal n) = some (n : Int) := by
  by_cases hz : n = 0
  · subst hz
    rfl
  · have hbase : literalBase (decimal n) = 10 := by rw [literalBase, if_neg (head?_decimal (by omega))]
    have hdigits : ((decimal n).all fun b => b.toNat - 0x30 < 10) = true := by
      rw [List.all_eq_true]
      intro b hb
      have := isDigit_iff.1 (isDigit_decimal n b hb)
      exact decide_eq_true (by omega)
    rw [literalValue?, hbase, digitsValue_decimal, if_pos ⟨hdigits, h⟩]

/-! ## Hexadecimal escapes -/

theorem hexValue?_hexDigit (n : Nat) : hexValue? (hexDigit n) = some (n % 16) := by
  have all : ∀ k < 16, hexValue? (hexDigit k) = some k := by decide
  have e : hexDigit n = hexDigit (n % 16) := by rw [hexDigit, hexDigit, Nat.mod_mod]
  rw [e, all (n % 16) (Nat.mod_lt n (by decide))]

namespace Quoted

theorem hexNumber?_two {n : Nat} (h : n < 0x100) (rest : Bytes) : hexNumber? 2 0 (hex 2 n ++ rest) = some n := by
  simp only [hex, List.nil_append, List.cons_append, hexNumber?, hexValue?_hexDigit, Option.some.injEq]
  omega

theorem hexNumber?_four {n : Nat} (h : n < 0x10000) (rest : Bytes) : hexNumber? 4 0 (hex 4 n ++ rest) = some n := by
  simp only [hex, List.nil_append, List.cons_append, hexNumber?, hexValue?_hexDigit, Option.some.injEq]
  omega

theorem hexNumber?_eight {n : Nat} (h : n < 0x100000000) (rest : Bytes) :
    hexNumber? 8 0 (hex 8 n ++ rest) = some n := by
  simp only [hex, List.nil_append, List.cons_append, hexNumber?, hexValue?_hexDigit, Option.some.injEq]
  omega

theorem scalar?_toNat (c : Char) : scalar? c.toNat = some (Utf8.encodeChar c) := by
  have hc : c.toNat.isValidChar := c.valid
  rw [scalar?, if_pos hc, Char.ofNat_toNat]

theorem length_hex (w n : Nat) : (hex w n).length = w := by
  induction w generalizing n with
  | zero => rfl
  | succ w ih => rw [hex, List.length_append, ih, List.length_singleton]

theorem mem_hex {w n : Nat} {b : UInt8} (h : b ∈ hex w n) : ∃ k < 16, b = hexDigit k := by
  induction w generalizing n with
  | zero => cases h
  | succ w ih =>
    rw [hex, List.mem_append, List.mem_singleton] at h
    rcases h with h | rfl
    · exact ih h
    · exact ⟨n % 16, Nat.mod_lt n (by decide), by rw [hexDigit, hexDigit, Nat.mod_mod]⟩

/-! ## Units of a quoted text -/

theorem unescapeFrom_eq_drop (owed : Nat) (s : Bytes) : unescapeFrom owed s = unescapeFrom 0 (s.drop owed) := by
  induction s generalizing owed with
  | nil => simp [unescapeFrom]
  | cons b bs ih =>
    cases owed with
    | zero => rfl
    | succ owed => rw [unescapeFrom, ih, List.drop_succ_cons]

/-- One unit in front of a quoted text. -/
theorem unescape_unit {b : UInt8} {unit rest out : Bytes} (h : unit? b (unit ++ rest) = some (out, unit.length)) :
    unescapeFrom 0 (b :: (unit ++ rest)) = (unescapeFrom 0 rest).map (out ++ ·) := by
  rw [unescapeFrom, h]
  simp only [unescapeFrom_eq_drop unit.length, List.drop_left]

theorem unescape_escape (code : Bytes) {rest out : Bytes} (h : escape? (code ++ rest) = some (out, code.length)) :
    unescapeFrom 0 (0x5C :: (code ++ rest)) = (unescapeFrom 0 rest).map (out ++ ·) :=
  unescape_unit (by rw [unit?, if_pos rfl, h])

theorem unescape_hex {n : Nat} (h : n < 0x100) (rest : Bytes) :
    unescapeFrom 0 (ascii "\\x" ++ hex 2 n ++ rest) = (unescapeFrom 0 rest).map ([UInt8.ofNat n] ++ ·) := by
  refine unescape_escape (0x78 :: hex 2 n) ?_
  rw [List.cons_append, escape?, hexNumber?_two h]
  rfl

/-- A printable character stands for itself, and no quoted text ends or breaks in it. -/
theorem encodeChar_plain {c : Char} {b : UInt8} {bs : Bytes} (he : Utf8.encodeChar c = b :: bs) (hq : c ≠ '"')
    (hs : c ≠ '\\') (hp : isPrintable c = true) : b ≠ 0x22 ∧ b ≠ 0x5C ∧ b ≠ 0x0A := by
  have hchar : b < 0x80 → c = Char.ofNat b.toNat := by
    intro hb
    have h := Utf8.head_encodeChar he []
    rw [Utf8.head_ascii hb] at h
    exact (Glyph.char.inj (Prod.mk.inj h).1).symm
  refine ⟨?_, ?_, ?_⟩
  · rintro rfl
    exact hq (hchar (by decide))
  · rintro rfl
    exact hs (hchar (by decide))
  · rintro rfl
    rw [hchar (by decide)] at hp
    exact absurd hp (by decide)

theorem escape?_escapeLetter {c : Char} {l : UInt8} (h : escapeLetter? c = some l) (rest : Bytes) :
    escape? (l :: rest) = some (Utf8.encodeChar c, 1) := by
  unfold escapeLetter? at h
  split at h <;> cases h <;> rename_i hc <;> rw [encodeChar_ascii (by omega), hc] <;> rfl

theorem escape?_four {n : Nat} (h : n < 0x10000) (rest : Bytes) :
    escape? (0x75 :: hex 4 n ++ rest) = (scalar? n).map fun s => (s, 5) := by
  rw [List.cons_append, escape?, hexNumber?_four h]
  rfl

theorem escape?_eight {n : Nat} (h : n < 0x100000000) (rest : Bytes) :
    escape? (0x55 :: hex 8 n ++ rest) = (scalar? n).map fun s => (s, 9) := by
  rw [List.cons_append, escape?, hexNumber?_eight h]
  rfl

/-- The ways to write a character inside quotes. -/
theorem quoteChar_cases {P : Bytes → Prop} (c : Char) (special : c = '"' ∨ c = '\\' → P (0x5C :: Utf8.encodeChar c))
    (plain : ¬ (c = '"' ∨ c = '\\') → isPrintable c = true → P (Utf8.encodeChar c))
    (letter : ∀ l, escapeLetter? c = some l → P [0x5C, l]) (two : c.toNat < 0x80 → P ([0x5C, 0x78] ++ hex 2 c.toNat))
    (four : c.toNat < 0x10000 → P ([0x5C, 0x75] ++ hex 4 c.toNat)) (eight : P ([0x5C, 0x55] ++ hex 8 c.toNat)) :
    P (quoteChar c) := by
  rw [quoteChar]
  by_cases hq : c = '"' ∨ c = '\\'
  · rw [if_pos hq]
    exact special hq
  rw [if_neg hq]
  by_cases hp : isPrintable c = true
  · rw [if_pos hp]
    exact plain hq hp
  rw [if_neg hp]
  cases hl : escapeLetter? c with
  | some l => exact letter l hl
  | none =>
    by_cases h₁ : c.toNat < 0x80
    · simp only [if_pos h₁]
      exact two h₁
    by_cases h₂ : c.toNat < 0x10000
    · simp only [if_neg h₁, if_pos h₂]
      exact four h₂
    · simp only [if_neg h₁, if_neg h₂]
      exact eight

/-- **A quoted glyph is read as its bytes**, whatever follows. -/
theorem unescape_quoteGlyph (g : Glyph) (rest : Bytes) :
    unescapeFrom 0 (quoteGlyph g ++ rest) = (unescapeFrom 0 rest).map (g.bytes ++ ·) := by
  cases g with
  | stray b =>
    rw [quoteGlyph, unescape_hex b.toNat_lt, UInt8.ofNat_toNat]
    rfl
  | char c =>
    rw [quoteGlyph, Glyph.bytes]
    apply quoteChar_cases (P := fun q => unescapeFrom 0 (q ++ rest) = _)
    case special =>
      rintro (rfl | rfl)
      · exact unescape_escape [0x22] rfl
      · exact unescape_escape [0x5C] rfl
    case plain =>
      intro hq hp
      obtain ⟨hq, hs⟩ := not_or.1 hq
      obtain ⟨b, bs, he⟩ := Utf8.exists_encodeChar c
      obtain ⟨h₁, h₂, h₃⟩ := encodeChar_plain he hq hs hp
      rw [he]
      refine unescape_unit ?_
      rw [unit?, if_neg h₂, if_neg (not_or.2 ⟨h₁, h₃⟩), Utf8.head_encodeChar he]
      simp only [Utf8.toChar, he]
    case letter => exact fun l hl => unescape_escape [l] (escape?_escapeLetter hl rest)
    case two =>
      intro h
      have := unescape_hex (show c.toNat < 0x100 by omega) rest
      rwa [← encodeChar_ascii h] at this
    case four =>
      intro h
      refine unescape_escape (0x75 :: hex 4 c.toNat) ?_
      rw [escape?_four h, scalar?_toNat, List.length_cons, length_hex]
      rfl
    case eight =>
      refine unescape_escape (0x55 :: hex 8 c.toNat) ?_
      have := Utf8.toNat_lt c
      rw [escape?_eight (by omega), scalar?_toNat, List.length_cons, length_hex]
      rfl

theorem unescape_flatMap_quoteGlyph (gs : List Glyph) :
    unescapeFrom 0 (gs.flatMap quoteGlyph) = some (gs.flatMap Glyph.bytes) := by
  induction gs with
  | nil => rfl
  | cons g gs ih => rw [List.flatMap_cons, List.flatMap_cons, unescape_quoteGlyph, ih, Option.map_some]

/-- **Reading a quoted text gives the text back**, for every byte string. -/
theorem unquote_quote (s : Bytes) : unquote (quote s) = some s := by
  rw [quote, unquote, if_pos (by rw [List.getLast?_concat]), List.dropLast_concat, unescape_flatMap_quoteGlyph,
    Utf8.flatMap_bytes_decode]

end Quoted

end StackTape
