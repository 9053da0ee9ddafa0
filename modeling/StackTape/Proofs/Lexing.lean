import StackTape.Source.Token
import StackTape.Proofs.Literals

/-!
# Tokens by regular expressions

The lexical rules as a list of regular expressions, tried in order at every place of a text (`rules`), and the
relation `Lexes` that cuts a text into lexemes by them. An expression matches as a backtracking search finds it
first: `rests` lists what is left of the text after each possible match, the preferred one first.

The reader of tokens works on bytes and never backtracks. It finds the same lexemes (`tokens_lexes`), because
every repetition is over one class of characters, or over units of a quoted text that no quote starts.
-/

namespace StackTape.Source

/-! ## Regular expressions -/

/-- A regular expression over the characters of a text. -/
inductive Pattern
  /-- One character of a class. -/
  | one (p : Char → Bool)
  | seq (a b : Pattern)
  /-- Either of two, the first preferred. -/
  | alt (a b : Pattern)
  /-- Any number of rounds, as many as possible preferred. -/
  | star (a : Pattern)

/-- What is left after the first character, if that is in the class; a stray byte counts as the replacement
character. -/
def afterChar (p : Char → Bool) : Bytes → List Bytes
  | [] => []
  | b :: bs => if p (Utf8.toChar (Utf8.head b bs).1) then [bs.drop (Utf8.head b bs).2] else []

/-- What is left after up to `n` rounds, more rounds first. -/
def rounds (once : Bytes → List Bytes) : (n : Nat) → Bytes → List Bytes
  | 0, s => [s]
  | n + 1, s => (once s).flatMap (rounds once n) ++ [s]

namespace Pattern

/-- What is left of the text after each match at its front, the preferred match first. A round of a repetition
takes at least one byte, so no more than all bytes are tried. -/
def rests : Pattern → Bytes → List Bytes
  | .one p, s => afterChar p s
  | .seq a b, s => (a.rests s).flatMap b.rests
  | .alt a b, s => a.rests s ++ b.rests s
  | .star a, s => rounds a.rests s.length s

theorem rests_seq (a b : Pattern) (s : Bytes) : (seq a b).rests s = (a.rests s).flatMap b.rests := rfl

theorem rests_alt (a b : Pattern) (s : Bytes) : (alt a b).rests s = a.rests s ++ b.rests s := rfl

theorem rests_star (a : Pattern) (s : Bytes) : (star a).rests s = rounds a.rests s.length s := rfl

abbrev among (cs : List Char) : Pattern := .one fun c => cs.contains c

abbrev except (cs : List Char) : Pattern := .one fun c => !cs.contains c

/-- At least one round. -/
abbrev plus (a : Pattern) : Pattern := .seq a (.star a)

def digit (c : Char) : Bool := '0' ≤ c && c ≤ '9'

/-- A letter or an underscore. -/
def letter (c : Char) : Bool := ('a' ≤ c && c ≤ 'z') || ('A' ≤ c && c ≤ 'Z') || c = '_'

/-- A unit of a quoted text: a backslash with the character after it, or any other character but a quote. -/
def quotedUnit : Pattern := .alt (.seq (among ['\\']) (except ['\n'])) (except ['"', '\\'])

end Pattern

open Pattern

/-- The lexical rules in the order in which they are tried: `\s+`, `#[^\n]*`, `[0-9]+`, `"(\\.|[^"\\])*"`,
`[a-zA-Z_][a-zA-Z0-9_]*` and one of the three punctuation marks. -/
def rules : List (Kind × Pattern) := [
  (.blank, plus (among ['\t', '\n', '\x0c', '\r', ' '])),
  (.comment, .seq (among ['#']) (.star (except ['\n']))),
  (.int, plus (.one digit)),
  (.string, .seq (among ['"']) (.seq (.star quotedUnit) (among ['"']))),
  (.ident, .seq (.one letter) (.star (.one fun c => letter c || digit c))),
  (.punct, among ['\x7b', '\x7d', ';'])]

/-- The first rule that matches at the front of the text, and what its match leaves. -/
def firstMatch (s : Bytes) : Option (Kind × Bytes) :=
  rules.findSome? fun r => (r.2.rests s).head?.map fun rest => (r.1, rest)

/-- A token without its place. -/
structure Lexeme where
  kind : Kind
  text : Bytes
deriving DecidableEq, Repr

/-- The text splits into the lexemes by the lexical rules. -/
inductive Lexes : Bytes → List Lexeme → Prop
  | nil : Lexes [] []
  | cons {kind : Kind} {text rest : Bytes} {ls : List Lexeme}
      (first : firstMatch (text ++ rest) = some (kind, rest)) (more : Lexes rest ls) :
      Lexes (text ++ rest) (⟨kind, text⟩ :: ls)

/-! ## Classes of characters and classes of bytes -/

/-- The class of characters `p` can be told from the first byte by `q`: outside ASCII both are constant. -/
structure ByFirstByte (p : Char → Bool) (q : UInt8 → Bool) : Prop where
  ascii : ∀ n < 0x80, p (Char.ofNat n) = q (UInt8.ofNat n)
  other : ∀ c : Char, 0x80 ≤ c.toNat → ∀ b : UInt8, 0x80 ≤ b → p c = q b

theorem ByFirstByte.not {p : Char → Bool} {q : UInt8 → Bool} (h : ByFirstByte p q) :
    ByFirstByte (fun c => !p c) (fun b => !q b) where
  ascii n hn := by rw [h.ascii n hn]
  other c hc b hb := by rw [h.other c hc b hb]

/-- A class of ASCII characters, by the same condition on the codes of characters and of bytes. -/
structure AsciiClass (p : Char → Bool) (q : UInt8 → Bool) (P : Nat → Prop) : Prop where
  char : ∀ c, p c = true ↔ P c.toNat
  byte : ∀ b, q b = true ↔ P b.toNat
  small : ∀ n, P n → n < 0x80

namespace AsciiClass

variable {p : Char → Bool} {q : UInt8 → Bool} {P : Nat → Prop} (h : AsciiClass p q P)
include h

theorem other_byte {b : UInt8} (hb : 0x80 ≤ b) : q b = false := by
  rw [Bool.eq_false_iff]
  intro hq
  have := h.small _ ((h.byte b).1 hq)
  have := UInt8.le_iff_toNat_le.1 hb
  simp only [UInt8.reduceToNat] at this
  omega

theorem byFirstByte : ByFirstByte p q where
  ascii n hn := by
    have hc : (Char.ofNat n).toNat = n := Utf8.toNat_ofNat (Or.inl (by omega))
    have hb : (UInt8.ofNat n).toNat = n := UInt8.toNat_ofNat_of_lt' (show n < 0x100 by omega)
    rw [Bool.eq_iff_iff, h.char, h.byte, hc, hb]
  other c hc b hb := by
    rw [h.other_byte hb, Bool.eq_false_iff]
    intro hp
    have := h.small _ ((h.char c).1 hp)
    omega

end AsciiClass

theorem beq_iff_toNat (b c : UInt8) : (b == c) = true ↔ b.toNat = c.toNat := by
  rw [beq_iff_eq, UInt8.toNat_inj]

theorem isBlank_iff (b : UInt8) : isBlank b = true ↔
    b.toNat = 0x09 ∨ b.toNat = 0x0A ∨ b.toNat = 0x0C ∨ b.toNat = 0x0D ∨ b.toNat = 0x20 := by
  simp only [isBlank, Bool.or_eq_true, beq_iff_toNat, UInt8.reduceToNat, or_assoc]

theorem isNameStart_iff (b : UInt8) : isNameStart b = true ↔
    0x41 ≤ b.toNat ∧ b.toNat ≤ 0x5A ∨ 0x61 ≤ b.toNat ∧ b.toNat ≤ 0x7A ∨ b.toNat = 0x5F := by
  simp only [isNameStart, isLetter, Bool.or_eq_true, Bool.and_eq_true, decide_eq_true_eq, UInt8.le_iff_toNat_le,
    beq_iff_toNat, UInt8.reduceToNat, or_assoc]

theorem isPunct_iff (b : UInt8) : isPunct b = true ↔ b.toNat = 0x7B ∨ b.toNat = 0x7D ∨ b.toNat = 0x3B := by
  simp only [isPunct, Bool.or_eq_true, beq_iff_toNat, UInt8.reduceToNat, or_assoc]

theorem digit_iff (c : Char) : digit c = true ↔ 0x30 ≤ c.toNat ∧ c.toNat ≤ 0x39 := by
  simp [digit, Char.le_def, UInt32.le_iff_toNat_le]

theorem letter_iff (c : Char) : letter c = true ↔
    0x41 ≤ c.toNat ∧ c.toNat ≤ 0x5A ∨ 0x61 ≤ c.toNat ∧ c.toNat ≤ 0x7A ∨ c.toNat = 0x5F := by
  have h : c = '_' ↔ c.toNat = 0x5F := Char.toNat_inj.symm
  simp [letter, Char.le_def, UInt32.le_iff_toNat_le, h]
  omega

theorem contains_iff (cs : List Char) (c : Char) : cs.contains c = true ↔ c.toNat ∈ cs.map Char.toNat := by
  rw [List.contains_iff_mem, List.mem_map]
  constructor
  · exact fun h => ⟨c, h, rfl⟩
  · rintro ⟨d, hd, e⟩
    rwa [← Char.toNat_inj.1 e]

theorem class_digit : AsciiClass digit isDigit fun n => 0x30 ≤ n ∧ n ≤ 0x39 :=
  ⟨digit_iff, fun _ => isDigit_iff, fun n h => by omega⟩

theorem class_letter : AsciiClass letter isNameStart
    fun n => 0x41 ≤ n ∧ n ≤ 0x5A ∨ 0x61 ≤ n ∧ n ≤ 0x7A ∨ n = 0x5F :=
  ⟨letter_iff, isNameStart_iff, fun n h => by omega⟩

theorem class_blank : AsciiClass (fun c => ['\t', '\n', '\x0c', '\r', ' '].contains c) isBlank
    fun n => n = 0x09 ∨ n = 0x0A ∨ n = 0x0C ∨ n = 0x0D ∨ n = 0x20 :=
  ⟨fun c => by rw [contains_iff]; simp, isBlank_iff, fun n h => by omega⟩

theorem class_punct : AsciiClass (fun c => ['\x7b', '\x7d', ';'].contains c) isPunct
    fun n => n = 0x7B ∨ n = 0x7D ∨ n = 0x3B :=
  ⟨fun c => by rw [contains_iff]; simp, isPunct_iff, fun n h => by omega⟩

/-- A class of one character. -/
theorem class_single {d : Char} {x : UInt8} (hd : d.toNat = x.toNat) (hx : x.toNat < 0x80) :
    AsciiClass (fun c => [d].contains c) (· == x) fun n => n = x.toNat :=
  ⟨fun c => by rw [contains_iff]; simp [hd], fun b => beq_iff_toNat b x, fun n h => by omega⟩

theorem class_quote : AsciiClass (fun c => ['"'].contains c) (· == 0x22) fun n => n = 0x22 :=
  class_single rfl (by decide)

theorem class_backslash : AsciiClass (fun c => ['\\'].contains c) (· == 0x5C) fun n => n = 0x5C :=
  class_single rfl (by decide)

theorem class_hash : AsciiClass (fun c => ['#'].contains c) (· == 0x23) fun n => n = 0x23 :=
  class_single rfl (by decide)

theorem class_newline : AsciiClass (fun c => ['\n'].contains c) (· == 0x0A) fun n => n = 0x0A :=
  class_single rfl (by decide)

/-- The two characters that are not plain in a quoted text. -/
theorem class_special : AsciiClass (fun c => ['"', '\\'].contains c) (fun b => b == 0x22 || b == 0x5C)
    fun n => n = 0x22 ∨ n = 0x5C :=
  ⟨fun c => by rw [contains_iff]; simp,
    fun b => by simp only [Bool.or_eq_true, beq_iff_toNat, UInt8.reduceToNat], fun n h => by omega⟩

theorem byFirstByte_notNewline : ByFirstByte (fun c => !(['\n'].contains c)) (· != 0x0A) :=
  class_newline.byFirstByte.not

theorem byFirstByte_name : ByFirstByte (fun c => letter c || digit c) isNamePart where
  ascii n hn := by rw [isNamePart, class_letter.byFirstByte.ascii n hn, class_digit.byFirstByte.ascii n hn]
  other c hc b hb := by
    rw [isNamePart, class_letter.byFirstByte.other c hc b hb, class_digit.byFirstByte.other c hc b hb]

section

variable {p : Char → Bool} {q : UInt8 → Bool} (h : ByFirstByte p q)
include h

/-- A character is taken with all its bytes when its first byte is in the class. -/
theorem rests_of_class (b : UInt8) (bs : Bytes) :
    Pattern.rests (.one p) (b :: bs) = if q b then [bs.drop (Utf8.head b bs).2] else [] := by
  rw [rests, afterChar]
  suffices e : p (Utf8.toChar (Utf8.head b bs).1) = q b by rw [e]
  by_cases hb : 0x80 ≤ b
  · exact h.other _ (Utf8.toChar_head_ge hb bs) b hb
  · have hlt : b.toNat < 0x80 := by simpa [UInt8.le_iff_toNat_le] using hb
    rw [Utf8.head_ascii (UInt8.lt_iff_toNat_lt.2 hlt), Utf8.toChar, h.ascii b.toNat hlt, UInt8.ofNat_toNat]

/-- All bytes of a character are in the class of its first byte. -/
theorem all_take_head {b : UInt8} (hb : q b = true) (bs : Bytes) : ∀ x ∈ bs.take (Utf8.head b bs).2, q x = true := by
  intro x hx
  by_cases hge : 0x80 ≤ b
  · have e := h.other (Char.ofNat 0x80) (by decide) x (Utf8.take_head_ge b bs x hx)
    rw [← e, h.other (Char.ofNat 0x80) (by decide) b hge, hb]
  · rw [Utf8.head_ascii (by simpa using hge)] at hx
    simp at hx

theorem dropWhile_drop_head {b : UInt8} (hb : q b = true) (bs : Bytes) :
    (bs.drop (Utf8.head b bs).2).dropWhile q = bs.dropWhile q := by
  have hall := all_take_head h hb bs
  conv => rhs; rw [← List.take_append_drop (Utf8.head b bs).2 bs]
  rw [List.dropWhile_append_of_pos hall]

/-- A repetition over a class takes the longest run of its bytes. -/
theorem head?_rounds {n : Nat} {s : Bytes} (hn : s.length ≤ n) :
    (rounds (Pattern.one p).rests n s).head? = some (s.dropWhile q) := by
  induction n generalizing s with
  | zero =>
    rw [List.length_eq_zero_iff.1 (Nat.le_zero.1 hn)]
    rfl
  | succ n ih =>
    cases s with
    | nil => rfl
    | cons b bs =>
      rw [rounds, rests_of_class h]
      by_cases hb : q b = true
      · have hlen : (bs.drop (Utf8.head b bs).2).length ≤ n := by
          simp only [List.length_drop, List.length_cons] at hn ⊢
          omega
        rw [if_pos hb, List.flatMap_singleton, List.head?_append, ih hlen, dropWhile_drop_head h hb,
          List.dropWhile_cons_of_pos hb]
        rfl
      · rw [if_neg hb, List.dropWhile_cons_of_neg hb]
        rfl

end

/-- An ASCII character takes one byte. -/
theorem rests_of_ascii {p : Char → Bool} {q : UInt8 → Bool} {P : Nat → Prop} (h : AsciiClass p q P) (b : UInt8)
    (bs : Bytes) : Pattern.rests (.one p) (b :: bs) = if q b then [bs] else [] := by
  rw [rests_of_class h.byFirstByte]
  by_cases hb : q b = true
  · have hlt : b < 0x80 := UInt8.not_le.1 fun hge => by simp [h.other_byte hge] at hb
    rw [if_pos hb, if_pos hb, Utf8.head_ascii hlt, List.drop_zero]
  · rw [if_neg hb, if_neg hb]

theorem dropWhile_eq_drop (q : UInt8 → Bool) (s : Bytes) : s.dropWhile q = s.drop (runLength q s) := by
  calc s.dropWhile q = (s.takeWhile q ++ s.dropWhile q).drop (s.takeWhile q).length := List.drop_left.symm
    _ = s.drop (runLength q s) := by rw [List.takeWhile_append_dropWhile, runLength]

/-! ## Quoted texts -/

theorem stringLength?_quote (bs : Bytes) : stringLength? (0x22 :: bs) = some 1 := by
  rw [stringLength?.eq_def]
  rfl

theorem stringLength?_plain {b : UInt8} (hq : b ≠ 0x22) (hs : b ≠ 0x5C) (bs : Bytes) :
    stringLength? (b :: bs) = (stringLength? bs).map (· + 1) := by
  rw [stringLength?.eq_def]
  simp only [if_neg hq, if_neg hs]

theorem stringLength?_escape {c : UInt8} (hc : c ≠ 0x0A) (cs : Bytes) :
    stringLength? (0x5C :: c :: cs) = (stringLength? cs).map (· + 2) := by
  rw [stringLength?.eq_def]
  simp [hc]

/-- Bytes that are neither a quote nor a backslash do not end a quoted text. -/
theorem stringLength?_append {front s : Bytes} (h : ∀ x ∈ front, x ≠ 0x22 ∧ x ≠ 0x5C) :
    stringLength? (front ++ s) = (stringLength? s).map (· + front.length) := by
  induction front with
  | nil => simp
  | cons b bs ih =>
    obtain ⟨hq, hs⟩ := h b List.mem_cons_self
    rw [List.cons_append, stringLength?_plain hq hs, ih fun x hx => h x (List.mem_cons_of_mem b hx), Option.map_map]
    rfl

theorem plain_of_ge {b : UInt8} (h : 0x80 ≤ b) : b ≠ 0x22 ∧ b ≠ 0x5C :=
  ⟨fun e => absurd h (by rw [e]; decide), fun e => absurd h (by rw [e]; decide)⟩

/-- What a quoted text leaves of `s`, which starts after the opening quote. -/
def afterQuoted (s : Bytes) : Option Bytes := (stringLength? s).map (s.drop ·)

/-- The bytes of a glyph after its first one do not end a quoted text. -/
theorem afterQuoted_drop_head (b : UInt8) (s : Bytes) : afterQuoted s = afterQuoted (s.drop (Utf8.head b s).2) := by
  have e := stringLength?_append (s := s.drop (Utf8.head b s).2) fun x hx => plain_of_ge (Utf8.take_head_ge b s x hx)
  rw [List.take_append_drop] at e
  rw [afterQuoted, e, afterQuoted, Option.map_map]
  congr 1
  funext n
  rw [Function.comp, List.drop_drop, List.length_take]
  by_cases hk : (Utf8.head b s).2 ≤ s.length
  · rw [Nat.min_eq_left hk, Nat.add_comm]
  · rw [List.drop_of_length_le (by omega), List.drop_of_length_le (by omega)]

theorem afterQuoted_quote (bs : Bytes) : afterQuoted (0x22 :: bs) = some bs := by
  rw [afterQuoted, stringLength?_quote]
  rfl

theorem afterQuoted_plain {b : UInt8} (hq : b ≠ 0x22) (hs : b ≠ 0x5C) (bs : Bytes) :
    afterQuoted (b :: bs) = afterQuoted (bs.drop (Utf8.head b bs).2) := by
  rw [← afterQuoted_drop_head, afterQuoted, stringLength?_plain hq hs, afterQuoted, Option.map_map]
  rfl

theorem afterQuoted_escape {c : UInt8} (hc : c ≠ 0x0A) (cs : Bytes) :
    afterQuoted (0x5C :: c :: cs) = afterQuoted (cs.drop (Utf8.head c cs).2) := by
  rw [← afterQuoted_drop_head, afterQuoted, stringLength?_escape hc, afterQuoted, Option.map_map]
  rfl

theorem rests_quote (b : UInt8) (bs : Bytes) : (among ['"']).rests (b :: bs) = if b = 0x22 then [bs] else [] := by
  rw [rests_of_ascii class_quote]
  simp only [beq_iff_eq]

theorem rests_backslash (b : UInt8) (bs : Bytes) :
    (among ['\\']).rests (b :: bs) = if b = 0x5C then [bs] else [] := by
  rw [rests_of_ascii class_backslash]
  simp only [beq_iff_eq]

theorem quotedUnit_escape {c : UInt8} (hc : c ≠ 0x0A) (cs : Bytes) :
    quotedUnit.rests (0x5C :: c :: cs) = [cs.drop (Utf8.head c cs).2] := by
  rw [quotedUnit, rests_alt, rests_seq, rests_backslash, if_pos rfl, List.flatMap_singleton,
    rests_of_class byFirstByte_notNewline, if_pos (by simpa using hc), rests_of_class class_special.byFirstByte.not,
    if_neg (by decide), List.append_nil]

theorem quotedUnit_plain {b : UInt8} (hq : b ≠ 0x22) (hs : b ≠ 0x5C) (bs : Bytes) :
    quotedUnit.rests (b :: bs) = [bs.drop (Utf8.head b bs).2] := by
  rw [quotedUnit, rests_alt, rests_seq, rests_backslash, if_neg hs, List.flatMap_nil, List.nil_append,
    rests_of_class class_special.byFirstByte.not, if_pos (by simp [hq, hs])]

/-- **A search for the closing quote never backtracks**: where another unit can be taken there is no quote. -/
theorem rounds_quoted {n : Nat} {s : Bytes} (hn : s.length ≤ n) :
    (rounds quotedUnit.rests n s).flatMap (among ['"']).rests = (afterQuoted s).toList := by
  induction n generalizing s with
  | zero =>
    rw [List.length_eq_zero_iff.1 (Nat.le_zero.1 hn)]
    rfl
  | succ n ih =>
    -- one more unit `s'` in front, and no closing quote at `b`
    have unit : ∀ {b bs s'}, b ≠ 0x22 → s'.length ≤ n → quotedUnit.rests (b :: bs) = [s'] →
        (rounds quotedUnit.rests (n + 1) (b :: bs)).flatMap (among ['"']).rests = (afterQuoted s').toList := by
      intro b bs s' hb hlen hunit
      rw [rounds, hunit, List.flatMap_singleton, List.flatMap_append, ih hlen, List.flatMap_singleton, rests_quote,
        if_neg hb, List.append_nil]
    have last : ∀ {s}, quotedUnit.rests s = [] →
        (rounds quotedUnit.rests (n + 1) s).flatMap (among ['"']).rests = (among ['"']).rests s := by
      intro s hunit
      rw [rounds, hunit, List.flatMap_nil, List.nil_append, List.flatMap_singleton]
    cases s with
    | nil => rfl
    | cons b bs =>
      simp only [List.length_cons] at hn
      by_cases hq : b = 0x22
      · subst hq
        rw [last (by rfl), rests_quote, if_pos rfl, afterQuoted_quote]
        rfl
      · by_cases hs : b = 0x5C
        · subst hs
          cases bs with
          | nil => rfl
          | cons c cs =>
            simp only [List.length_cons] at hn
            by_cases hc : c = 0x0A
            · subst hc
              rw [last (by rfl), rests_quote, if_neg hq]
              simp [afterQuoted, stringLength?]
            · rw [unit hq (by rw [List.length_drop]; omega) (quotedUnit_escape hc cs), afterQuoted_escape hc]
        · rw [unit hq (by rw [List.length_drop]; omega) (quotedUnit_plain hq hs bs), afterQuoted_plain hq hs]

/-! ## The first rule that matches -/

/-- An ASCII character followed by a run of another class. -/
theorem head?_rests_run {p p' : Char → Bool} {q q' : UInt8 → Bool} {P : Nat → Prop} (h : AsciiClass p q P)
    (h' : ByFirstByte p' q') (b : UInt8) (bs : Bytes) :
    (Pattern.rests (.seq (.one p) (.star (.one p'))) (b :: bs)).head? =
      if q b then some (bs.drop (runLength q' bs)) else none := by
  rw [rests_seq, rests_of_ascii h]
  by_cases hb : q b = true
  · rw [if_pos hb, if_pos hb, List.flatMap_singleton, rests_star, ← dropWhile_eq_drop,
      head?_rounds h' (Nat.le_refl _)]
  · rw [if_neg hb, if_neg hb]
    rfl

theorem head?_rests_string (b : UInt8) (bs : Bytes) :
    (Pattern.rests (.seq (among ['"']) (.seq (.star quotedUnit) (among ['"']))) (b :: bs)).head? =
      if b = 0x22 then afterQuoted bs else none := by
  rw [rests_seq, rests_quote]
  by_cases hb : b = 0x22
  · rw [if_pos hb, if_pos hb, List.flatMap_singleton, rests_seq, rests_star, rounds_quoted (Nat.le_refl _)]
    cases afterQuoted bs <;> rfl
  · rw [if_neg hb, if_neg hb]
    rfl

/-- **The first rule that matches is the one that the first byte selects.** -/
theorem firstMatch_cons (b : UInt8) (bs : Bytes) :
    firstMatch (b :: bs) = (lexeme? b bs).map fun r => (r.1, bs.drop r.2) := by
  have hblank := head?_rests_run class_blank class_blank.byFirstByte b bs
  have hcomment := head?_rests_run class_hash byFirstByte_notNewline b bs
  have hint := head?_rests_run class_digit class_digit.byFirstByte b bs
  have hstring := head?_rests_string b bs
  have hident := head?_rests_run class_letter byFirstByte_name b bs
  have hpunct := rests_of_ascii class_punct b bs
  simp only [firstMatch, rules, plus, List.findSome?_cons, List.findSome?_nil, hblank, hcomment, hint, hstring,
    hident, hpunct, beq_iff_eq]
  unfold lexeme?
  by_cases h₁ : isBlank b = true
  · simp [h₁]
  by_cases h₂ : b = 0x23
  · simp [h₁, if_pos h₂]
  by_cases h₃ : isDigit b = true
  · simp [h₁, h₂, h₃]
  by_cases h₄ : b = 0x22
  · have hs : isNameStart b = false := by rw [h₄]; decide
    have hp : isPunct b = false := by rw [h₄]; decide
    simp only [h₁, h₂, h₃, if_pos h₄, hs, hp, afterQuoted]
    cases stringLength? bs <;> rfl
  by_cases h₅ : isNameStart b = true
  · simp [h₁, h₂, h₃, h₄, h₅]
  by_cases h₆ : isPunct b = true
  · simp [h₁, h₂, h₃, h₄, h₅, h₆]
  · simp [h₁, h₂, h₃, h₄, h₅, h₆]

/-! ## The reader of tokens -/

/-- A token without its place. -/
def Token.lexeme (t : Token) : Lexeme := ⟨t.kind, t.text⟩

/-- The lexeme counts for the grammar. -/
def Lexeme.isSignificant (l : Lexeme) : Bool := l.kind ≠ .blank ∧ l.kind ≠ .comment

theorem map_lexeme_filter (ts : List Token) :
    (ts.filter Token.isSignificant).map Token.lexeme = (ts.map Token.lexeme).filter Lexeme.isSignificant := by
  rw [List.filter_map]
  rfl

theorem lexes_nil_iff {ls : List Lexeme} : Lexes [] ls ↔ ls = [] := by
  constructor
  · intro h
    generalize hs : ([] : Bytes) = s at h
    cases h with
    | nil => rfl
    | cons first more =>
      rw [← hs] at first
      cases first
  · rintro rfl
    exact .nil

theorem lexes_cons_iff {b : UInt8} {bs : Bytes} {ls : List Lexeme} :
    Lexes (b :: bs) ls ↔ ∃ kind n ls', lexeme? b bs = some (kind, n) ∧ ls = ⟨kind, b :: bs.take n⟩ :: ls' ∧
      Lexes (bs.drop n) ls' := by
  have split : ∀ n, b :: bs = (b :: bs.take n) ++ bs.drop n := fun n => by
    rw [List.cons_append, List.take_append_drop]
  constructor
  · intro h
    generalize hs : b :: bs = s at h
    cases h with
    | nil => cases hs
    | @cons kind text rest ls' first more =>
      rw [← hs, firstMatch_cons] at first
      obtain ⟨⟨kind', n⟩, hl, he⟩ := Option.map_eq_some_iff.1 first
      obtain ⟨rfl, rfl⟩ := Prod.mk.inj he
      have ht : text = b :: bs.take n := List.append_cancel_right (hs.symm.trans (split n))
      exact ⟨kind', n, ls', hl, by rw [ht], more⟩
  · rintro ⟨kind, n, ls', hl, rfl, more⟩
    rw [split n]
    refine .cons ?_ more
    rw [← split n, firstMatch_cons, hl]
    rfl

theorem tokensFrom_eq_drop (owed : Nat) (pos : Position) (s : Bytes) :
    tokensFrom owed pos s = tokensFrom 0 pos (s.drop owed) := by
  induction s generalizing owed with
  | nil => simp [tokensFrom]
  | cons b bs ih =>
    cases owed with
    | zero => rfl
    | succ owed => rw [tokensFrom, ih, List.drop_succ_cons]

theorem tokensFrom_lexes (pos : Position) (s : Bytes) (ls : List Lexeme) :
    (∃ ts, tokensFrom 0 pos s = .ok ts ∧ ts.map Token.lexeme = ls) ↔ Lexes s ls := by
  -- the text after a token is shorter, but no tail of the list given by its structure
  induction hn : s.length using Nat.strongRecOn generalizing pos s ls with
  | _ n ih =>
  cases s with
  | nil => simp [tokensFrom, lexes_nil_iff, eq_comm]
  | cons b bs =>
    rw [lexes_cons_iff, tokensFrom]
    cases hl : lexeme? b bs with
    | none => simp
    | some r =>
      obtain ⟨kind, k⟩ := r
      have hlt : (bs.drop k).length < n := by
        rw [← hn, List.length_drop, List.length_cons]
        omega
      have more := ih _ hlt (pos.advance (b :: bs.take k)) (bs.drop k)
      simp only [tokensFrom_eq_drop k]
      constructor
      · rintro ⟨ts, hts, rfl⟩
        cases htail : tokensFrom 0 (pos.advance (b :: bs.take k)) (bs.drop k) with
        | error u => simp [htail, Functor.map, Except.map] at hts
        | ok tail =>
          simp only [htail, Functor.map, Except.map, Except.ok.injEq] at hts
          subst hts
          exact ⟨kind, k, tail.map Token.lexeme, rfl, rfl, (more _ rfl).1 ⟨tail, htail, rfl⟩⟩
      · rintro ⟨kind', k', ls', hk, rfl, hls⟩
        simp only [Option.some.injEq, Prod.mk.injEq] at hk
        obtain ⟨rfl, rfl⟩ := hk
        obtain ⟨tail, htail, rfl⟩ := (more _ rfl).2 hls
        exact ⟨_, by rw [htail]; rfl, rfl⟩

/-- **The reader of tokens follows the lexical rules.** -/
theorem tokens_lexes {text : Bytes} {ls : List Lexeme} :
    (∃ ts, tokens text = .ok ts ∧ ts.map Token.lexeme = ls) ↔ Lexes text ls :=
  tokensFrom_lexes {} text ls

theorem Lexes.unique {text : Bytes} {ls ls' : List Lexeme} (h : Lexes text ls) (h' : Lexes text ls') : ls = ls' := by
  obtain ⟨ts, hts, rfl⟩ := tokens_lexes.2 h
  obtain ⟨ts', hts', rfl⟩ := tokens_lexes.2 h'
  rw [hts] at hts'
  cases hts'
  rfl

/-! ## The texts of lexemes -/

/-- The text is an identifier. -/
def isName : Bytes → Bool
  | [] => false
  | b :: bs => isNameStart b && bs.all isNamePart

/-- The text is a run of digits. -/
def isNumeral (s : Bytes) : Bool := !s.isEmpty && s.all isDigit

/-- Identifiers and integers have texts of their kind. -/
def Lexeme.Proper (l : Lexeme) : Prop :=
  (l.kind = .ident → isName l.text = true) ∧ (l.kind = .int → isNumeral l.text = true)

theorem take_runLength (q : UInt8 → Bool) (s : Bytes) : s.take (runLength q s) = s.takeWhile q := by
  conv => lhs; arg 2; rw [← List.takeWhile_append_dropWhile (p := q) (l := s)]
  rw [runLength, List.take_left]

theorem all_take_runLength (q : UInt8 → Bool) (s : Bytes) : (s.take (runLength q s)).all q = true := by
  rw [take_runLength]
  exact List.all_takeWhile

theorem proper_of_lexeme? {b : UInt8} {bs : Bytes} {kind : Kind} {n : Nat} (h : lexeme? b bs = some (kind, n)) :
    Lexeme.Proper ⟨kind, b :: bs.take n⟩ := by
  unfold lexeme? at h
  split at h
  · cases h
    exact ⟨nofun, nofun⟩
  split at h
  · cases h
    exact ⟨nofun, nofun⟩
  split at h
  · rename_i hd
    cases h
    exact ⟨nofun, fun _ => by simp [isNumeral, hd, all_take_runLength]⟩
  split at h
  · obtain ⟨m, -, hm⟩ := Option.map_eq_some_iff.1 h
    cases hm
    exact ⟨nofun, nofun⟩
  split at h
  · rename_i hs
    cases h
    exact ⟨fun _ => by simp [isName, hs, all_take_runLength], nofun⟩
  split at h
  · cases h
    exact ⟨nofun, nofun⟩
  · cases h

theorem Lexes.proper {text : Bytes} {ls : List Lexeme} (h : Lexes text ls) : ∀ l ∈ ls, l.Proper := by
  induction h with
  | nil => exact fun _ h => absurd h List.not_mem_nil
  | @cons kind text rest ls first more ih =>
    have hall := Lexes.cons first more
    cases htext : text ++ rest with
    | nil =>
      rw [htext] at first
      cases first
    | cons b bs =>
      rw [htext, lexes_cons_iff] at hall
      obtain ⟨kind', n, ls', hl, he, -⟩ := hall
      cases he
      exact List.forall_mem_cons.2 ⟨proper_of_lexeme? hl, ih⟩

end StackTape.Source
