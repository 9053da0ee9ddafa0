import StackTape.Text.Printable

/-!
# Quoted text

Text between double quotes, with backslash escapes. `quote` writes any byte string in printable
form; `unquote` reads every literal of the source language, which has more escapes than `quote`
writes.
-/

namespace StackTape.Quoted

/-! ## Writing -/

/-- The letter of a control character that has a one-letter escape. -/
def escapeLetter? (c : Char) : Option UInt8 :=
  match c.toNat with
  | 0x07 => some 0x61
  | 0x08 => some 0x62
  | 0x0C => some 0x66
  | 0x0A => some 0x6E
  | 0x0D => some 0x72
  | 0x09 => some 0x74
  | 0x0B => some 0x76
  | _ => none

/-- A character inside quotes: itself when printable, else the shortest escape. -/
def quoteChar (c : Char) : Bytes :=
  if c = '"' ∨ c = '\\' then 0x5C :: Utf8.encodeChar c
  else if isPrintable c then Utf8.encodeChar c
  else
    match escapeLetter? c with
    | some l => [0x5C, l]
    | none =>
      if c.toNat < 0x80 then ascii "\\x" ++ hex 2 c.toNat
      else if c.toNat < 0x10000 then ascii "\\u" ++ hex 4 c.toNat
      else ascii "\\U" ++ hex 8 c.toNat

/-- A glyph inside quotes; a stray byte is written by its value. -/
def quoteGlyph : Glyph → Bytes
  | .char c => quoteChar c
  | .stray b => ascii "\\x" ++ hex 2 b.toNat

/-- The text between double quotes. -/
def quote (s : Bytes) : Bytes := 0x22 :: ((Utf8.decode s).flatMap quoteGlyph ++ [0x22])

/-! ## Reading -/

/-- The number that exactly `n` hexadecimal digits at the front spell. -/
def hexNumber? : (n : Nat) → (value : Nat) → Bytes → Option Nat
  | 0, value, _ => some value
  | _ + 1, _, [] => none
  | n + 1, value, b :: bs =>
    match hexValue? b with
    | some d => hexNumber? n (16 * value + d) bs
    | none => none

/-- The number that three octal digits at the front spell. -/
def octalNumber? : Bytes → Option Nat
  | a :: b :: c :: _ =>
    if [a, b, c].all fun d => 0x30 ≤ d && d ≤ 0x37 then
      some (((a.toNat - 0x30) * 8 + (b.toNat - 0x30)) * 8 + (c.toNat - 0x30))
    else none
  | _ => none

/-- The bytes of a scalar value; none for surrogates and numbers past the last one. -/
def scalar? (n : Nat) : Option Bytes :=
  if n.isValidChar then some (Utf8.encodeChar (Char.ofNat n)) else none

/-- What follows a backslash: the bytes it stands for and how many bytes the escape has after the
backslash. -/
def escape? : Bytes → Option (Bytes × Nat)
  | [] => none
  | b :: bs =>
    if b = 0x61 then some ([0x07], 1)
    else if b = 0x62 then some ([0x08], 1)
    else if b = 0x66 then some ([0x0C], 1)
    else if b = 0x6E then some ([0x0A], 1)
    else if b = 0x72 then some ([0x0D], 1)
    else if b = 0x74 then some ([0x09], 1)
    else if b = 0x76 then some ([0x0B], 1)
    else if b = 0x5C ∨ b = 0x22 then some ([b], 1)
    else if b = 0x78 then (hexNumber? 2 0 bs).map fun n => ([UInt8.ofNat n], 3)
    else if b = 0x75 then ((hexNumber? 4 0 bs).bind scalar?).map fun s => (s, 5)
    else if b = 0x55 then ((hexNumber? 8 0 bs).bind scalar?).map fun s => (s, 9)
    else
      match octalNumber? (b :: bs) with
      | some n => if n ≤ 255 then some ([UInt8.ofNat n], 3) else none
      | none => none

/-- The bytes that the unit starting with `b` stands for and how many of the bytes after `b` it
has. A raw newline and a bare quote are refused; a stray byte reads as the replacement character. -/
def unit? (b : UInt8) (rest : Bytes) : Option (Bytes × Nat) :=
  if b = 0x5C then escape? rest
  else if b = 0x22 ∨ b = 0x0A then none
  else some (Utf8.encodeChar (Utf8.toChar (Utf8.head b rest).1), (Utf8.head b rest).2)

/-- The text of a literal's inside of which the first `owed` bytes are already read. -/
def unescapeFrom : (owed : Nat) → Bytes → Option Bytes
  | _, [] => some []
  | owed + 1, _ :: bs => unescapeFrom owed bs
  | 0, b :: bs =>
    match unit? b bs with
    | some (out, owed) => (unescapeFrom owed bs).map (out ++ ·)
    | none => none

/-- The text that a literal stands for; none when it is not a well-formed quoted text. -/
def unquote (literal : Bytes) : Option Bytes :=
  match literal with
  | 0x22 :: rest =>
    if rest.getLast? = some 0x22 then unescapeFrom 0 rest.dropLast else none
  | _ => none

end StackTape.Quoted
