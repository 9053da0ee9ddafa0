/-!
# Byte strings

Texts, names and code are byte strings: nothing here asks them to be valid UTF-8. This module holds
the few operations all other modules share: literals, decimal and hexadecimal digits, repetition.
-/

namespace StackTape

abbrev Bytes := List UInt8

/-- The bytes of a literal, one for each of its (ASCII) characters. -/
def ascii (s : String) : Bytes := s.toList.map fun c => UInt8.ofNat c.toNat

/-! ## Numbers as text -/

/-- A natural number in decimal, without leading zeros. -/
def decimal (n : Nat) : Bytes := (Nat.toDigits 10 n).map fun c => UInt8.ofNat c.toNat

/-- An integer in decimal, a minus sign before the negative ones. -/
def decimalInt : Int → Bytes
  | .ofNat n => decimal n
  | .negSucc n => 0x2D :: decimal (n + 1)

/-- The lower case hexadecimal digit of `n % 16`. -/
def hexDigit (n : Nat) : UInt8 :=
  if n % 16 < 10 then UInt8.ofNat (0x30 + n % 16) else UInt8.ofNat (0x57 + n % 16)

/-- The last `width` hexadecimal digits of `n`. -/
def hex : (width : Nat) → (n : Nat) → Bytes
  | 0, _ => []
  | w + 1, n => hex w (n / 16) ++ [hexDigit n]

/-- The value of a hexadecimal digit of either case. -/
def hexValue? (b : UInt8) : Option Nat :=
  if 0x30 ≤ b ∧ b ≤ 0x39 then some (b.toNat - 0x30)
  else if 0x61 ≤ b ∧ b ≤ 0x66 then some (b.toNat - 0x57)
  else if 0x41 ≤ b ∧ b ≤ 0x46 then some (b.toNat - 0x37)
  else none

/-! ## Classes of bytes -/

def isDigit (b : UInt8) : Bool := 0x30 ≤ b && b ≤ 0x39

def isLetter (b : UInt8) : Bool := (0x41 ≤ b && b ≤ 0x5A) || (0x61 ≤ b && b ≤ 0x7A)

/-- The lower case form of an ASCII letter; other bytes are kept. -/
def lower (b : UInt8) : UInt8 := if 0x41 ≤ b && b ≤ 0x5A then b + 0x20 else b

/-! ## Repetition and joining -/

/-- The pieces with `sep` between neighbours. -/
def joinWith (sep : Bytes) : List Bytes → Bytes
  | [] => []
  | [x] => x
  | x :: y :: rest => x ++ sep ++ joinWith sep (y :: rest)

def copies (n : Nat) (s : Bytes) : Bytes := (List.replicate n s).flatten

/-- The text padded with spaces on the right to at least `width` bytes. -/
def padRight (width : Nat) (s : Bytes) : Bytes := s ++ List.replicate (width - s.length) 0x20

end StackTape
