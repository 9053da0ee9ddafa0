import StackTape.Text.Bytes

/-!
# Decoding UTF-8

A byte string is read as a list of glyphs: the characters of its well-formed sequences and, for
every byte that no well-formed sequence holds, that byte alone. Nothing is lost and no byte is
read twice, so a damaged text still has one reading.
-/

namespace StackTape

/-- One unit of a byte string read as UTF-8. -/
inductive Glyph
  /-- A well-formed sequence. -/
  | char (c : Char)
  /-- A byte outside every well-formed sequence. -/
  | stray (b : UInt8)
deriving DecidableEq, Repr

namespace Utf8

/-- A continuation byte. -/
def isTail (b : UInt8) : Bool := 0x80 ≤ b && b ≤ 0xBF

/-- The second bytes that may follow the lead byte `b` of a longer sequence: no overlong form, no
surrogate, nothing past the last scalar value. -/
def isSecond (b c : UInt8) : Bool :=
  if b = 0xE0 then 0xA0 ≤ c && c ≤ 0xBF
  else if b = 0xED then 0x80 ≤ c && c ≤ 0x9F
  else if b = 0xF0 then 0x90 ≤ c && c ≤ 0xBF
  else if b = 0xF4 then 0x80 ≤ c && c ≤ 0x8F
  else isTail c

/-- The payload of a continuation byte. -/
def tailBits (b : UInt8) : Nat := b.toNat - 0x80

/-- The glyph that starts with `b`, and how many of the bytes after `b` belong to it. -/
def head (b : UInt8) (rest : Bytes) : Glyph × Nat :=
  if b < 0x80 then (.char (Char.ofNat b.toNat), 0)
  else if 0xC2 ≤ b ∧ b ≤ 0xDF then
    match rest with
    | c :: _ =>
      if isTail c then (.char (Char.ofNat ((b.toNat - 0xC0) * 64 + tailBits c)), 1)
      else (.stray b, 0)
    | _ => (.stray b, 0)
  else if 0xE0 ≤ b ∧ b ≤ 0xEF then
    match rest with
    | c :: d :: _ =>
      if isSecond b c && isTail d then
        (.char (Char.ofNat (((b.toNat - 0xE0) * 64 + tailBits c) * 64 + tailBits d)), 2)
      else (.stray b, 0)
    | _ => (.stray b, 0)
  else if 0xF0 ≤ b ∧ b ≤ 0xF4 then
    match rest with
    | c :: d :: e :: _ =>
      if isSecond b c && isTail d && isTail e then
        (.char (Char.ofNat
          ((((b.toNat - 0xF0) * 64 + tailBits c) * 64 + tailBits d) * 64 + tailBits e)), 3)
      else (.stray b, 0)
    | _ => (.stray b, 0)
  else (.stray b, 0)

/-- The glyphs of a byte string of which the first `owed` bytes are already read. -/
def decodeFrom : (owed : Nat) → Bytes → List Glyph
  | _, [] => []
  | owed + 1, _ :: bs => decodeFrom owed bs
  | 0, b :: bs => (head b bs).1 :: decodeFrom (head b bs).2 bs

def decode (s : Bytes) : List Glyph := decodeFrom 0 s

def encodeChar (c : Char) : Bytes := String.utf8EncodeChar c

/-- The character that stands for a glyph; a stray byte reads as the replacement character. -/
def toChar : Glyph → Char
  | .char c => c
  | .stray _ => Char.ofNat 0xFFFD

/-- The characters of a byte string, with replacement characters for the stray bytes. -/
def chars (s : Bytes) : List Char := (decode s).map toChar

def encode (cs : List Char) : Bytes := cs.flatMap encodeChar

/-- The byte string has no stray byte. -/
def valid (s : Bytes) : Bool := (decode s).all fun
  | .char _ => true
  | .stray _ => false

end Utf8

end StackTape
