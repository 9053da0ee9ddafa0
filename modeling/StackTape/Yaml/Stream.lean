import StackTape.Yaml.Problem

/-!
# From bytes to characters

A document is UTF-8, or UTF-16 if it starts with a byte order mark of that encoding. It is decoded
piece by piece, each at most 512 bytes long, so a bad byte is noticed when the reader asks for any
character of its piece, and a sequence that the end of the document cuts short when the reader asks
for that very character.
-/

namespace StackTape.Yaml

/-- How the bytes spell characters. -/
inductive Encoding
  | utf8
  | utf16 (bigEndian : Bool)
deriving DecidableEq, Repr

/-- The encoding that the front of a document announces, and the bytes after the announcement. -/
def Encoding.detect : Bytes → Encoding × Bytes
  | 0xFF :: 0xFE :: rest => (.utf16 false, rest)
  | 0xFE :: 0xFF :: rest => (.utf16 true, rest)
  | 0xEF :: 0xBB :: 0xBF :: rest => (.utf8, rest)
  | s => (.utf8, s)

inductive Front
  /-- A character of so many bytes. -/
  | char (c : Char) (width : Nat)
  /-- A sequence that ends too early. -/
  | incomplete (u : Undecodable)
  | bad (u : Undecodable)

/-- The characters that a document may hold. -/
def isAllowed (n : Nat) : Bool :=
  n = 0x09 || n = 0x0A || n = 0x0D || (0x20 ≤ n && n ≤ 0x7E) || n = 0x85 ||
    (0xA0 ≤ n && n ≤ 0xD7FF) || (0xE000 ≤ n && n ≤ 0xFFFD) || (0x10000 ≤ n && n ≤ 0x10FFFF)

/-- A code point of so many bytes, if documents may hold it. -/
def Front.ofCode (n width : Nat) : Front :=
  if isAllowed n then .char (Char.ofNat n) width else .bad .controlCharacter

/-- The length of the UTF-8 sequence that a byte leads; zero for a byte that leads none. -/
def sequenceLength (b : UInt8) : Nat :=
  if b < 0x80 then 1
  else if 0xC0 ≤ b ∧ b < 0xE0 then 2
  else if 0xE0 ≤ b ∧ b < 0xF0 then 3
  else if 0xF0 ≤ b ∧ b < 0xF8 then 4
  else 0

/-- The least code point that needs a sequence of the given length. -/
def leastCode : Nat → Nat
  | 2 => 0x80
  | 3 => 0x800
  | 4 => 0x10000
  | _ => 0

def frontUtf8 (b : UInt8) (rest : Bytes) : Front :=
  let width := sequenceLength b
  let tails := rest.take (width - 1)
  if width = 0 then .bad .leadingOctet
  else if tails.length < width - 1 then .incomplete .incompleteSequence
  else if tails.any fun t => t < 0x80 || 0xC0 ≤ t then .bad .trailingOctet
  else
    let lead := if width = 1 then b.toNat else b.toNat % (1 <<< (7 - width))
    let code := tails.foldl (fun n t => n * 64 + t.toNat % 64) lead
    if code < leastCode width then .bad .sequenceLength
    else if (0xD800 ≤ code ∧ code ≤ 0xDFFF) ∨ 0x10FFFF < code then .bad .invalidCharacter
    else .ofCode code width

def frontUtf16 (bigEndian : Bool) (s : Bytes) : Front :=
  let unit (a b : UInt8) : Nat :=
    if bigEndian then a.toNat * 256 + b.toNat else b.toNat * 256 + a.toNat
  match s with
  | a :: b :: rest =>
    let high := unit a b
    if 0xDC00 ≤ high ∧ high ≤ 0xDFFF then .bad .lowSurrogate
    else if 0xD800 ≤ high ∧ high ≤ 0xDBFF then
      match rest with
      | c :: d :: _ =>
        let low := unit c d
        if 0xDC00 ≤ low ∧ low ≤ 0xDFFF then
          .ofCode (0x10000 + (high - 0xD800) * 0x400 + (low - 0xDC00)) 4
        else .bad .missingLowSurrogate
      | _ => .incomplete .incompletePair
    else .ofCode high 2
  | _ => .incomplete .incompleteUnit

/-- How many bytes have to be at hand to judge the front. -/
def Encoding.extent (e : Encoding) (b : UInt8) (rest : Bytes) : Nat :=
  match e with
  | .utf8 => max 1 (sequenceLength b)
  | .utf16 bigEndian =>
    let high := if bigEndian then b else rest.headD 0
    if 0xD8 ≤ high ∧ high ≤ 0xDB then 4 else 2

/-- What stands at the front of bytes that start with `b`. -/
def Encoding.front (e : Encoding) (b : UInt8) (rest : Bytes) : Front :=
  match e with
  | .utf8 => frontUtf8 b rest
  | .utf16 bigEndian => frontUtf16 bigEndian (b :: rest)

/-- The characters of a document up to the first place that cannot be decoded. They come in pieces,
which are decoded as they are asked for. -/
structure Stream where
  chars : List Char
  /-- The numbers of characters of the pieces. -/
  pieces : List Nat
  /-- How many characters of the piece after these stand before the bad place, and why it is bad. -/
  bad? : Option (Nat × Undecodable)

/-- How many bytes are read at a time. -/
def pieceBytes : Nat := 512

/-- Decodes bytes of which the first `owed` are already read. The current piece has `size`
characters so far and room for `room` more bytes. -/
def decodeFrom (e : Encoding) : (owed room size : Nat) → Bytes → Stream
  | _, _, size, [] => ⟨[], [size], none⟩
  | owed + 1, room, size, _ :: bs => decodeFrom e owed room size bs
  | 0, room, size, b :: bs =>
    let fits := e.extent b bs ≤ room
    let full := if fits then [] else [size]
    let before := if fits then size else 0
    match e.front b bs with
    | .bad u => ⟨[], full, some (before, u)⟩
    | .incomplete u => ⟨[], [size], some (0, u)⟩
    | .char c width =>
      let room := if fits then room else pieceBytes
      let s := decodeFrom e (width - 1) (room - width) (before + 1) bs
      { s with chars := c :: s.chars, pieces := full ++ s.pieces }

/-- The characters of a document; an empty one counts as an empty line. -/
def Stream.ofBytes (s : Bytes) : Stream :=
  let s := if s = [] then [0x0A] else s
  let (e, rest) := Encoding.detect s
  decodeFrom e 0 (pieceBytes - (s.length - rest.length)) 0 rest

end StackTape.Yaml
