import StackTape.Text.Bytes
import StackTape.Text.Word

/-!
# Reading integers

Integers are read digit by digit from the left, so of two faults the one further left is reported:
a digit that does not belong, or the digit at which the value leaves its range. Signed values fit
64 bit words.
-/

namespace StackTape

/-- Why a text is not an integer. -/
inductive IntFault
  | malformed
  | outOfRange
deriving DecidableEq, Repr

def IntFault.message (text : Bytes) (quoted : Bytes → Bytes) (f : IntFault) : Bytes :=
  ascii "strconv.ParseInt: parsing " ++ quoted text ++
    match f with
    | .malformed => ascii ": invalid syntax"
    | .outOfRange => ascii ": value out of range"

namespace Integer

/-- The value of a digit or letter, letters of either case counting from ten. -/
def digitValue? (b : UInt8) : Option Nat :=
  if isDigit b then some (b.toNat - 0x30)
  else if isLetter b then some ((lower b).toNat - 0x57)
  else none

/-- The value of a run of digits below `2 ^ 64`, in front of which `value` is already read. -/
def digits (base : Nat) : (value : Nat) → Bytes → Except IntFault Nat
  | value, [] => .ok value
  | value, b :: bs =>
    match digitValue? b with
    | none => .error .malformed
    | some d =>
      if base ≤ d then .error .malformed
      else if wordCount ≤ base * value + d then .error .outOfRange
      else digits base (base * value + d) bs

/-- A natural number below `2 ^ 64` in the given base. -/
def readNat (base : Nat) (s : Bytes) : Except IntFault Nat :=
  if s = [] then .error .malformed else digits base 0 s

/-- The base that a leading zero announces, and the digits after the announcement: `0b`, `0o` and
`0x` before at least one more digit, a bare zero for octal. -/
def announced : Bytes → Nat × Bytes
  | 0x30 :: b :: c :: rest =>
    if lower b = 0x62 then (2, c :: rest)
    else if lower b = 0x6F then (8, c :: rest)
    else if lower b = 0x78 then (16, c :: rest)
    else (8, b :: c :: rest)
  | 0x30 :: rest => (8, rest)
  | s => (10, s)

/-- A natural number below `2 ^ 64` in the base that its front announces. -/
def readAnnouncedNat (s : Bytes) : Except IntFault Nat :=
  if s = [] then .error .malformed
  else digits (announced s).1 0 (announced s).2

/-- Reads an optional sign and then a magnitude, which has to fit a signed 64 bit word. -/
def signed (magnitude : Bytes → Except IntFault Nat) (s : Bytes) : Except IntFault Int :=
  match s with
  | 0x2B :: rest => positive rest
  | 0x2D :: rest => do
    let n ← magnitude rest
    if n ≤ wordBound then return -(n : Int) else throw .outOfRange
  | _ => positive s
where
  /-- A magnitude without a minus sign. -/
  positive (s : Bytes) : Except IntFault Int := do
    let n ← magnitude s
    if n < wordBound then return n else throw .outOfRange

/-- A signed 64 bit word in the given base. -/
def readInt (base : Nat) (s : Bytes) : Except IntFault Int := signed (readNat base) s

/-- A signed 64 bit word in the base that its digits announce. -/
def readAnnouncedInt (s : Bytes) : Except IntFault Int := signed readAnnouncedNat s

end Integer

end StackTape
