import StackTape.Text.Integer

/-!
# Decimal fractions

A decimal fraction stands for the nearest number with a significand of 53 bits, ties going to the
even one. Such a number is written with the fewest digits that stand for it.
-/

namespace StackTape

/-- A number with a significand of 53 bits. -/
inductive Real
  | nan
  | infinite (negative : Bool)
  /-- The number `significand · 2 ^ exponent` or its opposite. The significand has 53 bits unless
  the exponent is -1074, the least one; the exponent of zero is zero. -/
  | finite (negative : Bool) (significand : Nat) (exponent : Int)
deriving DecidableEq, Repr

namespace Real

/-- The part before the decimal point. -/
def whole? : Real → Option Int
  | .finite negative m e =>
    let n := (m <<< e.toNat) >>> (-e).toNat
    some (if negative then -(n : Int) else n)
  | _ => none

/-- Two numbers are equal: not-a-number differs from itself, and zero has no sign. -/
def same : Real → Real → Bool
  | .infinite a, .infinite b => a = b
  | .finite a m e, .finite b n f => m = n && e = f && (a = b || m = 0)
  | _, _ => false

/-! ## Rounding -/

/-- The quotient of two natural numbers, rounded to the nearest one, ties to even. -/
def roundDiv (a b : Nat) : Nat :=
  let q := a / b
  let r := a % b
  if b < 2 * r then q + 1
  else if 2 * r = b then q + q % 2
  else q

/-- Significand and exponent of the number nearest to `a / b`; none if it is too large. -/
def nearest? (a b : Nat) : Option (Nat × Int) :=
  if a = 0 then some (0, 0)
  else
    -- `a / b` lies between `2 ^ (s - 1)` and `2 ^ (s + 1)`
    let s : Int := (a.log2 : Int) - b.log2
    let e₀ : Int := s - 52
    let scaled (e : Int) : Nat × Nat := (a <<< (-e).toNat, b <<< e.toNat)
    -- the exponent for which the significand has 53 bits
    let e₁ := if (scaled e₀).1 < (scaled e₀).2 <<< 52 then e₀ - 1 else e₀
    let e := max e₁ (-1074)
    let m := roundDiv (scaled e).1 (scaled e).2
    let (m, e) := if m = 1 <<< 53 then (1 <<< 52, e + 1) else (m, e)
    if m = 0 then some (0, 0) else if 971 < e then none else some (m, e)

def ofInt (n : Int) : Real :=
  match nearest? n.natAbs 1 with
  | some (m, e) => .finite (n < 0) m e
  | none => .infinite (n < 0)

/-! ## Reading -/

def digitsValue (s : Bytes) : Nat := s.foldl (fun n b => n * 10 + (b.toNat - 0x30)) 0

/-- The number nearest to `digits · 10 ^ exponent`; none if it is too large. -/
def ofDecimal? (negative : Bool) (digits : Bytes) (exponent : Int) : Option Real :=
  let n := digitsValue digits
  let size : Int := (decimal n).length + exponent
  if n = 0 ∨ size < -400 then some (.finite negative 0 0)
  else if 400 < size then none
  else
    (nearest? (n * Nat.pow 10 exponent.toNat) (Nat.pow 10 (-exponent).toNat)).map fun (m, e) =>
      .finite negative m e

/-- The exponent of a decimal fraction: nothing, or a letter, a sign and digits. -/
def exponent? : Bytes → Option Int
  | [] => some 0
  | e :: rest =>
    if lower e = 0x65 then
      let (negative, ds) := match rest with
        | 0x2D :: ds => (true, ds)
        | 0x2B :: ds => (false, ds)
        | ds => (false, ds)
      if ds = [] ∨ !ds.all isDigit then none
      else some (if negative then -(digitsValue ds : Int) else digitsValue ds)
    else none

/-- A decimal fraction without a sign: digits, a point and digits, of which there has to be one,
then perhaps an exponent. -/
def unsigned? (negative : Bool) (s : Bytes) : Option (Option Real) :=
  let whole := s.takeWhile isDigit
  let rest := s.dropWhile isDigit
  let (fraction, rest) := match rest with
    | 0x2E :: t => (t.takeWhile isDigit, t.dropWhile isDigit)
    | t => ([], t)
  if whole = [] ∧ fraction = [] then none
  else
    match exponent? rest with
    | none => none
    | some e => some (ofDecimal? negative (whole ++ fraction) (e - fraction.length))

/-- The number that a decimal fraction stands for. The outer option is none if the text is no
decimal fraction, the inner one if the number is too large. -/
def ofText? : Bytes → Option (Option Real)
  | 0x2D :: s => unsigned? true s
  | 0x2B :: s => unsigned? false s
  | s => unsigned? false s

/-! ## Writing -/

/-- How many digits the number `a / b` has before the point; if there are none, minus the number of
zeros after it. -/
def magnitude (a b : Nat) : Int :=
  if b ≤ a then (decimal (a / b)).length else 1 - ((decimal (b / a)).length : Int)

/-- The nearer one of two digit strings around `m · 2 ^ e` that still stand for it, if there is one.
Their last digit is worth `10 ^ k`. -/
def around? (m : Nat) (e k : Int) : Option Nat :=
  let unit := (1 <<< e.toNat) * Nat.pow 10 (-k).toNat
  let digit := (1 <<< (-e).toNat) * Nat.pow 10 k.toNat
  let q := m * unit / digit
  -- four times the ends of the interval that rounds to the number
  let low := (4 * m - if m = 1 <<< 52 ∧ -1074 < e then 1 else 2) * unit
  let high := (4 * m + 2) * unit
  let stands (c : Nat) : Bool :=
    if m % 2 = 0 then low ≤ 4 * c * digit && 4 * c * digit ≤ high
    else low < 4 * c * digit && 4 * c * digit < high
  match stands q, stands (q + 1) with
  | true, true => some (if 2 * (m * unit - q * digit) ≤ digit then q else q + 1)
  | true, false => some q
  | false, true => some (q + 1)
  | false, false => none

/-- The fewest digits that stand for `m · 2 ^ e`, and the place of the point from their start. -/
def shortest (m : Nat) (e : Int) : Bytes × Int :=
  let top := magnitude (m <<< e.toNat) (1 <<< (-e).toNat)
  let found := (List.range 17).findSome? fun (n : Nat) =>
    let k : Int := top - (n + 1 : Nat)
    (around? m e k).map fun c => (c, k)
  match found with
  | some (c, k) =>
    let digits := decimal c
    ((digits.reverse.dropWhile (· = 0x30)).reverse, digits.length + k)
  | none => ([], 0)

/-- A number with the fewest digits. From a million on and below a ten-thousandth it is written with
an exponent of at least two digits. -/
def text : Real → Bytes
  | .nan => ascii "NaN"
  | .infinite negative => ascii (if negative then "-Inf" else "+Inf")
  | .finite negative m e =>
    let (digits, point) := shortest m e
    let size := digits.length
    let unsigned :=
      if m = 0 then ascii "0"
      else if point < -3 ∨ 6 < point then
        let x := (point - 1).natAbs
        digits.take 1 ++ (if size = 1 then [] else 0x2E :: digits.drop 1) ++
          ascii (if point < 1 then "e-" else "e+") ++ (if x < 10 then [0x30] else []) ++ decimal x
      else if point ≤ 0 then ascii "0." ++ List.replicate point.natAbs 0x30 ++ digits
      else
        let p := point.toNat
        digits.take p ++ List.replicate (p - size) 0x30 ++
          (if p < size then 0x2E :: digits.drop p else [])
    (if negative then [0x2D] else []) ++ unsigned

end Real

end StackTape
