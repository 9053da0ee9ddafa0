import StackTape.Text.Bytes

/-!
# Base 64

Groups of four characters stand for three bytes; the last group may be filled up with equals signs.
Line breaks are passed over.
-/

namespace StackTape.Base64

def value? (b : UInt8) : Option Nat :=
  if 0x41 ≤ b ∧ b ≤ 0x5A then some (b.toNat - 0x41)
  else if 0x61 ≤ b ∧ b ≤ 0x7A then some (b.toNat - 0x61 + 26)
  else if isDigit b then some (b.toNat - 0x30 + 52)
  else if b = 0x2B then some 62
  else if b = 0x2F then some 63
  else none

def groups? : Bytes → Option Bytes
  | [] => some []
  | [a, b, 0x3D, 0x3D] => do
    return [UInt8.ofNat ((← value? a) * 4 + (← value? b) / 16)]
  | [a, b, c, 0x3D] => do
    let n := ((← value? a) * 64 + (← value? b)) * 64 + (← value? c)
    return [UInt8.ofNat (n / 1024), UInt8.ofNat (n / 4)]
  | a :: b :: c :: d :: rest => do
    let n := (((← value? a) * 64 + (← value? b)) * 64 + (← value? c)) * 64 + (← value? d)
    return [UInt8.ofNat (n / 65536), UInt8.ofNat (n / 256), UInt8.ofNat n] ++ (← groups? rest)
  | _ => none

def decode? (s : Bytes) : Option Bytes := groups? (s.filter fun b => b != 0x0A && b != 0x0D)

end StackTape.Base64
