import StackTape.Text.Bytes

/-!
# Timestamps

A date, or a date and a time of day: `2001-1-2`, `2001-1-2 3:04:05.6`, `2001-1-2T3:04:05Z`. Months,
days, hours, minutes and seconds have one or two digits, the year has four. Between date and time
stands a `T` of either case, and then a time zone is needed, or any number of spaces, and then none
is allowed.
-/

namespace StackTape

structure Timestamp where
  year : Nat
  month : Nat
  day : Nat
  hour : Nat := 0
  minute : Nat := 0
  second : Nat := 0
  nanosecond : Nat := 0
  /-- The distance from universal time in minutes; none if it is given by `Z` or not at all. -/
  zone? : Option Int := none
deriving DecidableEq, Repr

namespace Timestamp

/-- A number of one or two digits at the front, and the rest. -/
def number? : Bytes → Option (Nat × Bytes)
  | a :: b :: rest =>
    if !isDigit a then none
    else if isDigit b then some ((a.toNat - 0x30) * 10 + (b.toNat - 0x30), rest)
    else some (a.toNat - 0x30, b :: rest)
  | [a] => if isDigit a then some (a.toNat - 0x30, []) else none
  | [] => none

def byte? (b : UInt8) : Bytes → Option Bytes
  | c :: rest => if c = b then some rest else none
  | [] => none

def isLeap (year : Nat) : Bool := year % 4 = 0 && (year % 100 != 0 || year % 400 = 0)

def daysIn (year month : Nat) : Nat :=
  if month = 2 then (if isLeap year then 29 else 28)
  else if month = 4 ∨ month = 6 ∨ month = 9 ∨ month = 11 then 30
  else 31

def date? : Bytes → Option (Timestamp × Bytes)
  | a :: b :: c :: d :: rest => do
    guard ([a, b, c, d].all isDigit)
    let year := [a, b, c, d].foldl (fun n x => n * 10 + (x.toNat - 0x30)) 0
    let (month, rest) ← number? (← byte? 0x2D rest)
    guard (1 ≤ month ∧ month ≤ 12)
    let (day, rest) ← number? (← byte? 0x2D rest)
    guard (1 ≤ day ∧ day ≤ daysIn year month)
    return ({ year, month, day }, rest)
  | _ => none

/-- A fraction of a second at the front, if there is one, in nanoseconds; further digits are
dropped. -/
def fraction : Bytes → Nat × Bytes
  | p :: d :: rest =>
    if (p = 0x2E ∨ p = 0x2C) ∧ isDigit d then
      let digits := d :: rest.takeWhile isDigit
      let nine := (digits ++ List.replicate 9 0x30).take 9
      (nine.foldl (fun n x => n * 10 + (x.toNat - 0x30)) 0, rest.dropWhile isDigit)
    else (0, p :: d :: rest)
  | s => (0, s)

/-- A time of day at the front, on the given date, and the rest. -/
def time? (t : Timestamp) (s : Bytes) : Option (Timestamp × Bytes) := do
  let (hour, rest) ← number? s
  guard (hour < 24)
  let (minute, rest) ← number? (← byte? 0x3A rest)
  guard (minute < 60)
  let (second, rest) ← number? (← byte? 0x3A rest)
  guard (second < 60)
  let (nanosecond, rest) := fraction rest
  return ({ t with hour, minute, second, nanosecond }, rest)

/-- A time zone that is the whole text: `Z`, or a sign, two digits for hours and two for minutes. -/
def withZone? (t : Timestamp) : Bytes → Option Timestamp
  | [0x5A] => some t
  | [sign, a, b, colon, c, d] => do
    guard ((sign = 0x2B ∨ sign = 0x2D) ∧ colon = 0x3A ∧ [a, b, c, d].all isDigit)
    let two (x y : UInt8) : Nat := (x.toNat - 0x30) * 10 + (y.toNat - 0x30)
    let minutes : Int := two a b * 60 + two c d
    return { t with zone? := some (if sign = 0x2D then -minutes else minutes) }
  | _ => none

def ofText? (s : Bytes) : Option Timestamp :=
  match date? s with
  | none => none
  | some (t, []) => some t
  | some (t, b :: rest) =>
    if b = 0x54 ∨ b = 0x74 then
      (time? t rest).bind fun (t, rest) => t.withZone? rest
    else if b = 0x20 then
      (time? t (rest.dropWhile (· = 0x20))).bind fun (t, rest) => if rest = [] then some t else none
    else none

/-- The zone is one of those that are told apart by their distance alone: universal time, and whole
hours from twelve west to fourteen east. -/
def isCommonZone : Option Int → Bool
  | none => true
  | some m => m % 60 = 0 && -720 ≤ m && m ≤ 840

/-- Two timestamps are equal: they are so written, in a common zone. -/
def same (s t : Timestamp) : Bool := s = t && isCommonZone s.zone?

def monthNames : List String :=
  ["January", "February", "March", "April", "May", "June", "July", "August", "September",
    "October", "November", "December"]

def text (t : Timestamp) : Bytes :=
  let numbers := [t.day, t.hour, t.minute, t.second, t.nanosecond]
  ascii "time.Date(" ++ decimal t.year ++ ascii ", time." ++
    ascii (monthNames.getD (t.month - 1) "") ++ ascii ", " ++
    joinWith (ascii ", ") (numbers.map decimal) ++
    ascii (match t.zone? with
      | none => ", time.UTC)"
      | some 0 => ", time.Local)"
      | some _ => ", time.Location(\"\"))")

end Timestamp

end StackTape
