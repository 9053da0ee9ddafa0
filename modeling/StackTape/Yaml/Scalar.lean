import StackTape.Text.Base64
import StackTape.Text.Real
import StackTape.Text.Timestamp

/-!
# What scalars stand for

The text of a scalar without a tag decides its type: null, a truth value, a number, a timestamp or a
text. An explicit tag of one of these types has to agree with the text; any other tag leaves the
text as it is.
-/

namespace StackTape.Yaml

/-- Short forms of the standard tags. -/
inductive Tag
  | null
  | bool
  | int
  | float
  | timestamp
  | str
  | merge
  | binary
  | seq
  | map
  /-- Any other tag, by its text. -/
  | other (text : Bytes)
deriving DecidableEq, Repr

namespace Tag

def text : Tag → Bytes
  | .null => ascii "!!null"
  | .bool => ascii "!!bool"
  | .int => ascii "!!int"
  | .float => ascii "!!float"
  | .timestamp => ascii "!!timestamp"
  | .str => ascii "!!str"
  | .merge => ascii "!!merge"
  | .binary => ascii "!!binary"
  | .seq => ascii "!!seq"
  | .map => ascii "!!map"
  | .other t => t

def standard : List Tag :=
  [.null, .bool, .int, .float, .timestamp, .str, .merge, .binary, .seq, .map]

/-- What the short form of a standard tag abbreviates. -/
def standardText : Bytes := ascii "tag:yaml.org,2002:"

def ofText (s : Bytes) : Tag :=
  let short :=
    if standardText.isPrefixOf s then ascii "!!" ++ s.drop standardText.length else s
  (standard.find? fun t => t.text = short).getD (.other short)

end Tag

/-- The value of a scalar. -/
inductive Value
  | null
  | bool (b : Bool)
  | int (n : Int)
  | float (x : Real)
  | timestamp (t : Timestamp)
  | text (s : Bytes)
deriving DecidableEq, Repr

/-- The tag that a value has by itself. -/
def Value.tag : Value → Tag
  | .null => .null
  | .bool _ => .bool
  | .int _ => .int
  | .float _ => .float
  | .timestamp _ => .timestamp
  | .text _ => .str

def fixedValues : List (Bytes × Value) :=
  [("true", .bool true), ("True", .bool true), ("TRUE", .bool true),
    ("false", .bool false), ("False", .bool false), ("FALSE", .bool false),
    ("", .null), ("~", .null), ("null", .null), ("Null", .null), ("NULL", .null),
    (".nan", .float .nan), (".NaN", .float .nan), (".NAN", .float .nan),
    (".inf", .float (.infinite false)), (".Inf", .float (.infinite false)),
    (".INF", .float (.infinite false)), ("+.inf", .float (.infinite false)),
    ("+.Inf", .float (.infinite false)), ("+.INF", .float (.infinite false)),
    ("-.inf", .float (.infinite true)), ("-.Inf", .float (.infinite true)),
    ("-.INF", .float (.infinite true))].map fun p => (ascii p.1, p.2)

/-- An integer with one of the marks `0b` and `0o`, after which a sign may stand. -/
def markedInt? (base : Nat) (s : Bytes) : Option Int :=
  match Integer.readInt base s with
  | .ok n => some n
  | .error _ => (Integer.readNat base s).toOption.map Int.ofNat

/-- An integer in any of its notations, underscores already removed. -/
def int? (s : Bytes) : Option Int :=
  match Integer.readAnnouncedInt s with
  | .ok n => some n
  | .error _ => (Integer.readAnnouncedNat s).toOption.map Int.ofNat

/-- An integer whose sign stands before or after the mark of its base. -/
def oddInt? : Bytes → Option Int
  | 0x30 :: 0x62 :: s => markedInt? 2 s
  | 0x2D :: 0x30 :: 0x62 :: s => (Integer.readInt 2 (0x2D :: s)).toOption
  | 0x30 :: 0x6F :: s => markedInt? 8 s
  | 0x2D :: 0x30 :: 0x6F :: s => (Integer.readInt 8 (0x2D :: s)).toOption
  | _ => none

/-- A text that starts with a digit or a sign: a timestamp, unless these are excluded, or a number,
in which underscores count for nothing. -/
def numeric? (timestamps : Bool) (s : Bytes) : Option Value :=
  match if timestamps then Timestamp.ofText? s else none with
  | some t => some (.timestamp t)
  | none =>
    let digits := s.filter (· != 0x5F)
    match int? digits with
    | some n => some (.int n)
    | none =>
      match Real.ofText? digits with
      | some (some x) => some (.float x)
      | _ => (oddInt? digits).map .int

/-- Underscores that stand between digits. -/
def dividesDigits : (afterDigit : Bool) → Bytes → Bool
  | _, [] => true
  | afterDigit, b :: rest =>
    if b = 0x5F then afterDigit && (rest.head?.map isDigit).getD false && dividesDigits false rest
    else dividesDigits (isDigit b) rest

/-- A text that starts with a point: a fraction, in which underscores divide digits. -/
def fraction? (s : Bytes) : Option Value :=
  if dividesDigits false s then
    match Real.ofText? (s.filter (· != 0x5F)) with
    | some (some x) => some (.float x)
    | _ => none
  else none

/-- The value of a text that no tag restricts, with or without timestamps. -/
def implicitValue (timestamps : Bool) (s : Bytes) : Value :=
  match fixedValues.lookup s with
  | some v => v
  | none =>
    match s with
    | [] => .null
    | b :: _ =>
      if isDigit b ∨ b = 0x2B ∨ b = 0x2D then (numeric? timestamps s).getD (.text s)
      else if b = 0x2E then (fraction? s).getD (.text s)
      else .text s

inductive BadScalar
  /-- Its text is of another type than its tag. -/
  | mismatch (found : Tag) (text : Bytes) (wanted : Tag)
  | base64
deriving DecidableEq, Repr

def BadScalar.message : BadScalar → Bytes
  | .mismatch found text wanted =>
    ascii "cannot decode " ++ found.text ++ ascii " `" ++ text ++ ascii "` as a " ++ wanted.text
  | .base64 => ascii "!!binary value contains invalid base64 data"

def taggedValue (tag : Tag) (s : Bytes) : Except BadScalar Value :=
  match tag with
  | .str => .ok (.text s)
  | .binary =>
    match Base64.decode? s with
    | some b => .ok (.text b)
    | none => .error .base64
  | .merge | .seq | .map | .other _ => .ok (.text s)
  | .float =>
    match implicitValue false s with
    | .float x => .ok (.float x)
    | .int n =>
      if n < wordBound then .ok (.float (Real.ofInt n)) else .error (.mismatch .int s .float)
    | v => .error (.mismatch v.tag s .float)
  | tag =>
    let v := implicitValue (tag = .timestamp) s
    if v.tag = tag then .ok v else .error (.mismatch v.tag s tag)

/-- The tag of a plain scalar without one: the merge mark has its own. -/
def implicitTag (s : Bytes) : Tag :=
  if s = ascii "<<" then .merge else (implicitValue true s).tag

end StackTape.Yaml
