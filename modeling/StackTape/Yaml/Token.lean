import StackTape.Yaml.Stream

/-!
# Tokens of a document

Besides the marks and scalars that are written there are tokens for the structure that indentation
and line ends express: where block collections start and end, and where a key starts that has no
mark of its own.
-/

namespace StackTape.Yaml

inductive Style
  | plain
  | singleQuoted
  | doubleQuoted
  | literal
  | folded
deriving DecidableEq, Repr

inductive TokenKind
  | streamStart
  | streamEnd
  | versionDirective (major minor : Nat)
  /-- A tag handle and the text it abbreviates. -/
  | tagDirective (handle text : Bytes)
  | documentStart
  | documentEnd
  | blockSequenceStart
  | blockMappingStart
  | blockEnd
  | flowSequenceStart
  | flowSequenceEnd
  | flowMappingStart
  | flowMappingEnd
  | blockEntry
  | flowEntry
  | key
  | value
  | alias (name : Bytes)
  | anchor (name : Bytes)
  | tag (handle suffix : Bytes)
  | scalar (text : Bytes) (style : Style)
deriving DecidableEq, Repr

/-- A token with the place where it starts and the place after it. -/
structure Token where
  kind : TokenKind
  start : Mark
  stop : Mark
deriving DecidableEq, Repr

/-- A place where a key without a mark of its own may have started. -/
structure PendingKey where
  /-- Whether the next colon can still make it a key. -/
  possible : Bool := false
  /-- Whether the document is wrong if it turns out not to be a key. -/
  required : Bool := false
  /-- The number of its token, counted from the start of the document. -/
  number : Nat := 0
  mark : Mark := {}
deriving DecidableEq, Repr

/-- What a comment belongs to. -/
inductive CommentKind
  /-- The token before it on its line. -/
  | line
  /-- The token after it. -/
  | head
  /-- The block that it ends. -/
  | foot
deriving DecidableEq, Repr

/-- A comment, or several on lines of their own that belong together. -/
structure Comment where
  kind : CommentKind
  /-- Where the token starts from which on it can be given to a token. -/
  owner : Nat
  /-- Where the search that found it began. -/
  searched : Nat := 0
  /-- Where it starts; its column is counted from one. -/
  start : Mark
  /-- Where the search was when it was complete. -/
  stop : Nat := 0
deriving DecidableEq, Repr

/-- The reading of a document up to some place. -/
structure Cursor where
  /-- The characters not read yet. -/
  rest : List Char
  /-- The number of characters of the document. -/
  size : Nat := rest.length
  /-- The pieces not decoded yet. -/
  pieces : List Nat
  /-- Where the document cannot be decoded any more. -/
  bad? : Option (Nat × Undecodable)
  /-- How many characters from here on are decoded. The end of the document counts as a character
  each time it is met. -/
  ahead : Nat := 0
  /-- Whether the last time that more was decoded a byte order mark stood in front. -/
  markInFront : Bool := false
  /-- A bad place that was met while looking for a comment. -/
  met? : Option Undecodable := none
  mark : Mark := {}
  /-- Line breaks since the last character that is neither break nor blank. -/
  breaks : Nat := 0
  started : Bool := false
  /-- The tokens that are read and not yet taken. -/
  queue : List Token := []
  /-- Whether the queue is known to hold enough to take its first token. -/
  ready : Bool := false
  /-- How many tokens were taken. -/
  taken : Nat := 0
  /-- The indentation of the innermost block collection, -1 outside of all. -/
  indent : Int := -1
  /-- The indentations of the collections around it, the innermost first. -/
  outer : List Int := []
  /-- Whether a key may start here. -/
  keyAllowed : Bool := false
  /-- The pending keys of the flow levels; the first one is for block level. -/
  keys : Array PendingKey := #[]
  /-- The flow level of the pending key that starts with the token of a number. -/
  keyLevels : List (Nat × Nat) := []
  /-- The comments found so far. -/
  comments : Array Comment := #[]
  /-- How many of them are given to tokens. -/
  given : Nat := 0

/-- Reading that may find a problem. -/
abbrev Read := StateT Cursor (Except Problem)

/-- The character that may stand at the start of a text to show its encoding. -/
def byteOrderMark : Char := Char.ofNat 0xFEFF

namespace Read

/-- Decodes pieces until `n` characters are there or no piece is left. -/
def fill (n : Nat) : (ahead : Nat) → (pieces : List Nat) → Nat × List Nat
  | ahead, [] => (ahead, [])
  | ahead, p :: ps => if n ≤ ahead then (ahead, p :: ps) else fill n (ahead + p) ps

/-- Makes sure that the next `n` characters are decoded; gives the bad place that prevents it. -/
def decode (n : Nat) : Read (Option Undecodable) := do
  let c ← get
  if n ≤ c.ahead then
    return none
  let (ahead, pieces) := fill n c.ahead c.pieces
  let c := { c with pieces, markInFront := c.rest.head? = some byteOrderMark }
  if n ≤ ahead then
    set { c with ahead }
    return none
  match c.bad? with
  | some (k, u) =>
    set { c with ahead := ahead + k, bad? := some (0, u) }
    return some u
  | none =>
    set { c with ahead := ahead + 1 }
    return none

/-- Refuses the document unless the next `n` characters can be decoded. -/
def need (n : Nat) : Read Unit := do
  match ← decode n with
  | some u => throw (.undecodable u)
  | none => return

/-- Whether the next `n` characters can be decoded. That they cannot is remembered. -/
def canNeed (n : Nat) : Read Bool := do
  match ← decode n with
  | some u =>
    modify fun c => { c with met? := some u }
    return false
  | none => return true

/-- Refuses the document if a bad place was met. -/
def settle : Read Unit := do
  match (← get).met? with
  | some u => throw (.undecodable u)
  | none => return

/-- The character `k` places ahead; past the end it is NUL, which no document holds. -/
def peekAt (k : Nat) : Read Char := do
  return (← get).rest.getD k '\x00'

def peek : Read Char := peekAt 0

def here : Read Mark := do
  return (← get).mark

/-- The level of nesting inside flow collections. -/
def flowLevel : Read Nat := do
  return (← get).keys.size - 1

/-- Refuses the token that started at `context`. -/
def refuse {α : Type} (b : BadToken) (context : Mark) : Read α := do
  throw (.badToken b context (← here))

end Read

/-! ## Classes of characters -/

/-- A space or a tab. -/
def isBlank (c : Char) : Bool := c == ' ' || c == '\t'

def isBreak (c : Char) : Bool :=
  c == '\r' || c == '\n' || c.toNat == 0x85 || c.toNat == 0x2028 || c.toNat == 0x2029

def isEnd (c : Char) : Bool := c == '\x00'

/-- A line break of several bytes. -/
def isWideBreak (c : Char) : Bool := isBreak c && 0x80 ≤ c.toNat

def isBreakOrEnd (c : Char) : Bool := isBreak c || isEnd c

def isBlankOrEnd (c : Char) : Bool := isBlank c || isBreakOrEnd c

/-- A character of names: letters, digits, underscore and hyphen. -/
def isNameChar (c : Char) : Bool :=
  ('0' ≤ c && c ≤ '9') || ('A' ≤ c && c ≤ 'Z') || ('a' ≤ c && c ≤ 'z') || c == '_' || c == '-'

def isDecimal (c : Char) : Bool := '0' ≤ c && c ≤ '9'

def hexOf? (c : Char) : Option Nat :=
  if c.toNat < 0x80 then hexValue? (UInt8.ofNat c.toNat) else none

namespace Read

/-! ## Moving on -/

/-- Steps over one character that is no line break. -/
def skip : Read Unit := do
  let c ← get
  let breaks := if isBlank (c.rest.headD '\x00') then c.breaks else 0
  let mark := { c.mark with index := c.mark.index + 1, column := c.mark.column + 1 }
  set { c with rest := c.rest.tail, ahead := c.ahead - 1, mark, breaks }

def skipMany : Nat → Read Unit
  | 0 => return
  | n + 1 => do
    skip
    skipMany n

/-- Steps over a line break, if there is one, and gives what it stands for in a scalar. -/
def takeBreak : Read (Option Char) := do
  let c ← get
  let jump (n : Nat) (b : Char) : Read (Option Char) := do
    set { c with
      rest := c.rest.drop n
      ahead := c.ahead - n
      mark := { index := c.mark.index + n, line := c.mark.line + 1, column := 0 }
      breaks := c.breaks + 1 }
    return some b
  match c.rest with
  | '\r' :: '\n' :: _ => jump 2 '\n'
  | b :: _ =>
    if b.toNat == 0x2028 || b.toNat == 0x2029 then jump 1 b
    else if isBreak b then jump 1 '\n'
    else return none
  | [] => return none

/-- Steps over a line break, if there is one. -/
def skipBreak : Read Unit := do
  let _ ← takeBreak
  return

/-- No loop over the characters takes more steps. -/
def steps : Read Nat := do
  return (← get).size + 1

/-- Takes the characters of a class, at most `fuel`. -/
def takeWhileFrom (p : Char → Bool) : (fuel : Nat) → Array Char → Read (Array Char)
  | 0, acc => return acc
  | fuel + 1, acc => do
    need 1
    let c ← peek
    if p c then
      skip
      takeWhileFrom p fuel (acc.push c)
    else return acc

/-- Takes the characters of a class, to which the end must not belong. -/
def takeWhile (p : Char → Bool) : Read (List Char) := do
  return (← takeWhileFrom p (← steps) #[]).toList

def skipWhile (p : Char → Bool) : Read Unit := do
  let _ ← takeWhile p
  return

end Read

end StackTape.Yaml
