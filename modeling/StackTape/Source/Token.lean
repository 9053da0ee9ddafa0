import StackTape.Source.Position

/-!
# Tokens

A text is cut into tokens from the left. At each place the rules are tried in order (blanks,
comment, integer, string, identifier, punctuation) and the first that matches takes as much as it
can. A place where none matches ends the reading.
-/

namespace StackTape.Source

/-- The rule that made a token. -/
inductive Kind
  /-- A run of tabs, newlines, form feeds, carriage returns and spaces. -/
  | blank
  /-- From a hash sign to the end of the line. -/
  | comment
  /-- A run of decimal digits. -/
  | int
  /-- A quoted text, the quotes included. -/
  | string
  /-- Letters, digits and underscores, no digit first. -/
  | ident
  /-- A brace or a semicolon. -/
  | punct
deriving DecidableEq, Repr

/-- A piece of the text with the places where it starts and where it ends. -/
structure Token where
  kind : Kind
  text : Bytes
  start : Position
  stop : Position
deriving DecidableEq, Repr

/-! ## Lexemes -/

def isBlank (b : UInt8) : Bool := b == 0x09 || b == 0x0A || b == 0x0C || b == 0x0D || b == 0x20

def isNameStart (b : UInt8) : Bool := isLetter b || b == 0x5F

def isNamePart (b : UInt8) : Bool := isNameStart b || isDigit b

/-- A brace or a semicolon. -/
def isPunct (b : UInt8) : Bool := b == 0x7B || b == 0x7D || b == 0x3B

/-- The length of the longest front of bytes of one class. -/
def runLength (p : UInt8 → Bool) (s : Bytes) : Nat := (s.takeWhile p).length

/-- The length of a quoted text after its opening quote, the closing quote included. A backslash
takes the next byte with it, which must not be a newline; a raw newline is fine. -/
def stringLength? : Bytes → Option Nat
  | [] => none
  | b :: bs =>
    if b = 0x22 then some 1
    else if b = 0x5C then
      match bs with
      | [] => none
      | c :: cs => if c = 0x0A then none else (stringLength? cs).map (· + 2)
    else (stringLength? bs).map (· + 1)

/-- The kind of the token that starts with `b`, and how many of the bytes after `b` it has. -/
def lexeme? (b : UInt8) (rest : Bytes) : Option (Kind × Nat) :=
  if isBlank b then some (.blank, runLength isBlank rest)
  else if b = 0x23 then some (.comment, runLength (· != 0x0A) rest)
  else if isDigit b then some (.int, runLength isDigit rest)
  else if b = 0x22 then (stringLength? rest).map fun n => (.string, n)
  else if isNameStart b then some (.ident, runLength isNamePart rest)
  else if isPunct b then some (.punct, 0)
  else none

/-! ## Reading all tokens -/

/-- Where no rule matches: the place and the text from there on. -/
structure Unreadable where
  pos : Position
  rest : Bytes
deriving DecidableEq, Repr

/-- The tokens of a text of which the first `owed` bytes are already read and whose rest starts at
`pos`. -/
def tokensFrom : (owed : Nat) → (pos : Position) → Bytes → Except Unreadable (List Token)
  | _, _, [] => .ok []
  | owed + 1, pos, _ :: bs => tokensFrom owed pos bs
  | 0, pos, b :: bs =>
    match lexeme? b bs with
    | none => .error ⟨pos, b :: bs⟩
    | some (kind, n) =>
      let text := b :: bs.take n
      let stop := pos.advance text
      (⟨kind, text, pos, stop⟩ :: ·) <$> tokensFrom n stop bs

/-- All tokens of a text, blanks and comments included. -/
def tokens (text : Bytes) : Except Unreadable (List Token) := tokensFrom 0 {} text

namespace Token

/-- The token counts for the grammar. -/
def isSignificant (t : Token) : Bool := t.kind ≠ .blank ∧ t.kind ≠ .comment

def isWord (t : Token) (s : Bytes) : Bool := t.kind = .ident ∧ t.text = s

def isMark (t : Token) (b : UInt8) : Bool := t.kind = .punct ∧ t.text = [b]

end Token

end StackTape.Source
