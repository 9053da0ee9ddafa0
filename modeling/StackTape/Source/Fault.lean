import StackTape.Source.Token
import StackTape.Text.Integer
import StackTape.Text.Quoted

/-!
# Why a text is no program

Every fault names a place. A text that cannot be cut into tokens is reported before anything else;
then comes the first fault of the grammar or of an integer; the contents of string literals are
looked at last.
-/

namespace StackTape.Source

/-- What the grammar asks for at a place. -/
inductive Expected
  | ident
  | int
  | string
  /-- A block in braces. -/
  | block
  /-- What follows the word `if`. -/
  | testAndBody
  /-- What follows the test of a conditional. -/
  | thenBody
  | semicolon
  | closingBrace
deriving DecidableEq, Repr

def Expected.text : Expected → Bytes
  | .ident => ascii "<ident>"
  | .int => ascii "<int>"
  | .string => ascii "<string>"
  | .block => ascii "Block"
  | .testAndBody => ascii "Block \"then\" Block"
  | .thenBody => ascii "\"then\" Block"
  | .semicolon => ascii "\";\""
  | .closingBrace => ascii "\"\x7d\""

/-- A block around a string literal. -/
inductive Enclosure
  | stat
  | test
  | body
deriving DecidableEq, Repr

def Enclosure.text : Enclosure → Bytes
  | .stat => ascii "stat"
  | .test => ascii "if"
  | .body => ascii "then"

inductive Fault
  /-- No token starts here. -/
  | unreadable (u : Unreadable)
  /-- A token (none at the end of the text) that the grammar does not allow here. -/
  | unexpected (pos : Position) (token : Option Bytes) (expected : Option Expected)
  /-- An integer literal without a value; the place is the end of the word before it. -/
  | badInteger (pos : Position) (literal : Bytes) (fault : IntFault)
  /-- A string literal without a value, inside the given blocks, outermost first. -/
  | badString (within : List (Position × Enclosure)) (pos : Position) (literal : Bytes)
deriving DecidableEq, Repr

/-- The text at an unreadable place, quoted and cut to sixteen characters. -/
def excerpt (s : Bytes) : Bytes :=
  if (Utf8.chars s).length ≤ 16 then Quoted.quote (Utf8.encode (Utf8.chars s))
  else Quoted.quote (Utf8.encode ((Utf8.chars s).take 16) ++ ascii "...")

def Fault.message (file : Bytes) : Fault → Bytes
  | .unreadable u =>
    ascii "parse: " ++ u.pos.text file ++ ascii ": lexer: invalid input text " ++ excerpt u.rest
  | .unexpected pos token expected =>
    ascii "parse: " ++ pos.text file ++ ascii ": unexpected token " ++
      Quoted.quote (token.getD (ascii "<EOF>")) ++
      match expected with
      | some x => ascii " (expected " ++ x.text ++ ascii ")"
      | none => []
  | .badInteger pos literal fault =>
    ascii "parse: " ++ pos.text file ++ ascii ": failed to conform: " ++
      fault.message literal Quoted.quote
  | .badString within pos literal =>
    within.flatMap (fun e => e.1.text file ++ ascii ": " ++ e.2.text ++ ascii ": ") ++
      pos.text file ++ ascii ": unquote " ++ literal ++ ascii ": invalid syntax"

end StackTape.Source
