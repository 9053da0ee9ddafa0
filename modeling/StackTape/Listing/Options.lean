import StackTape.Tape.Fragment
import StackTape.Text.Utf8
import StackTape.Text.Word

/-!
# Listings

Generated code can be laid out as a listing: every fragment on its own line, after a comment with
the label of its instruction and before the stack depth it leaves. The comments never hold a symbol
of the tape machine, so a listing runs like the bare code.
-/

namespace StackTape

/-- How generated code is laid out. -/
structure Options where
  /-- Whether there are comments at all; without them the code is bare. -/
  comments : Bool
  /-- Spaces before a label for every enclosing block. -/
  indent : Int
  /-- Width to which indented labels are padded. -/
  labelWidth : Int
deriving DecidableEq, Repr

namespace Options

/-- A listing with an indent of four and labels padded to sixteen. -/
def standard : Options := { comments := true, indent := 4, labelWidth := 16 }

/-- Bare code. -/
def plain : Options := { comments := false, indent := 0, labelWidth := 0 }

end Options

namespace Listing

/-- A character fit for a comment: a symbol of the tape machine becomes an underscore, a line break
a space. -/
def sanitizeChar (c : Char) : Char :=
  if c.toNat < 0x80 ∧ isPrimitive (UInt8.ofNat c.toNat) then '_'
  else if c = '\n' ∨ c = '\r' then ' '
  else c

/-- The text made fit for a comment; stray bytes become replacement characters. -/
def sanitize (s : Bytes) : Bytes := Utf8.encode ((Utf8.chars s).map sanitizeChar)

def spaces (n : Int) : Except RepeatFault Bytes :=
  if n < 0 then .error .negativeCount else repeated n [0x20]

/-- The comment with a label at a nesting level. Indent and padding are words that wrap around; the
label is never cut. -/
def comment (o : Options) (level : Int) (label : Bytes) : Except RepeatFault Bytes := do
  let indent := wrap64 (level * o.indent)
  let label := sanitize label
  let padding := max 0 (wrap64 (o.labelWidth - indent - label.length))
  let before ← spaces indent
  let after ← spaces padding
  return ascii "/* " ++ before ++ label ++ after ++ ascii " */"

/-- A code fragment with its label, the nesting level and the stack depth after it. -/
def line (o : Options) (level : Int) (label code : Bytes) (depth : Int) :
    Except RepeatFault Bytes :=
  if o.comments then do
    let c ← comment o level label
    return c ++ ascii " " ++ code ++ ascii " #" ++ decimalInt depth ++ ascii "\n"
  else
    return code

/-- A label without code. -/
def mark (o : Options) (level : Int) (label : Bytes) : Except RepeatFault Bytes :=
  if o.comments then do
    let c ← comment o level label
    return c ++ ascii " "
  else
    return []

def lineBreak (o : Options) : Bytes := if o.comments then [0x0A] else []

end Listing

end StackTape
