import StackTape.Text.Utf8

/-!
# Positions in a text

Lines are counted by newlines, columns by glyphs, both from one.
-/

namespace StackTape.Source

structure Position where
  line : Nat := 1
  column : Nat := 1
deriving DecidableEq, Repr

namespace Position

/-- The place after one glyph. -/
def next (p : Position) (g : Glyph) : Position :=
  if g = .char '\n' then { line := p.line + 1, column := 1 } else { p with column := p.column + 1 }

/-- The place after a text. -/
def advance (p : Position) (text : Bytes) : Position := (Utf8.decode text).foldl next p

/-- The place in a named file; a nameless text shows only line and column. -/
def text (file : Bytes) (p : Position) : Bytes :=
  (if file = [] then [] else file ++ ascii ":") ++ decimal p.line ++ ascii ":" ++ decimal p.column

end Position

end StackTape.Source
