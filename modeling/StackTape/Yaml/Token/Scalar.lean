import StackTape.Text.Utf8
import StackTape.Yaml.Token.Blank

/-!
# Scalars

Plain and quoted scalars may go on over several lines: a single line break reads as a space, of
several the first is dropped. Block scalars keep or fold their lines by their own rules.
-/

namespace StackTape.Yaml.Read

/-! ## Folding -/

/-- What lies between two words of a scalar: blanks on one line, or line breaks. -/
structure Gap where
  /-- Blanks before the first line break. -/
  blanks : Array Char := #[]
  /-- Whether a new line was begun. -/
  broken : Bool := false
  /-- The first line break. -/
  first : Option Char := none
  /-- The line breaks after the first. -/
  more : Array Char := #[]

/-- What a gap reads as. -/
def Gap.text (g : Gap) : Array Char :=
  if g.broken then
    if g.first = some '\n' then
      if g.more.isEmpty then #[' '] else g.more
    else g.first.toArray ++ g.more
  else g.blanks

/-- Steps over blanks and line breaks. In a plain scalar a tab left of `indent` is refused on a
later line. -/
def gapFrom (plain? : Option (Mark × Int)) : (fuel : Nat) → Gap → Read Gap
  | 0, g => return g
  | fuel + 1, g => do
    need 1
    let c ← peek
    if isBlank c then
      match plain? with
      | some (start, indent) =>
        if g.broken ∧ (← here).column < indent ∧ c = '\t' then
          refuse .tabInPlain start
      | none => pure ()
      skip
      gapFrom plain? fuel (if g.broken then g else { g with blanks := g.blanks.push c })
    else if isBreak c then
      need 2
      let b ← takeBreak
      gapFrom plain? fuel
        (if g.broken then { g with more := g.more ++ b.toArray }
        else { g with blanks := #[], broken := true, first := b })
    else return g

/-- A line with three of one mark and a blank after them divides documents. -/
def atDocumentMark : Read Bool := do
  let three (m : Char) : Read Bool := do
    return (← peekAt 0) == m && (← peekAt 1) == m && (← peekAt 2) == m
  return (← here).column = 0 && ((← three '-') || (← three '.')) && isBlankOrEnd (← peekAt 3)

/-! ## Plain scalars -/

def endsPlain (inFlow : Bool) (c next : Char) : Bool :=
  (c == ':' && isBlankOrEnd next) || (inFlow && ",?[]\x7b\x7d".toList.contains c)

/-- A run of non-blank characters of a plain scalar, with the place after it. -/
def plainWord (inFlow : Bool) : (fuel : Nat) → Array Char → Read (Array Char)
  | 0, acc => return acc
  | fuel + 1, acc => do
    let c ← peek
    if isBlankOrEnd c || endsPlain inFlow c (← peekAt 1) then return acc
    else
      skip
      need 2
      plainWord inFlow fuel (acc.push c)

/-- The words of a plain scalar; `gap` stands before the next one and `stop` after the last. -/
def plainFrom (start : Mark) (inFlow : Bool) (indent : Int) :
    (fuel : Nat) → (acc : Array Char) → Gap → (stop : Mark) → Read (Array Char × Gap × Mark)
  | 0, acc, gap, stop => return (acc, gap, stop)
  | fuel + 1, acc, gap, stop => do
    need 4
    if ← atDocumentMark then
      return (acc, gap, stop)
    if (← peek) == '#' then
      return (acc, gap, stop)
    let word ← plainWord inFlow (← steps) #[]
    let (acc, gap, stop) ←
      if word.isEmpty then pure (acc, gap, stop)
      else pure (acc ++ gap.text ++ word, ({} : Gap), ← here)
    let c ← peek
    if !(isBlank c || isBreak c) then
      return (acc, gap, stop)
    let gap ← gapFrom (some (start, indent)) (← steps) gap
    if !inFlow ∧ (← here).column < indent then
      return (acc, gap, stop)
    plainFrom start inFlow indent fuel acc gap stop

/-- A plain scalar. After one that ends with a line break a key may start. -/
def plainScalar : Read Token := do
  let start ← here
  let inFlow := 0 < (← flowLevel)
  let indent := (← get).indent + 1
  let (text, gap, stop) ← plainFrom start inFlow indent (← steps) #[] {} start
  if gap.broken then
    modify fun c => { c with keyAllowed := true }
  return ⟨.scalar (Utf8.encode text.toList) .plain, start, stop⟩

/-! ## Quoted scalars -/

/-- The character of an escape without a number. -/
def escapeChar? : Char → Option Char
  | '0' => some '\x00'
  | 'a' => some '\x07'
  | 'b' => some '\x08'
  | 't' => some '\t'
  | '\t' => some '\t'
  | 'n' => some '\n'
  | 'v' => some '\x0b'
  | 'f' => some '\x0c'
  | 'r' => some '\r'
  | 'e' => some '\x1b'
  | ' ' => some ' '
  | '"' => some '"'
  | '\'' => some '\''
  | '\\' => some '\\'
  | 'N' => some (Char.ofNat 0x85)
  | '_' => some (Char.ofNat 0xA0)
  | 'L' => some (Char.ofNat 0x2028)
  | 'P' => some (Char.ofNat 0x2029)
  | _ => none

/-- The number of digits of an escape by number. -/
def escapeDigits? : Char → Option Nat
  | 'x' => some 2
  | 'u' => some 4
  | 'U' => some 8
  | _ => none

/-- The number that the next `n` hexadecimal digits spell. -/
def escapeNumber (start : Mark) (value : Nat) : (n : Nat) → (k : Nat) → Read Nat
  | 0, _ => return value
  | n + 1, k => do
    match hexOf? (← peekAt k) with
    | some d => escapeNumber start (value * 16 + d) n (k + 1)
    | none => refuse .noHexNumber start

/-- An escape that is no line break. -/
def escape (start : Mark) : Read Char := do
  let c ← peekAt 1
  match escapeChar? c, escapeDigits? c with
  | some e, _ =>
    skipMany 2
    return e
  | none, some n =>
    skipMany 2
    need n
    let value ← escapeNumber start 0 n 0
    if (0xD800 ≤ value ∧ value ≤ 0xDFFF) ∨ 0x10FFFF < value then
      refuse .badEscapeCode start
    skipMany n
    return Char.ofNat value
  | none, none => refuse .unknownEscape start

/-- A run of non-blank characters of a quoted scalar, and whether an escaped line break ended it. -/
def quotedWord (start : Mark) (single : Bool) :
    (fuel : Nat) → Array Char → Read (Array Char × Bool)
  | 0, acc => return (acc, false)
  | fuel + 1, acc => do
    let c ← peek
    let next ← peekAt 1
    if isBlankOrEnd c then return (acc, false)
    else if single && c == '\'' && next == '\'' then
      skipMany 2
      need 2
      quotedWord start single fuel (acc.push '\'')
    else if c == (if single then '\'' else '"') then return (acc, false)
    else if !single && c == '\\' && isBreak next then
      need 3
      skip
      skipBreak
      return (acc, true)
    else if !single && c == '\\' then
      let e ← escape start
      need 2
      quotedWord start single fuel (acc.push e)
    else
      skip
      need 2
      quotedWord start single fuel (acc.push c)

/-- The inside of a quoted scalar up to its closing quote. -/
def quotedFrom (start : Mark) (single : Bool) : (fuel : Nat) → Array Char → Read (Array Char)
  | 0, acc => return acc
  | fuel + 1, acc => do
    need 4
    if ← atDocumentMark then
      refuse .documentIndicator start
    if isEnd (← peek) then
      refuse .endOfStream start
    let (acc, joined) ← quotedWord start single (← steps) acc
    need 1
    if (← peek) == (if single then '\'' else '"') then
      return acc
    let gap ← gapFrom none (← steps) { broken := joined }
    quotedFrom start single fuel (acc ++ gap.text)

def quotedScalar (single : Bool) : Read Token := do
  let start ← here
  skip
  let text ← quotedFrom start single (← steps) #[]
  skip
  let style := if single then Style.singleQuoted else Style.doubleQuoted
  return ⟨.scalar (Utf8.encode text.toList) style, start, ← here⟩

/-! ## Block scalars -/

/-- What happens to the line breaks at the end of a block scalar. -/
inductive Chomping
  /-- All are dropped. -/
  | strip
  /-- The first is kept. -/
  | clip
  /-- All are kept. -/
  | keep
deriving DecidableEq, Repr

/-- The chomping mark, if there is one. -/
def chompingMark : Read (Option Chomping) := do
  let c ← peek
  if c == '+' || c == '-' then
    skip
    need 1
    return some (if c == '+' then .keep else .strip)
  return none

def indentationMark (start : Mark) : Read (Option Nat) := do
  let c ← peek
  if isDecimal c then
    if c == '0' then
      refuse .zeroIndentation start
    skip
    need 1
    return some (c.toNat - 0x30)
  return none

/-- Steps over indentation and empty lines of a block scalar whose indentation is `indent`, zero if
not known yet. Gives the line breaks and the greatest column that was reached. -/
def blockGapFrom (start : Mark) (indent : Nat) :
    (fuel : Nat) → Array Char → (widest : Nat) → Read (Array Char × Nat)
  | 0, acc, widest => return (acc, widest)
  | fuel + 1, acc, widest => do
    need 1
    let c ← peek
    let column := (← here).column
    let inside := indent = 0 || column < indent
    if inside && c == ' ' then
      skip
      blockGapFrom start indent fuel acc widest
    else
      let widest := max widest column
      if inside && c == '\t' then
        refuse .tabIndentation start
      if isBreak c then
        need 2
        let b ← takeBreak
        blockGapFrom start indent fuel (acc ++ b.toArray) widest
      else return (acc, widest)

/-- Steps over indentation and empty lines. Gives the line breaks and the indentation, which the
widest line decides if it is not known yet; it is deeper than that of the block around. -/
def blockGap (start : Mark) (indent : Nat) : Read (Array Char × Nat) := do
  let (breaks, widest) ← blockGapFrom start indent (← steps) #[] 0
  if indent = 0 then
    return (breaks, max 1 (max widest ((← get).indent + 1).toNat))
  return (breaks, indent)

/-- What is read of a block scalar. -/
structure Lines where
  text : Array Char := #[]
  /-- The break after the last line. -/
  last : Array Char := #[]
  /-- The empty lines after it. -/
  empty : Array Char := #[]
  /-- Whether the last line starts with a blank. -/
  blank : Bool := false

def blockLines (start : Mark) (isLiteral : Bool) (indent : Nat) : (fuel : Nat) → Lines → Read Lines
  | 0, l => return l
  | fuel + 1, l => do
    need 1
    let c ← peek
    if (← here).column = indent ∧ !isEnd c then
      let blank := isBlank c
      let folds := !isLiteral && !l.blank && !blank && l.last[0]? = some '\n'
      let joint := if folds then (if l.empty.isEmpty then #[' '] else #[]) else l.last
      let line ← takeWhile fun c => !isBreakOrEnd c
      need 2
      let b ← takeBreak
      let (empty, _) ← blockGap start indent
      blockLines start isLiteral indent fuel
        { text := l.text ++ joint ++ l.empty ++ line.toArray, last := b.toArray, empty, blank }
    else return l

def blockScalar (isLiteral : Bool) : Read Token := do
  let start ← here
  skip
  need 1
  let before ← chompingMark
  let increment ← indentationMark start
  let after ← if before.isNone ∧ increment.isSome then chompingMark else pure none
  let chomping := (before.or after).getD .clip
  skipWhile isBlank
  if (← peek) == '#' then
    trailingComment start.index
  if !isBreakOrEnd (← peek) then
    refuse .noCommentOrBreak start
  if isBreak (← peek) then
    need 2
    skipBreak
  let around := (max 0 (← get).indent).toNat
  let (empty, indent) ← blockGap start (increment.elim 0 (around + ·))
  let l ← blockLines start isLiteral indent (← steps) { empty }
  let text := l.text ++ (if chomping = .strip then #[] else l.last) ++
    (if chomping = .keep then l.empty else #[])
  let style := if isLiteral then Style.literal else Style.folded
  return ⟨.scalar (Utf8.encode text.toList) style, start, ← here⟩

end StackTape.Yaml.Read
