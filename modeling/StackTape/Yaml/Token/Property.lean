import StackTape.Text.Utf8
import StackTape.Yaml.Token.Blank

/-!
# Anchors, tags and directives
-/

namespace StackTape.Yaml.Read

/-! ## Anchors and aliases -/

/-- The name of an anchor or alias, after its mark. -/
def anchorName : Read Bytes := do
  let start ← here
  skip
  let name ← takeWhile isNameChar
  let c ← peek
  if name.isEmpty ∨ !(isBlankOrEnd c || "?:,]\x7d%@`".toList.contains c) then
    refuse .anchorName start
  return Utf8.encode name

/-! ## Tags -/

/-- A tag handle: an exclamation mark, a name and, as a rule, another exclamation mark. Only in a
directive the last one is required, except for the handle of one mark. -/
def tagHandle (directive : Bool) (start : Mark) : Read Bytes := do
  need 1
  if (← peek) != '!' then
    refuse .noHandleMark start
  skip
  let name ← takeWhile isNameChar
  if (← peek) == '!' then
    skip
    return Utf8.encode ('!' :: name ++ ['!'])
  if directive ∧ !name.isEmpty then
    refuse .noHandleMark start
  return Utf8.encode ('!' :: name)

/-- Percent escapes of one UTF-8 sequence, of which `left` bytes are missing; none are read yet
when `left` is none. -/
def escapedOctets (start : Mark) : (fuel : Nat) → (left : Option Nat) → Bytes → Read Bytes
  | 0, _, acc => return acc
  | fuel + 1, left, acc => do
    if left = some 0 then
      return acc
    need 3
    match (← peek) == '%', hexOf? (← peekAt 1), hexOf? (← peekAt 2) with
    | true, some a, some b =>
      let octet := UInt8.ofNat (16 * a + b)
      let left ← match left with
        | none =>
          if sequenceLength octet = 0 then refuse .escapedLead start
          else pure (sequenceLength octet)
        | some n => if octet < 0x80 ∨ 0xC0 ≤ octet then refuse .escapedTail start else pure n
      skipMany 3
      escapedOctets start fuel (some (left - 1)) (acc ++ [octet])
    | _, _, _ => refuse .noEscapedOctet start

def isTagChar (c : Char) : Bool := isNameChar c || ";/?:@&=+$.,!~*'()[]%".toList.contains c

def tagTextFrom (start : Mark) : (fuel : Nat) → Bytes → Read Bytes
  | 0, acc => return acc
  | fuel + 1, acc => do
    need 1
    let c ← peek
    if c == '%' then
      tagTextFrom start fuel (acc ++ (← escapedOctets start 5 none []))
    else if isTagChar c then
      skip
      tagTextFrom start fuel (acc ++ Utf8.encodeChar c)
    else return acc

/-- The text of a tag after what is already read of it; there has to be some. -/
def tagText (head : Bytes) (start : Mark) : Read Bytes := do
  let before ← here
  let text ← tagTextFrom start (← steps) head.tail
  if head.isEmpty ∧ (← here) = before then
    refuse .noTagText start
  return text

/-- A tag: handle and suffix. A verbatim tag has no handle, and neither has a bare mark. -/
def tagToken : Read TokenKind := do
  let start ← here
  need 2
  let kind ←
    if (← peekAt 1) == '<' then do
      skipMany 2
      let suffix ← tagText [] start
      if (← peek) != '>' then
        refuse .noTagEnd start
      skip
      pure (TokenKind.tag [] suffix)
    else do
      let handle ← tagHandle false start
      if 1 < handle.length ∧ handle.getLast? = some 0x21 then
        pure (TokenKind.tag handle (← tagText [] start))
      else
        let suffix ← tagText handle start
        if suffix.isEmpty then pure (TokenKind.tag [] handle)
        else pure (TokenKind.tag [0x21] suffix)
  need 1
  if !isBlankOrEnd (← peek) then
    refuse .noBlankOrBreak start
  return kind

/-! ## Directives -/

/-- One of the two numbers of a version; it has one or two digits. -/
def versionNumber (start : Mark) : (fuel length value : Nat) → Read Nat
  | 0, _, value => return value
  | fuel + 1, length, value => do
    need 1
    let c ← peek
    if isDecimal c then
      if length = 2 then
        refuse .versionLength start
      skip
      versionNumber start fuel (length + 1) (value * 10 + (c.toNat - 0x30))
    else if length = 0 then refuse .noVersion start
    else return value

/-- A directive, with the rest of its line. -/
def directive : Read TokenKind := do
  let start ← here
  skip
  let name ← takeWhile isNameChar
  if name.isEmpty then
    refuse .noDirectiveName start
  if !isBlankOrEnd (← peek) then
    refuse .directiveNameEnd start
  let kind ←
    if name = "YAML".toList then do
      skipWhile isBlank
      let major ← versionNumber start 4 0 0
      if (← peek) != '.' then
        refuse .versionDot start
      skip
      let minor ← versionNumber start 4 0 0
      pure (TokenKind.versionDirective major minor)
    else if name = "TAG".toList then do
      skipWhile isBlank
      let handle ← tagHandle true start
      need 1
      if !isBlank (← peek) then
        refuse .noBlank start
      skipWhile isBlank
      let text ← tagText [] start
      need 1
      if !isBlankOrEnd (← peek) then
        refuse .noBlankOrBreak start
      pure (TokenKind.tagDirective handle text)
    else refuse .directiveName start
  skipWhile isBlank
  if (← peek) == '#' then
    skipLine
  if !isBreakOrEnd (← peek) then
    refuse .noCommentOrBreak start
  if isBreak (← peek) then
    need 2
    skipBreak
  return kind

end StackTape.Yaml.Read
