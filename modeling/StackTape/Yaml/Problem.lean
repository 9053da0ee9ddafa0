import StackTape.Text.Bytes

/-!
# What can be wrong with a document

A document is refused for one of the problems below, found while its characters are decoded, while
they are cut into tokens, or while the tokens are put together. Messages show a line number unless
the problem is on the first line; problems between tokens are counted from zero there, problems
inside tokens from one.
-/

namespace StackTape.Yaml

/-- A place in a document, counted from zero. -/
structure Mark where
  /-- Characters before it. -/
  index : Nat := 0
  line : Nat := 0
  column : Nat := 0
deriving DecidableEq, Repr, Inhabited

inductive Undecodable
  | leadingOctet
  | incompleteSequence
  | trailingOctet
  | sequenceLength
  | invalidCharacter
  | incompleteUnit
  | lowSurrogate
  | incompletePair
  | missingLowSurrogate
  | controlCharacter
deriving DecidableEq, Repr

def Undecodable.text : Undecodable → Bytes
  | .leadingOctet => ascii "invalid leading UTF-8 octet"
  | .incompleteSequence => ascii "incomplete UTF-8 octet sequence"
  | .trailingOctet => ascii "invalid trailing UTF-8 octet"
  | .sequenceLength => ascii "invalid length of a UTF-8 sequence"
  | .invalidCharacter => ascii "invalid Unicode character"
  | .incompleteUnit => ascii "incomplete UTF-16 character"
  | .lowSurrogate => ascii "unexpected low surrogate area"
  | .incompletePair => ascii "incomplete UTF-16 surrogate pair"
  | .missingLowSurrogate => ascii "expected low surrogate area"
  | .controlCharacter => ascii "control characters are not allowed"

inductive BadToken
  | noToken
  | blockEntryContext
  | keyContext
  | valueContext
  | missingColon
  | tooDeep
  | directiveName
  | noDirectiveName
  | directiveNameEnd
  | versionDot
  | versionLength
  | noVersion
  | noBlank
  | noBlankOrBreak
  | noCommentOrBreak
  | anchorName
  | noHandleMark
  | noTagText
  | noTagEnd
  | noEscapedOctet
  | escapedLead
  | escapedTail
  | zeroIndentation
  | tabIndentation
  | documentIndicator
  | endOfStream
  | unknownEscape
  | noHexNumber
  | badEscapeCode
  | tabInPlain
deriving DecidableEq, Repr

def BadToken.text : BadToken → Bytes
  | .noToken => ascii "found character that cannot start any token"
  | .blockEntryContext => ascii "block sequence entries are not allowed in this context"
  | .keyContext => ascii "mapping keys are not allowed in this context"
  | .valueContext => ascii "mapping values are not allowed in this context"
  | .missingColon => ascii "could not find expected ':'"
  | .tooDeep => ascii "exceeded max depth of 10000"
  | .directiveName => ascii "found unknown directive name"
  | .noDirectiveName => ascii "could not find expected directive name"
  | .directiveNameEnd => ascii "found unexpected non-alphabetical character"
  | .versionDot => ascii "did not find expected digit or '.' character"
  | .versionLength => ascii "found extremely long version number"
  | .noVersion => ascii "did not find expected version number"
  | .noBlank => ascii "did not find expected whitespace"
  | .noBlankOrBreak => ascii "did not find expected whitespace or line break"
  | .noCommentOrBreak => ascii "did not find expected comment or line break"
  | .anchorName => ascii "did not find expected alphabetic or numeric character"
  | .noHandleMark => ascii "did not find expected '!'"
  | .noTagText => ascii "did not find expected tag URI"
  | .noTagEnd => ascii "did not find the expected '>'"
  | .noEscapedOctet => ascii "did not find URI escaped octet"
  | .escapedLead => ascii "found an incorrect leading UTF-8 octet"
  | .escapedTail => ascii "found an incorrect trailing UTF-8 octet"
  | .zeroIndentation => ascii "found an indentation indicator equal to 0"
  | .tabIndentation => ascii "found a tab character where an indentation space is expected"
  | .documentIndicator => ascii "found unexpected document indicator"
  | .endOfStream => ascii "found unexpected end of stream"
  | .unknownEscape => ascii "found unknown escape character"
  | .noHexNumber => ascii "did not find expected hexdecimal number"
  | .badEscapeCode => ascii "found invalid Unicode character escape code"
  | .tabInPlain => ascii "found a tab character that violates indentation"

inductive BadStructure
  | noDocumentStart
  | noContent
  | noEntry
  | noKey
  | noCommaOrBracket
  | noCommaOrBrace
  | undefinedHandle
  | duplicateVersion
  | incompatibleVersion
  | duplicateHandle
deriving DecidableEq, Repr

def BadStructure.text : BadStructure → Bytes
  | .noDocumentStart => ascii "did not find expected <document start>"
  | .noContent => ascii "did not find expected node content"
  | .noEntry => ascii "did not find expected '-' indicator"
  | .noKey => ascii "did not find expected key"
  | .noCommaOrBracket => ascii "did not find expected ',' or ']'"
  | .noCommaOrBrace => ascii "did not find expected ',' or '\x7d'"
  | .undefinedHandle => ascii "found undefined tag handle"
  | .duplicateVersion => ascii "found duplicate %YAML directive"
  | .incompatibleVersion => ascii "found incompatible YAML document"
  | .duplicateHandle => ascii "found duplicate %TAG directive"

inductive Problem
  /-- Its bytes cannot be decoded. -/
  | undecodable (u : Undecodable)
  /-- Its characters are no token; `context` is where the token or its surroundings start. -/
  | badToken (b : BadToken) (context found : Mark)
  /-- Its tokens do not fit together; `context` is where the collection around them starts, the
  first place when there is none. -/
  | badStructure (b : BadStructure) (context found : Mark)
  /-- An alias to a name that no node has. -/
  | unknownAnchor (name : Bytes)
deriving DecidableEq, Repr

namespace Problem

/-- The line to show: that of the context, or that of the problem if the context is on the first
line; zero shows none. -/
def lineOf (context found : Mark) : Nat := if context.line ≠ 0 then context.line else found.line

/-- A line number before a message; zero shows none. -/
def withLine (line : Nat) (text : Bytes) : Bytes :=
  if line = 0 then text else ascii "line " ++ decimal line ++ ascii ": " ++ text

def message : Problem → Bytes
  | .undecodable u => u.text
  | .badToken b context found =>
    let line := lineOf context found
    withLine (if line = 0 then 0 else line + 1) b.text
  | .badStructure b context found => withLine (lineOf context found) b.text
  | .unknownAnchor name => ascii "unknown anchor '" ++ name ++ ascii "' referenced"

end Problem

end StackTape.Yaml
