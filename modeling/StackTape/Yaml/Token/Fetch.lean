import StackTape.Yaml.Token.Property
import StackTape.Yaml.Token.Scalar

/-!
# Fetching tokens

Tokens are fetched as they are asked for. Before the first token of the queue may be taken, two more
have to be there, and it must be settled whether it starts a key: that is known once a colon follows
on the same line, not more than 1024 characters later.
-/

namespace StackTape.Yaml.Read

/-- The deepest nesting of collections. -/
def maxDepth : Nat := 10000

def append (kind : TokenKind) (start stop : Mark) : Read Unit :=
  modify fun c => { c with queue := c.queue ++ [⟨kind, start, stop⟩] }

/-- Puts a token into the queue, before the one with the given number. -/
def insertAt (number : Nat) (kind : TokenKind) (mark : Mark) : Read Unit :=
  modify fun c => { c with queue := c.queue.insertIdx (number - c.taken) ⟨kind, mark, mark⟩ }

/-- Appends a token of `n` characters. -/
def appendMark (kind : TokenKind) (n : Nat) : Read Unit := do
  let start ← here
  skipMany n
  append kind start (← here)

/-! ## Pending keys -/

/-- Replaces the pending key of the flow level `level`. -/
def setKey (level : Nat) (k : PendingKey) : Read Unit :=
  modify fun c => { c with keys := c.keys.setIfInBounds level k }

def keyAt (level : Nat) : Read PendingKey := do
  return (← get).keys.getD level {}

/-- Forgets which level the token of a number belongs to. -/
def forgetLevel (number : Nat) : Read Unit :=
  modify fun c => { c with keyLevels := c.keyLevels.filter fun p => p.1 ≠ number }

/-- Whether the pending key of a level can still become a key. One that cannot is given up; if it is
required, the document is wrong. -/
def keyIsValid (level : Nat) : Read Bool := do
  let k ← keyAt level
  if !k.possible then
    return false
  let m ← here
  if k.mark.line < m.line ∨ k.mark.index + 1024 < m.index then
    if k.required then
      refuse .missingColon k.mark
    setKey level { k with possible := false }
    return false
  return true

def removeKey : Read Unit := do
  let level ← flowLevel
  let k ← keyAt level
  if k.possible then
    if k.required then
      refuse .missingColon k.mark
    setKey level { k with possible := false }
    forgetLevel k.number

/-- Notes that a key may start here. -/
def saveKey : Read Unit := do
  let c ← get
  let level ← flowLevel
  if c.keyAllowed then
    removeKey
    let k : PendingKey :=
      { possible := true
        required := level = 0 && c.indent = c.mark.column
        number := c.taken + c.queue.length
        mark := c.mark }
    setKey level k
    forgetLevel k.number
    modify fun c => { c with keyLevels := (k.number, level) :: c.keyLevels }

def allowKey (b : Bool) : Read Unit := modify fun c => { c with keyAllowed := b }

/-! ## Indentation -/

/-- Starts a block collection at a column, if it is deeper than the current one. The token goes
before the one with the given number, or to the end of the queue. -/
def indentTo (column : Nat) (number? : Option Nat) (kind : TokenKind) (mark : Mark) :
    Read Unit := do
  let c ← get
  if (← flowLevel) = 0 ∧ c.indent < column then
    modify fun c => { c with outer := c.indent :: c.outer, indent := column }
    if maxDepth < (← get).outer.length then
      refuse .tooDeep (← keyAt 0).mark
    match number? with
    | some n => insertAt n kind mark
    | none => append kind mark mark

/-- Ends the block collections that are deeper than a column, at `mark` or before the comments that
end them. -/
def dedentFrom (column : Int) : (fuel : Nat) → (mark : Mark) → Read Unit
  | 0, _ => return
  | fuel + 1, mark => do
    let c ← get
    if column < c.indent then
      let stop := blockStop c.comments c.given c.indent c.comments.size mark.index mark
      append .blockEnd stop stop
      modify fun c => { c with indent := c.outer.headD (-1), outer := c.outer.tail }
      dedentFrom column fuel stop

/-- Ends the block collections that are deeper than a column, unless inside a flow collection. They
end one character before `mark`. -/
def dedentTo (column : Int) (mark : Mark) : Read Unit := do
  if (← flowLevel) = 0 then
    dedentFrom column ((← get).outer.length + 1) { mark with index := mark.index - 1 }

/-! ## The tokens -/

/-- The end of the document stream, on a line of its own. -/
def fetchStreamEnd : Read Unit := do
  modify fun c =>
    if c.mark.column = 0 then c
    else { c with mark := { c.mark with line := c.mark.line + 1, column := 0 } }
  dedentTo (-1) (← here)
  removeKey
  allowKey false
  append .streamEnd (← here) (← here)

/-- Ends all block collections, as before a directive or a document mark. -/
def endBlocks : Read Unit := do
  dedentTo (-1) (← here)
  removeKey
  allowKey false

def fetchDirective : Read Unit := do
  endBlocks
  let start ← here
  let kind ← directive
  append kind start (← here)

def fetchDocumentMark (kind : TokenKind) : Read Unit := do
  endBlocks
  appendMark kind 3

/-- The start of a flow collection, which may itself be a key. -/
def fetchFlowStart (kind : TokenKind) : Read Unit := do
  saveKey
  let c ← get
  let number := c.taken + c.queue.length
  modify fun c => { c with keys := c.keys.push { number, mark := c.mark } }
  if maxDepth < (← flowLevel) then
    refuse .tooDeep (← here)
  allowKey true
  appendMark kind 1

def fetchFlowEnd (kind : TokenKind) : Read Unit := do
  removeKey
  if 0 < (← flowLevel) then
    forgetLevel (← keyAt (← flowLevel)).number
    modify fun c => { c with keys := c.keys.pop }
  allowKey false
  appendMark kind 1

/-- The comma of a flow collection. -/
def fetchFlowEntry : Read Unit := do
  removeKey
  allowKey true
  appendMark .flowEntry 1

/-- The hyphen of a block sequence; inside flow collections it is left to the structure. -/
def fetchBlockEntry : Read Unit := do
  let c ← get
  if (← flowLevel) = 0 then
    if !c.keyAllowed then
      refuse .blockEntryContext c.mark
    indentTo c.mark.column none .blockSequenceStart c.mark
  removeKey
  allowKey true
  appendMark .blockEntry 1

/-- The question mark before a key. -/
def fetchKey : Read Unit := do
  let c ← get
  let inBlock := (← flowLevel) = 0
  if inBlock then
    if !c.keyAllowed then
      refuse .keyContext c.mark
    indentTo c.mark.column none .blockMappingStart c.mark
  removeKey
  allowKey inBlock
  appendMark .key 1

/-- The colon after a key. It turns the pending key into a key. -/
def fetchValue : Read Unit := do
  let level ← flowLevel
  if ← keyIsValid level then
    let k ← keyAt level
    insertAt k.number .key k.mark
    indentTo k.mark.column (some k.number) .blockMappingStart k.mark
    setKey level { k with possible := false }
    forgetLevel k.number
    allowKey false
  else
    let c ← get
    if level = 0 then
      if !c.keyAllowed then
        refuse .valueContext c.mark
      indentTo c.mark.column none .blockMappingStart c.mark
    allowKey (level = 0)
  appendMark .value 1

def fetchAnchor (kind : Bytes → TokenKind) : Read Unit := do
  saveKey
  allowKey false
  let start ← here
  let name ← anchorName
  append (kind name) start (← here)

def fetchTag : Read Unit := do
  saveKey
  allowKey false
  let start ← here
  let kind ← tagToken
  append kind start (← here)

def fetchScalar (scan : Read Token) : Read Unit := do
  saveKey
  allowKey false
  let t ← scan
  append t.kind t.start t.stop

def fetchBlockScalar (isLiteral : Bool) : Read Unit := do
  removeKey
  allowKey true
  let t ← blockScalar isLiteral
  append t.kind t.start t.stop

/-- The characters that start no plain scalar, or only before certain others. -/
def isIndicator (c : Char) : Bool := "-?:,[]\x7b\x7d#&*!|>'\"%@`".toList.contains c

/-- The token that starts with `c`, before `next`. -/
def fetchFrom (c next : Char) : Read Unit := do
  let inBlock := (← flowLevel) = 0
  if c == '[' then fetchFlowStart .flowSequenceStart
  else if c == '\x7b' then fetchFlowStart .flowMappingStart
  else if c == ']' then fetchFlowEnd .flowSequenceEnd
  else if c == '\x7d' then fetchFlowEnd .flowMappingEnd
  else if c == ',' then fetchFlowEntry
  else if c == '-' && isBlankOrEnd next then fetchBlockEntry
  else if c == '?' && (!inBlock || isBlankOrEnd next) then fetchKey
  else if c == ':' && (!inBlock || isBlankOrEnd next) then fetchValue
  else if c == '*' then fetchAnchor .alias
  else if c == '&' then fetchAnchor .anchor
  else if c == '!' then fetchTag
  else if c == '|' && inBlock then fetchBlockScalar true
  else if c == '>' && inBlock then fetchBlockScalar false
  else if c == '\'' then fetchScalar (quotedScalar true)
  else if c == '"' then fetchScalar (quotedScalar false)
  else if !(isBlankOrEnd c || isIndicator c) || (c == '-' && !isBlank next) ||
      (inBlock && (c == '?' || c == ':') && !isBlankOrEnd next) then
    fetchScalar plainScalar
  else refuse .noToken (← here)

/-- Where the token starts that a comment after the token that starts with `c` belongs to: a colon
outside flow collections and a comma inside leave it to the token before. -/
def trailingOwner (c : Char) : Read Nat := do
  let inBlock := (← flowLevel) = 0
  match (← get).queue.getLast? with
  | some t =>
    if c == (if inBlock then ':' else ',') then return t.start.index else return (← here).index
  | none => return (← here).index

/-- Fetches one token, with the structure tokens that come before it and the comment after it. -/
def fetch : Read Unit := do
  need 1
  if !(← get).started then
    modify fun c => { c with started := true, keyAllowed := true, keys := #[{}] }
    append .streamStart (← here) (← here)
    return
  let before ← here
  skipBetween before (← steps)
  dedentTo (← here).column before
  need 4
  let c ← peek
  let owner ← trailingOwner c
  if isEnd c then
    fetchStreamEnd
  else if (← here).column = 0 ∧ c = '%' then
    fetchDirective
  else if (← atDocumentMark) then
    fetchDocumentMark (if c = '-' then .documentStart else .documentEnd)
  else
    fetchFrom c (← peekAt 1)
    if (← get).queue.getLast?.map (·.kind) ≠ some .blockEntry then
      trailingComment owner

/-- Fetches tokens until the first one of the queue may be taken. -/
def fetchMore : (fuel : Nat) → Read Unit
  | 0 => return
  | fuel + 1 => do
    let c ← get
    let more ←
      if c.queue.length < 3 then pure true
      else
        match c.keyLevels.lookup c.taken with
        | none => pure false
        | some level => keyIsValid level
    if more then
      fetch
      fetchMore fuel

/-- The next token, with the comments that belong to it. -/
def token : Read Token := do
  if !(← get).ready then
    fetchMore (2 * (← steps) + 8)
    modify fun c => { c with ready := true }
  let c ← get
  let t := c.queue.headD ⟨.streamEnd, c.mark, c.mark⟩
  giveComments t (c.comments.size + 1)
  return t

def pop : Read Unit :=
  modify fun c => { c with queue := c.queue.tail, taken := c.taken + 1, ready := false }

end StackTape.Yaml.Read
