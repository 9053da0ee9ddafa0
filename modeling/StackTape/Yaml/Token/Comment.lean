import StackTape.Yaml.Token

/-!
# Comments

A comment after a token belongs to the rest of its line. Once a comment line is read, further
comment lines are read with it, over any blanks and breaks between them as long as these are fewer
than 512 bytes. Comments matter to nothing but the place where a block ends: a block that is
followed by comments of its own indentation ends before them.
-/

namespace StackTape.Yaml.Read

/-- How far ahead comments are looked for. -/
def commentReach : Nat := 512

def skipLine : Read Unit := skipWhile fun c => !isBreakOrEnd c

def addComment (c : Comment) : Read Unit :=
  modify fun s => { s with comments := s.comments.push c }

/-! ## Comments after a token -/

/-- Whether a hash sign follows over blanks, which start at distance `k`; looks at most `fuel`
characters far. -/
def hashFollows : (fuel k : Nat) → List Char → Read Bool
  | 0, _, _ => return false
  | fuel + 1, k, cs => do
    if ← canNeed (k + 1) then
      match cs with
      | [] => return false
      | c :: cs => if isBlank c then hashFollows fuel (k + 1) cs else return c == '#'
    else return false

/-- Steps over a comment that follows a token on its line; `owner` is where the token starts. -/
def trailingComment (owner : Nat) : Read Unit := do
  if (← get).breaks = 0 then
    if ← hashFollows commentReach 0 (← get).rest then
      skipWhile isBlank
      addComment { kind := .line, owner, start := ← here }
      skipLine

/-! ## Comments on lines of their own -/

structure Search where
  /-- Where it began, or where the last comment was complete. -/
  searched : Nat
  /-- The place that a comment which ends a block belongs to. -/
  owner : Nat
  /-- Whether the token before the search is the colon after a key. -/
  afterColon : Bool
  /-- The line on which a comment ends the block before it; none before the first line. -/
  footLine : Int
  /-- The indentation of the block around. -/
  indent : Nat
  /-- Whether no line was empty yet, and whether the last one was. -/
  firstEmpty : Bool
  lastEmpty : Bool := false
  line : Nat
  column : Nat
  /-- The comment that is being read. -/
  start? : Option Mark := none

/-- Completes the comment that is being read, as the end of a block, at the place `k` ahead. -/
def Search.finish (s : Search) (k owner : Nat) (start : Mark) : Read Search := do
  let stop := (← here).index + k
  addComment { kind := .foot, owner, searched := s.searched, start, stop }
  return { s with searched := stop, owner := stop, start? := none }

/-- The comment that is being read starts left of the block around. -/
def Search.isLeft (s : Search) (start : Mark) : Bool := start.column ≤ s.indent

/-- What the end of a line, or of a flow collection, `k` ahead means for the comment that is being
read: before the first empty line it ends the block. -/
def Search.endLine (s : Search) (k : Nat) (closes : Bool) : Read Search := do
  match s.start? with
  | none => return s
  | some start =>
    let ends := closes || (!s.lastEmpty && s.firstEmpty &&
      (((start.line : Int) = s.footLine && !s.afterColon) || s.isLeft start))
    if ends then s.finish k (if s.isLeft start then start.index else s.owner) start else return s

/-- Looks for the next hash sign over blanks and breaks, from distance `k` on, at most `fuel` bytes
far. Nothing is found after a break of several bytes, which `inBreak` says is being passed. Gives
the distance that was reached. -/
def lookOn : (fuel k : Nat) → (inBreak : Bool) → List Char → Search → Read (Search × Nat × Bool)
  | 0, k, _, _, s => return (s, k, false)
  | fuel + 1, k, inBreak, cs, s => do
    if !(← canNeed (k + 1)) then
      return (s, k, false)
    let s := { s with column := s.column + 1 }
    let c := cs.headD '\x00'
    let closes := !inBreak && 0 < (← flowLevel) && (c == ']' || c == '\x7d')
    if !inBreak && isBlank c then lookOn fuel (k + 1) false cs.tail s
    else if closes || (!inBreak && isBreakOrEnd c) then
      let s ← s.endLine k closes
      if !isBreak c then
        return (s, k, false)
      lookOn fuel (k + 1) (isWideBreak c) cs.tail
        { s with firstEmpty := false, lastEmpty := true, column := 0, line := s.line + 1 }
    else
      let s ← match s.start? with
        | some start =>
          if s.column ≤ s.indent ∧ s.column ≠ start.column then s.finish k s.owner start else pure s
        | none => pure s
      return (s, k, !inBreak && c == '#')

/-- Steps over blanks and breaks up to the character number `target`. -/
def skipTo (target : Nat) : (fuel : Nat) → Read Unit
  | 0 => return
  | fuel + 1 => do
    if (← here).index < target then
      need 1
      if isBreak (← peek) then
        need 2
        skipBreak
      else skip
      skipTo target fuel

/-- Steps over a comment and over those that follow it. The first one is looked for from here on,
the others after the break that ends the line. -/
def commentsFrom : (fuel k : Nat) → (inBreak : Bool) → Search → Read Unit
  | 0, _, _, _ => return
  | fuel + 1, k, inBreak, s => do
    let (s, k, found) ← lookOn (commentReach - k) k inBreak ((← get).rest.drop k) s
    let index := (← here).index + k
    if found then
      let start := s.start?.getD ⟨index, s.line, s.column⟩
      skipTo index (k + 1)
      skipLine
      commentsFrom fuel 1 (isWideBreak (← peek))
        { s with lastEmpty := false, column := 0, line := (← here).line, start? := some start }
    else
      match s.start? with
      | some start =>
        addComment
          { kind := .head, owner := start.index, searched := s.searched, start, stop := index - 1 }
      | none => return

/-- The token that a comment after the last token belongs to: a comma leaves it to the one before.
-/
def commentOwner : Read (Option Token) := do
  match (← get).queue.reverse with
  | t :: u :: _ => return some (if t.kind = .flowEntry then u else t)
  | [t] => return some t
  | [] => return none

/-- Steps over comments; the search for the next token began at `before`. -/
def skipComments (before : Mark) : Read Unit := do
  let c ← get
  let token? ← commentOwner
  let below : Int := c.mark.line - c.breaks + 1
  commentsFrom (← steps) 0 false
    { searched := before.index
      owner := (token?.map (·.start.index)).getD 0
      afterColon := token?.map (·.kind) = some .value
      footLine :=
        if before.line = 0 then -1
        else if c.breaks = 0 ∧ 1 < c.mark.column then below + 1
        else below
      indent := (max 0 c.indent).toNat
      firstEmpty := c.breaks ≤ 1
      line := c.mark.line
      column := c.mark.column }

/-- A comment on the line of a colon before a block sequence belongs to what follows the first
hyphen. -/
def moveComment : Read Unit := do
  let c ← get
  match c.queue.reverse, c.comments.back? with
  | ⟨.blockEntry, _, _⟩ :: ⟨.blockSequenceStart, _, _⟩ :: _, some x =>
    if c.given < c.comments.size ∧ x.kind = .line ∧ !isBreak (← peek) then
      let owner := if x.start.line + 1 = c.mark.line then c.mark.index else x.owner
      set { c with comments := c.comments.pop.push { x with kind := .head, owner } }
  | _, _ => return

/-- Gives to a token the comments that belong to it or to one before it. Comments at the head of a
token are not given to the end of a block. -/
def giveComments (t : Token) : (fuel : Nat) → Read Unit
  | 0 => return
  | fuel + 1 => do
    let c ← get
    match c.comments[c.given]? with
    | none => return
    | some x =>
      if x.owner ≤ t.start.index ∧ !(x.kind = .head ∧ t.kind = .blockEnd) then
        set { c with given := c.given + 1 }
        giveComments t fuel

/-! ## Where blocks end -/

/-- The place where a block of the given indentation ends, if it ends at `m` without comments. Of
the comments before that place, `n` are still to be looked at; those that were complete before
`stop` do not count. -/
def blockStop (comments : Array Comment) (given : Nat) (indent : Int) : (n stop : Nat) → Mark → Mark
  | 0, _, m => m
  | n + 1, stop, m =>
    match comments[n]? with
    | none => m
    | some x =>
      if n < given ∨ x.stop < stop then m
      else
        blockStop comments given indent n x.searched
          (if x.start.column = indent + 1 then x.start else m)

end StackTape.Yaml.Read
