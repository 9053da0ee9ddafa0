import StackTape.Yaml.Scalar
import StackTape.Yaml.Token.Fetch

/-!
# Documents as trees

The first document of a stream is read into a tree of nodes. An alias names the node that was the
last to carry its anchor; since a node may hold an alias to itself, anchored nodes are kept apart,
numbered in the order of their anchors.
-/

namespace StackTape.Yaml

/-- A node, with the line on which it starts, counted from one. -/
inductive Node
  | scalar (line : Nat) (tag : Tag) (text : Bytes)
  | sequence (line : Nat) (tag : Tag) (items : List Node)
  | mapping (line : Nat) (tag : Tag) (entries : List (Node × Node))
  /-- An alias with a number of its own and the number of its anchor. -/
  | alias (line : Nat) (name : Bytes) (self target : Nat)
deriving Inhabited

namespace Node

def line : Node → Nat
  | .scalar line _ _ | .sequence line _ _ | .mapping line _ _ | .alias line _ _ _ => line

/-- The text of a scalar or the name of an alias; collections have none. -/
def text : Node → Bytes
  | .scalar _ _ text => text
  | .alias _ name _ _ => name
  | _ => []

def sameKind : Node → Node → Bool
  | .scalar .., .scalar .. | .sequence .., .sequence .. => true
  | .mapping .., .mapping .. | .alias .., .alias .. => true
  | _, _ => false

/-- A node that is not written: a null. -/
def empty (m : Mark) : Node := .scalar (m.line + 1) .null []

def isMerge : Node → Bool
  | .scalar _ tag text => tag = .merge && text = ascii "<<"
  | _ => false

end Node

/-- What the nodes of a document share. -/
structure Registry where
  /-- The number of the last node with each anchor, the latest first. -/
  numbers : List (Bytes × Nat) := []
  /-- The nodes with anchors by number, as far as they are complete. -/
  nodes : List (Nat × Node) := []
  /-- The next free number. -/
  next : Nat := 0
  /-- What tag handles abbreviate. -/
  handles : List (Bytes × Bytes) := []

abbrev Compose := StateT Registry Read

namespace Compose

/-- Refuses a token inside the collection that starts at `context`. -/
def refuse {α : Type} (b : BadStructure) (context found : Mark) : Compose α :=
  throw (.badStructure b context found)

def token : Compose Token := Read.token

def pop : Compose Unit := Read.pop

/-- Closes a step of the reading: it counts unless a bad place was met on the way. -/
def settle : Compose Unit := Read.settle

/-- A node that is not written. -/
def empty (m : Mark) : Compose Node := do
  settle
  return .empty m

def number : Compose Nat := do
  let r ← get
  set { r with next := r.next + 1 }
  return r.next

/-- Gives an anchor to the node that starts here. -/
def announce : Option Bytes → Compose (Option Nat)
  | none => return none
  | some name => do
    let n ← number
    modify fun r => { r with numbers := (name, n) :: r.numbers }
    return some n

/-- Notes a complete node, if it has an anchor. -/
def complete (anchor : Option Nat) (x : Node) : Compose Node := do
  match anchor with
  | some n => modify fun r => { r with nodes := (n, x) :: r.nodes }
  | none => pure ()
  return x

/-! ## Directives -/

def addHandle (handle text : Bytes) : Compose Unit :=
  modify fun r => { r with handles := r.handles ++ [(handle, text)] }

/-- Adds a tag handle that the document may have set already. -/
def addDefault (handle text : Bytes) : Compose Unit := do
  if ((← get).handles.lookup handle).isNone then
    addHandle handle text

/-- The handles that every document has. -/
def addDefaults : Compose Unit := do
  addDefault (ascii "!") (ascii "!")
  addDefault (ascii "!!") Tag.standardText

/-- The directives before a document. -/
def directives : (fuel : Nat) → (versioned : Bool) → Compose Unit
  | 0, _ => return
  | fuel + 1, versioned => do
    let t ← token
    match t.kind with
    | .versionDirective major minor =>
      if versioned then
        refuse .duplicateVersion {} t.start
      if major ≠ 1 ∨ minor ≠ 1 then
        refuse .incompatibleVersion {} t.start
      pop
      directives fuel true
    | .tagDirective handle text =>
      if ((← get).handles.lookup handle).isSome then
        refuse .duplicateHandle {} t.start
      addHandle handle text
      pop
      directives fuel versioned
    | _ => addDefaults

/-! ## Node properties -/

/-- The tag that a handle and a suffix spell. -/
def spellTag (start mark : Mark) (handle suffix : Bytes) : Compose Bytes := do
  if handle = [] then
    return suffix
  match (← get).handles.lookup handle with
  | some text =>
    if text ++ suffix = [] then refuse .undefinedHandle start mark
    else return text ++ suffix
  | none => refuse .undefinedHandle start mark

def anchor? : Compose (Option Bytes) := do
  match (← token).kind with
  | .anchor name =>
    pop
    return some name
  | _ => return none

def tag? : Compose (Option (Mark × Bytes × Bytes)) := do
  let t ← token
  match t.kind with
  | .tag handle suffix =>
    pop
    return some (t.start, handle, suffix)
  | _ => return none

/-- An anchor and a tag, in either order. The tag is empty if there is none. -/
def properties : Compose (Option Bytes × Bytes) := do
  let start := (← token).start
  let before ← anchor?
  let tag ← tag?
  let after ← if before.isNone ∧ tag.isSome then anchor? else pure none
  let text ← match tag with
    | some (mark, handle, suffix) => spellTag start mark handle suffix
    | none => pure []
  return (before.or after, text)

/-- The tag of a node: the written one, if it says anything, else the given one. -/
def tagOr (written : Bytes) (other : Tag) : Tag :=
  if written = [] ∨ written = ascii "!" then other else .ofText written

/-- The tag of a scalar that has none of its own. -/
def scalarTag (text : Bytes) (style : Style) : Tag :=
  if style = .plain then implicitTag text else .str

/-! ## Nodes -/

/-- The token ends an entry of a block mapping. -/
def endsBlockEntry : TokenKind → Bool
  | .key | .value | .blockEnd => true
  | _ => false

mutual

/-- A node. Block collections are allowed if `block` is set, and block sequences without
indentation of their own if `indentless` is. -/
def node : (fuel : Nat) → (block indentless : Bool) → Compose Node
  | 0, _, _ => do
    let t ← token
    refuse .noContent t.start t.start
  | fuel + 1, block, indentless => do
    let t ← token
    let start := t.start
    let line := start.line + 1
    match t.kind with
    | .alias name =>
      pop
      settle
      match (← get).numbers.lookup name with
      | some target => return .alias line name (← number) target
      | none => throw (.unknownAnchor name)
    | _ =>
      let (anchor, written) ← properties
      let t ← token
      match t.kind, block, indentless with
      | .blockEntry, _, true =>
        settle
        let n ← announce anchor
        let items ← indentlessSequence fuel []
        complete n (.sequence line (tagOr written .seq) items)
      | .scalar text style, _, _ =>
        let n ← announce anchor
        pop
        settle
        complete n (.scalar line (tagOr written (scalarTag text style)) text)
      | .flowSequenceStart, _, _ =>
        settle
        let n ← announce anchor
        pop
        let items ← flowSequence fuel t.start true []
        complete n (.sequence line (tagOr written .seq) items)
      | .flowMappingStart, _, _ =>
        settle
        let n ← announce anchor
        pop
        let entries ← flowMapping fuel t.start true []
        complete n (.mapping line (tagOr written .map) entries)
      | .blockSequenceStart, true, _ =>
        settle
        let n ← announce anchor
        pop
        let items ← blockSequence fuel t.start []
        complete n (.sequence line (tagOr written .seq) items)
      | .blockMappingStart, true, _ =>
        settle
        let n ← announce anchor
        pop
        let entries ← blockMapping fuel t.start []
        complete n (.mapping line (tagOr written .map) entries)
      | _, _, _ =>
        if anchor.isSome ∨ written ≠ [] then
          settle
          let n ← announce anchor
          complete n (.scalar line (tagOr written .null) [])
        else refuse .noContent start t.start

def blockSequence : (fuel : Nat) → (context : Mark) → List Node → Compose (List Node)
  | 0, _, done => return done.reverse
  | fuel + 1, context, done => do
    let t ← token
    match t.kind with
    | .blockEntry =>
      pop
      let x ← match (← token).kind with
        | .blockEntry | .blockEnd => empty t.stop
        | _ => node fuel true false
      blockSequence fuel context (x :: done)
    | .blockEnd =>
      pop
      settle
      return done.reverse
    | _ => refuse .noEntry context t.start

/-- The entries of a block sequence without indentation of its own. -/
def indentlessSequence : (fuel : Nat) → List Node → Compose (List Node)
  | 0, done => return done.reverse
  | fuel + 1, done => do
    let t ← token
    match t.kind with
    | .blockEntry =>
      pop
      let x ← match (← token).kind with
        | .blockEntry | .key | .value | .blockEnd => empty t.stop
        | _ => node fuel true false
      indentlessSequence fuel (x :: done)
    | _ =>
      settle
      return done.reverse

def blockMapping : (fuel : Nat) → (context : Mark) → List (Node × Node) →
    Compose (List (Node × Node))
  | 0, _, done => return done.reverse
  | fuel + 1, context, done => do
    let t ← token
    match t.kind with
    | .key =>
      pop
      let k ← if endsBlockEntry (← token).kind then empty t.stop else node fuel true true
      let v ← blockValue fuel
      blockMapping fuel context ((k, v) :: done)
    | .blockEnd =>
      pop
      settle
      return done.reverse
    | _ => refuse .noKey context t.start

def blockValue : (fuel : Nat) → Compose Node
  | 0 => return .empty {}
  | fuel + 1 => do
    let t ← token
    match t.kind with
    | .value =>
      pop
      if endsBlockEntry (← token).kind then empty t.stop else node fuel true true
    | _ => empty t.start

/-- The entries of a flow sequence; before all but the first stands a comma. -/
def flowSequence : (fuel : Nat) → (context : Mark) → (first : Bool) → List Node →
    Compose (List Node)
  | 0, _, _, done => return done.reverse
  | fuel + 1, context, first, done => do
    let t ← token
    if t.kind ≠ .flowSequenceEnd ∧ !first then
      if t.kind = .flowEntry then pop
      else refuse .noCommaOrBracket context t.start
    let t ← token
    match t.kind with
    | .flowSequenceEnd =>
      pop
      settle
      return done.reverse
    | .key =>
      pop
      settle
      let entry ← flowPair fuel
      flowSequence fuel context false (.mapping (t.start.line + 1) .map [entry] :: done)
    | _ =>
      let x ← node fuel false false
      flowSequence fuel context false (x :: done)

/-- A single entry of a mapping that is an entry of a flow sequence. -/
def flowPair : (fuel : Nat) → Compose (Node × Node)
  | 0 => return (.empty {}, .empty {})
  | fuel + 1 => do
    let t ← token
    let k ← match t.kind with
      | .value | .flowEntry | .flowSequenceEnd => do
        pop
        empty t.stop
      | _ => node fuel false false
    let t ← token
    let v ←
      if t.kind = .value then do
        pop
        match (← token).kind with
        | .flowEntry | .flowSequenceEnd => empty t.start
        | _ => node fuel false false
      else empty t.start
    let _ ← token
    settle
    return (k, v)

/-- The entries of a flow mapping; before all but the first stands a comma. -/
def flowMapping : (fuel : Nat) → (context : Mark) → (first : Bool) → List (Node × Node) →
    Compose (List (Node × Node))
  | 0, _, _, done => return done.reverse
  | fuel + 1, context, first, done => do
    let t ← token
    if t.kind ≠ .flowMappingEnd ∧ !first then
      if t.kind = .flowEntry then pop
      else refuse .noCommaOrBrace context t.start
    let t ← token
    match t.kind with
    | .flowMappingEnd =>
      pop
      settle
      return done.reverse
    | .key =>
      pop
      let u ← token
      let k ← match u.kind with
        | .value | .flowEntry | .flowMappingEnd => empty u.start
        | _ => node fuel false false
      let v ← flowValue fuel
      flowMapping fuel context false ((k, v) :: done)
    | _ =>
      let k ← node fuel false false
      let v ← empty (← token).start
      flowMapping fuel context false ((k, v) :: done)

def flowValue : (fuel : Nat) → Compose Node
  | 0 => return .empty {}
  | fuel + 1 => do
    let t ← token
    if t.kind = .value then
      pop
      match (← token).kind with
      | .flowEntry | .flowMappingEnd => empty t.start
      | _ => node fuel false false
    else empty t.start

end

/-! ## Documents -/

/-- The content of a document after its mark. -/
def content (fuel : Nat) : Compose Node := do
  let t ← token
  match t.kind with
  | .versionDirective .. | .tagDirective .. | .documentStart | .documentEnd | .streamEnd =>
    empty t.start
  | _ => node fuel true false

def documentEnd : Compose Unit := do
  let _ ← token
  settle

/-- The first document of a stream, if there is one, and the token after it. -/
def document (fuel : Nat) : Compose (Option Node) := do
  let _ ← token
  pop
  settle
  let t ← token
  match t.kind with
  | .streamEnd =>
    settle
    return none
  | .versionDirective .. | .tagDirective .. | .documentStart =>
    directives fuel false
    let t ← token
    if t.kind ≠ .documentStart then
      refuse .noDocumentStart {} t.start
    pop
    settle
    let root ← content fuel
    documentEnd
    return some root
  | _ =>
    addDefaults
    settle
    let root ← node fuel true false
    documentEnd
    return some root

end Compose

/-- A document: its root, if there is one, and its anchored nodes by number. -/
structure Document where
  root? : Option Node
  anchored : List (Nat × Node)

namespace Document

def deref (d : Document) : Node → Node
  | .alias line name self target => (d.anchored.lookup target).getD (.alias line name self target)
  | n => n

/-- The tag of a node, or of the one that an alias stands for. -/
def shortTag (d : Document) (n : Node) : Tag :=
  match d.deref n with
  | .scalar _ tag _ | .sequence _ tag _ | .mapping _ tag _ => tag
  | .alias .. => .null

/-- The node can be merged: it is a mapping, or an alias to one. -/
def isMergeable (d : Document) (n : Node) : Bool :=
  match d.deref n with
  | .mapping .. => true
  | _ => false

end Document

/-! ## Mappings -/

/-- The pairs of a mapping's keys of which the later one repeats the earlier one. -/
def repeats : List (Node × Node) → List (Node × Node)
  | [] => []
  | (k, _) :: rest =>
    rest.filterMap (fun (l, _) => if k.sameKind l ∧ k.text = l.text then some (k, l) else none) ++
      repeats rest

def mergeValue? (es : List (Node × Node)) : Option Node :=
  (es.filter fun e => e.1.isMerge).getLast?.map (·.2)

/-- The nodes that are merged: those of a sequence, or a single one. -/
def mergedNodes : Node → List Node
  | .sequence _ _ items => items
  | n => [n]

/-! ## Reading -/

/-- Reads the first document of a stream. -/
def Document.read (s : Bytes) : Except Problem Document := do
  let stream := Stream.ofBytes s
  let cursor : Cursor := { rest := stream.chars, pieces := stream.pieces, bad? := stream.bad? }
  let fuel := 8 * (stream.chars.length + 8)
  let ((root?, r), _) ← ((Compose.document fuel).run {}).run cursor
  return { root?, anchored := r.nodes }

end StackTape.Yaml
