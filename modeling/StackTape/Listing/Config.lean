import StackTape.Listing.Options
import StackTape.Yaml.Datum

/-!
# Options files

Listing options can be set in a YAML document: a mapping with the keys `comments`, `indent` and
`label_width`, all of them optional; other keys are passed over. The keys of merged mappings count
after the mapping's own. Values of a wrong type are collected, so one reading reports all of them.
Widths must not be negative in the end.
-/

namespace StackTape.Config

open Yaml

/-- What a node is read into. -/
inductive Target
  | options
  | key
  | truth
  | width
deriving DecidableEq, Repr

def Target.text : Target → Bytes
  | .options => ascii "format.Options"
  | .key => ascii "string"
  | .truth => ascii "bool"
  | .width => ascii "int"

/-- An option that a document can set. -/
inductive Field
  | comments
  | indent
  | labelWidth
deriving DecidableEq, Repr

namespace Field

/-- The key of an option. -/
def name : Field → Bytes
  | .comments => ascii "comments"
  | .indent => ascii "indent"
  | .labelWidth => ascii "label_width"

def ofName? (s : Bytes) : Option Field :=
  [Field.comments, .indent, .labelWidth].find? fun f => f.name = s

end Field

/-- A fault that does not end the reading. -/
inductive Mistake
  /-- A node of the wrong type. -/
  | mistyped (line : Nat) (tag : Tag) (text : Bytes) (target : Target)
  /-- A key written twice. -/
  | duplicateKey (line : Nat) (key : Bytes) (before : Nat)
  /-- An option set by two keys that are written differently. -/
  | alreadySet (line : Nat) (field : Field)
deriving DecidableEq, Repr

/-- The text of a node in a message, cut if it is longer than ten bytes. -/
def cited (text : Bytes) : Bytes :=
  ascii " `" ++ (if 10 < text.length then text.take 7 ++ ascii "..." else text) ++ ascii "`"

def Mistake.message : Mistake → Bytes
  | .mistyped line tag text target =>
    ascii "line " ++ decimal line ++ ascii ": cannot unmarshal " ++ tag.text ++
      (if tag = .seq ∨ tag = .map then text else cited text) ++ ascii " into " ++ target.text
  | .duplicateKey line key before =>
    ascii "line " ++ decimal line ++ ascii ": mapping key " ++ Quoted.quote key ++
      ascii " already defined at line " ++ decimal before
  | .alreadySet line field =>
    ascii "line " ++ decimal line ++ ascii ": field " ++ field.name ++
      ascii " already set in type format.Options"

/-- Why a file holds no options. -/
inductive Error
  /-- It is no document. -/
  | document (p : Problem)
  /-- Its nodes cannot be read. -/
  | refused (r : Refusal)
  /-- Some nodes are of the wrong type. -/
  | mistakes (ms : List Mistake)
  /-- A width is negative. -/
  | negativeWidth (indent labelWidth : Int)
deriving DecidableEq, Repr

/-- The wording of an error in the named file. Incomparable keys are a fault of the reading, not of
the file. -/
def Error.message (file : Bytes) : Error → Bytes
  | .document p => yaml p.message
  | .refused (.scalar b) => yaml b.message
  | .refused (.selfReference anchor) =>
    yaml (ascii "anchor '" ++ anchor ++ ascii "' value contains itself")
  | .refused .badMerge => yaml (ascii "map merge requires map or sequence of maps as the value")
  | .refused .excessiveAliases => yaml (ascii "document contains excessive aliasing")
  | .refused (.collectionKey shown) => yaml (ascii "invalid map key: " ++ shown)
  | .refused (.incomparableKey typeName) =>
    ascii "runtime error: hash of unhashable type " ++ typeName
  | .mistakes ms =>
    yaml (ascii "unmarshal errors:" ++ ms.flatMap fun m => ascii "\n  " ++ m.message)
  | .negativeWidth indent labelWidth =>
    ascii "negative width: indent " ++ decimalInt indent ++ ascii ", label " ++
      decimalInt labelWidth
where
  /-- A message about the document. -/
  yaml (text : Bytes) : Bytes := ascii "decode " ++ file ++ ascii ": yaml: " ++ text

/-! ## Decoding -/

/-- The options so far, the mistakes found, the last one first, and the steps taken. -/
structure State where
  options : Options
  mistakes : List Mistake := []
  tally : Tally := {}

/-- Reading options from a document. -/
abbrev Decode := StateT State (Except Error)

def visit {α : Type} (v : Visit α) : Decode α := fun s =>
  match v.run s.tally with
  | .ok (a, tally) => .ok (a, { s with tally })
  | .error r => .error (.refused r)

def note (m : Mistake) : Decode Unit := modify fun s => { s with mistakes := m :: s.mistakes }

/-- Notes repeated keys, and says whether there are any. -/
def noteRepeats (entries : List (Node × Node)) : Decode Bool := do
  let found := repeats entries
  found.forM fun (k, l) => note (.duplicateKey l.line l.text k.line)
  return !found.isEmpty

/-- Notes that a node is of the wrong type for its target. -/
def mistyped (n : Node) (target : Target) : Decode Unit :=
  match n with
  | .scalar line tag text => note (.mistyped line tag text target)
  | .sequence line tag _ => note (.mistyped line tag [] target)
  | .mapping line tag entries => do
    if !(← noteRepeats entries) then
      note (.mistyped line tag [] target)
  | .alias .. => return

/-- The text of a key; none for a null and for collections. -/
def keyText (d : Document) (active : List Nat) (k : Node) : Decode (Option Bytes) := do
  let key ← visit (Visit.keyText d active k)
  match d.deref k with
  | .scalar .. => return key
  | n =>
    mistyped n .key
    return key

/-- Words that stand for truth values besides the standard ones. -/
def truthWord? (s : Bytes) : Option Bool :=
  if ["y", "Y", "yes", "on"].any fun w => ascii w = s then some true
  else if ["n", "N", "no", "off"].any fun w => ascii w = s then some false
  else none

/-- The truth value that a value gives. -/
def truth? : Value → Option Bool
  | .bool b => some b
  | .text s => truthWord? s
  | _ => none

/-- The width that a value gives: an integer in range, or the whole part of a fraction that is not
above the range; one below it gives the least width. -/
def width? : Value → Option Int
  | .int n => if n < wordBound then some n else none
  | .float (.infinite true) => some (-wordBound)
  | .float x => x.whole?.bind fun n =>
    if wordBound < n then none
    else if n = wordBound ∨ n < -wordBound then some (-wordBound)
    else some n
  | _ => none

/-- Sets an option to a value; none if it is of the wrong type. -/
def setField? (o : Options) (v : Value) : Field → Option Options
  | .comments => (truth? v).map fun b => { o with comments := b }
  | .indent => (width? v).map fun n => { o with indent := n }
  | .labelWidth => (width? v).map fun n => { o with labelWidth := n }

def Field.target : Field → Target
  | .comments => .truth
  | .indent | .labelWidth => .width

/-- Reads an option; a null leaves it as it is. -/
def field (d : Document) (active : List Nat) (f : Field) (n : Node) : Decode Unit := do
  match (← visit (Visit.reach d active n)).1 with
  | .scalar line tag text =>
    let v ← visit (Visit.value tag text)
    if v ≠ .null then
      match setField? (← get).options v f with
      | some options => modify fun s => { s with options }
      | none => mistyped (.scalar line tag text) f.target
  | n => mistyped n f.target

/-- Reads the entries of a mapping. `hidden` are the keys that the mappings around it have set, none
outside of a merge; `done` are the options that this mapping has set. -/
def entries (d : Document) (active : List Nat) : (hidden : Option (List Value)) →
    (done : List Field) → List (Node × Node) → Decode (Option (List Value))
  | hidden, _, [] => return hidden
  | hidden, done, (k, v) :: rest => do
    if k.isMerge then
      entries d active hidden done rest
    else
      match ← keyText d active k with
      | none => entries d active hidden done rest
      | some key =>
        match Visit.hide? hidden (.text key) with
        | none => entries d active hidden done rest
        | some hidden =>
          match Field.ofName? key with
          | none => entries d active hidden done rest
          | some f =>
            if done.contains f then
              note (.alreadySet k.line f)
              entries d active hidden done rest
            else
              field d active f v
              entries d active hidden (f :: done) rest

/-- The keys of a mapping; those that repeat keys themselves are mistakes. -/
def keys (d : Document) (fuel : Nat) (active : List Nat) (es : List (Node × Node)) :
    Decode (List Value) := do
  let (ks, refused) ← visit (Visit.keys d fuel active es)
  for n in refused do
    match n with
    | .mapping _ _ es => let _ ← noteRepeats es
    | _ => pure ()
  return ks

/-- Reads a mapping and then what it merges. `active` are the aliases being followed. -/
def mapping (d : Document) : (fuel : Nat) → (active : List Nat) → (hidden : Option (List Value)) →
    List (Node × Node) → Decode (Option (List Value))
  | 0, _, hidden, _ => return hidden
  | fuel + 1, active, hidden, es => do
    if ← noteRepeats es then
      return hidden
    let hidden ← entries d active hidden [] es
    match mergeValue? es with
    | none => return hidden
    | some m =>
      let mut seen ← match hidden with
        | some ks => pure ks
        | none => keys d fuel active es
      for n in mergedNodes m do
        if !d.isMergeable n then
          throw (.refused .badMerge)
        let (n, active) ← visit (Visit.reach d active n)
        match n with
        | .mapping _ _ es => seen := (← mapping d fuel active (some seen) es).getD seen
        | _ => pure ()
      return hidden.map fun _ => seen

def root (d : Document) (fuel : Nat) (n : Node) : Decode Unit := do
  visit (Visit.step [])
  match (← visit (Visit.reach d [] n)).1 with
  | .mapping _ _ es =>
    let _ ← mapping d fuel [] none es
  | .scalar line tag text =>
    if (← visit (Visit.value tag text)) ≠ .null then
      mistyped (.scalar line tag text) .options
  | n => mistyped n .options

/-- The options that a document sets, on top of the standard ones. -/
def ofDocument (fuel : Nat) (d : Document) : Except Error Options :=
  match d.root? with
  | none => .ok .standard
  | some n => do
    let (_, s) ← (root d fuel n).run { options := .standard }
    if s.mistakes.isEmpty then return s.options else throw (.mistakes s.mistakes.reverse)

def read (text : Bytes) : Except Error Options :=
  match Document.read text with
  | .error p => .error (.document p)
  | .ok d => do
    let o ← ofDocument ((text.length + 2) * (text.length + 2)) d
    if o.indent < 0 ∨ o.labelWidth < 0 then throw (.negativeWidth o.indent o.labelWidth)
    else return o

end StackTape.Config
