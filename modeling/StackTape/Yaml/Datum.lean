import StackTape.Text.Quoted
import StackTape.Yaml.Node

/-!
# Nodes as values

A node for which no use is known is read as it stands: a scalar by its tag, a sequence as a list, a
mapping as a dictionary. Reading counts its steps, and refuses a document of which too much comes
out of aliases. Keys have to be scalars.
-/

namespace StackTape.Yaml

/-! ## Values that are keys -/

namespace Value

/-- Two values are one key. -/
def same : Value → Value → Bool
  | .float x, .float y => x.same y
  | .timestamp s, .timestamp t => s.same t
  | v, w => v = w

/-- The kinds of values in the order in which keys are listed. -/
def rank : Value → Nat
  | .null => 0
  | .int n => if n < wordBound then 2 else 1
  | .float _ => 3
  | .bool _ => 4
  | .text _ => 5
  | .timestamp _ => 6

/-- A number that comes before another; not-a-number comes first. -/
def floatBefore : Real → Real → Bool
  | .nan, _ => true
  | .infinite negative, _ => negative
  | _, .infinite negative => !negative
  | .finite a m e, .finite b n f =>
    let scaled (m : Nat) (e : Int) : Int := (m <<< (e + 1074).toNat : Nat)
    (if a then -scaled m e else scaled m e) < (if b then -scaled n f else scaled n f)
  | _, .nan => false

/-- The value comes before another in a list of keys. -/
def before (v w : Value) : Bool :=
  if v.rank = w.rank then
    match v, w with
    | .int a, .int b => a < b
    | .float x, .float y => floatBefore x y
    | .bool a, .bool b => !a && b
    | .text s, .text t => s < t
    | _, _ => false
  else v.rank < w.rank

def shown : Value → Bytes
  | .null => ascii "interface \x7b\x7d(nil)"
  | .bool b => ascii (if b then "true" else "false")
  | .int n => if n < wordBound then decimalInt n else ascii "0x" ++ hex 16 n.toNat
  | .float x => x.text
  | .timestamp t => t.text
  | .text s => Quoted.quote s

end Value

/-! ## Values of nodes -/

/-- The value of a node. -/
inductive Datum
  | scalar (v : Value)
  | list (items : List Datum)
  /-- A dictionary, with its keys in order; `named` if they are all texts. -/
  | dict (named : Bool) (entries : List (Value × Datum))

namespace Datum

def typeName : Datum → Bytes
  | .scalar _ => []
  | .list _ => ascii "[]interface \x7b\x7d"
  | .dict true _ => ascii "map[string]interface \x7b\x7d"
  | .dict false _ => ascii "map[interface \x7b\x7d]interface \x7b\x7d"

def braced (parts : List Bytes) : Bytes := [0x7B] ++ joinWith (ascii ", ") parts ++ [0x7D]

mutual

def shown : Datum → Bytes
  | .scalar v => v.shown
  | .list items => typeName (.list []) ++ braced (shownItems items)
  | .dict named entries => typeName (.dict named []) ++ braced (shownEntries entries)

def shownItems : List Datum → List Bytes
  | [] => []
  | x :: rest => x.shown :: shownItems rest

def shownEntries : List (Value × Datum) → List Bytes
  | [] => []
  | (k, x) :: rest => (k.shown ++ [0x3A] ++ x.shown) :: shownEntries rest

end

def setEntry (k : Value) (x : Datum) : List (Value × Datum) → List (Value × Datum)
  | [] => [(k, x)]
  | (l, y) :: rest =>
    if k.same l then (l, x) :: rest
    else if k.before l then (k, x) :: (l, y) :: rest
    else (l, y) :: setEntry k x rest

end Datum

/-! ## Steps -/

/-- Why the nodes of a document cannot be read. -/
inductive Refusal
  /-- A scalar contradicts its tag. -/
  | scalar (b : BadScalar)
  /-- A node holds an alias to itself. -/
  | selfReference (anchor : Bytes)
  /-- Something else than a mapping is merged. -/
  | badMerge
  /-- Too much of the document comes out of aliases. -/
  | excessiveAliases
  /-- A collection is a key. -/
  | collectionKey (shown : Bytes)
  /-- A collection is a key where keys have to be compared. -/
  | incomparableKey (typeName : Bytes)
deriving DecidableEq, Repr

/-- How many nodes were read, and how many of them inside an alias. -/
structure Tally where
  steps : Nat := 0
  aliased : Nat := 0

namespace Tally

/-- The part of the steps that may be inside aliases, in units of `1 / allowanceUnit`: 99 of 100 up
to 400000 steps, then ever less, down to 10 of 100 from 4000000 steps on. -/
def allowance (steps : Nat) : Nat := 356400000 - 89 * (min steps 4000000 - 400000)

/-- The denominator of an allowance. -/
def allowanceUnit : Nat := 360000000

/-- Too many of the steps were inside aliases. -/
def isExcessive (t : Tally) : Bool :=
  100 < t.aliased && 1000 < t.steps && allowance t.steps * t.steps < t.aliased * allowanceUnit

end Tally

abbrev Visit := StateT Tally (Except Refusal)

namespace Visit

/-- Counts a step; `active` are the aliases being followed. -/
def step (active : List Nat) : Visit Unit := do
  let t ← get
  let t : Tally :=
    { steps := t.steps + 1, aliased := if active.isEmpty then t.aliased else t.aliased + 1 }
  set t
  if t.isExcessive then
    throw .excessiveAliases

def value (tag : Tag) (text : Bytes) : Visit Value :=
  match taggedValue tag text with
  | .ok v => return v
  | .error b => throw (.scalar b)

/-- Goes to a node, or to the one that an alias stands for; gives the aliases being followed there.
-/
def reach (d : Document) (active : List Nat) (n : Node) : Visit (Node × List Nat) := do
  step active
  match n with
  | .alias _ name self _ =>
    if active.contains self then
      throw (.selfReference name)
    step (self :: active)
    return (d.deref n, self :: active)
  | n => return (n, active)

/-- The text of a key that has to be a text; none for a null and for collections. -/
def keyText (d : Document) (active : List Nat) (k : Node) : Visit (Option Bytes) := do
  match (← reach d active k).1 with
  | .scalar _ tag text =>
    match ← value tag text with
    | .null => return none
    | .text s => return some s
    | _ => return some text
  | _ => return none

/-- Adds a key to those that are hidden, if any are. None if it is hidden already. -/
def hide? (hidden : Option (List Value)) (k : Value) : Option (Option (List Value)) :=
  match hidden with
  | none => some none
  | some ks => if ks.any k.same then none else some (some (k :: ks))

mutual

/-- The value of a node; none for a mapping that repeats a key. `hidden` are the keys that count as
set already in mappings on the way, none outside of a merge. -/
def datum (d : Document) : (fuel : Nat) → (active : List Nat) → (hidden : Option (List Value)) →
    Node → Visit (Option Datum × Option (List Value))
  | 0, _, hidden, _ => return (none, hidden)
  | fuel + 1, active, hidden, n => do
    let (n, active) ← reach d active n
    match n with
    | .scalar _ tag text => return (some (.scalar (← value tag text)), hidden)
    | .sequence _ _ items =>
      let mut hidden := hidden
      let mut data : List Datum := []
      for n in items do
        let (x, h) ← datum d fuel active hidden n
        hidden := h
        data := x.toList ++ data
      return (some (.list data.reverse), hidden)
    | .mapping _ _ es =>
      if !(repeats es).isEmpty then
        return (none, hidden)
      let named := es.all fun e => (d.shortTag e.1 = .str) || (d.shortTag e.1 = .merge)
      let (entries, hidden) ← dictionary d fuel active named hidden [] es
      return (some (.dict named entries), hidden)
    | .alias .. => return (none, hidden)

/-- Adds the entries of a mapping, and then of what it merges, to a dictionary. -/
def dictionary (d : Document) : (fuel : Nat) → (active : List Nat) → (named : Bool) →
    (hidden : Option (List Value)) → List (Value × Datum) → List (Node × Node) →
    Visit (List (Value × Datum) × Option (List Value))
  | 0, _, _, hidden, done, _ => return (done, hidden)
  | fuel + 1, active, named, hidden, done, es => do
    let mut hidden := hidden
    let mut done := done
    for (k, v) in es do
      if !k.isMerge then
        let key ← if named then do pure ((← keyText d active k).map fun s => Datum.scalar (.text s))
          else do pure (← datum d fuel active none k).1
        match key with
        | none => pure ()
        | some (.scalar key) =>
          match hide? hidden key with
          | none => pure ()
          | some h =>
            hidden := h
            match (← datum d fuel active none v).1 with
            | none => pure ()
            | some x => done := Datum.setEntry key x done
        | some key =>
          if hidden.isSome then
            throw (.incomparableKey key.typeName)
          throw (.collectionKey key.shown)
    match mergeValue? es with
    | none => return (done, hidden)
    | some m =>
      let mut seen ← match hidden with
        | some ks => pure ks
        | none => do pure (← keys d fuel active es).1
      for n in mergedNodes m do
        if !d.isMergeable n then
          throw .badMerge
        let (n, active) ← reach d active n
        match n with
        | .mapping _ _ es =>
          if (repeats es).isEmpty then
            let (dict, ks) ← dictionary d fuel active named (some seen) done es
            done := dict
            seen := ks.getD seen
        | _ => pure ()
      return (done, hidden.map fun _ => seen)

/-- The keys of a mapping, the last one first, and the nodes that are no key because they repeat
keys themselves. -/
def keys (d : Document) : (fuel : Nat) → (active : List Nat) → List (Node × Node) →
    Visit (List Value × List Node)
  | 0, _, _ => return ([], [])
  | fuel + 1, active, es => do
    let mut seen : List Value := []
    let mut refused : List Node := []
    for (k, _) in es do
      let (key, ks) ← datum d fuel active (some seen) k
      seen := ks.getD seen
      match key with
      | none => refused := refused ++ [d.deref k]
      | some (.scalar key) => seen := key :: seen
      | some key => throw (.incomparableKey key.typeName)
    return (seen, refused)

end

end Visit

end StackTape.Yaml
