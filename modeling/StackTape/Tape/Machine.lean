import StackTape.Tape.Brackets
import StackTape.Text.Word

/-!
# The tape machine

A tape of bytes, a pointer and a limit on the number of steps. `Machine.run` executes a code text;
every byte of it costs one step, comments too. A run ends with a `Verdict` and leaves the tape and
the pointer as they were when it stopped.
-/

namespace StackTape

inductive Verdict
  /-- The end of the code was reached. -/
  | done
  /-- The code was not run: the bracket at `pos` has no partner. -/
  | unmatched (pos : Nat)
  /-- The symbol at `pos` moved the pointer to `ptr`, outside the tape. -/
  | outOfRange (pos : Nat) (ptr : Int)
  /-- The step limit was reached before the symbol at `pos`. -/
  | tooLong (pos : Nat)
  /-- A cell outside a tape of `size` cells was used. -/
  | badIndex (index : Int) (size : Nat)
deriving DecidableEq, Repr

namespace Verdict

def badIndexMessage (index : Int) (size : Nat) : Bytes :=
  ascii "runtime error: index out of range [" ++ decimalInt index ++ ascii "]" ++
    if index < 0 then [] else ascii " with length " ++ decimal size

/-- The wording of a verdict; none after a complete run. -/
def message? : Verdict → Option Bytes
  | .done => none
  | .unmatched pos => some (ascii "at " ++ decimal pos ++ ascii ": unmatched bracket")
  | .outOfRange pos ptr =>
    some (ascii "at " ++ decimal pos ++ ascii ": ptr " ++ decimalInt ptr ++
      ascii ": pointer out of range")
  | .tooLong pos => some (ascii "at " ++ decimal pos ++ ascii ": step limit exceeded")
  | .badIndex index size => some (badIndexMessage index size)

end Verdict

/-- What the symbols act on: tape, pointer, remaining input and output so far. -/
structure Store where
  tape : Array UInt8
  ptr : Int
  input : Bytes
  output : Array UInt8
deriving DecidableEq, Repr

namespace Store

/-- The pointer is on the tape. -/
def inRange (s : Store) : Bool := 0 ≤ s.ptr && s.ptr < s.tape.size

/-- The current cell; none when the pointer is outside the tape. -/
def cell? (s : Store) : Option UInt8 := if 0 ≤ s.ptr then s.tape[s.ptr.toNat]? else none

def setCell (s : Store) (v : UInt8) : Store :=
  { s with tape := s.tape.setIfInBounds s.ptr.toNat v }

/-- Moves the pointer. On the tape it moves freely; outside it is a word that wraps around. -/
def move (s : Store) (d : Int) : Store :=
  { s with ptr := if s.inRange then s.ptr + d else wrap64 (s.ptr + d) }

/-- The value of the current cell, zero outside the tape. -/
def cell (s : Store) : UInt8 := s.cell?.getD 0

/-- The effect of one action. At the end of the input a zero is read. -/
def act (s : Store) : Act → Store
  | .inc => s.setCell (s.cell + 1)
  | .dec => s.setCell (s.cell - 1)
  | .left => s.move (-1)
  | .right => s.move 1
  | .put => { s with output := s.output.push s.cell }
  | .take => { s with input := s.input.tail }.setCell (s.input.headD 0)

end Store

/-- Runs the code from position `pc` for at most `fuel` steps. -/
def exec (code : Array UInt8) (jumps : JumpTable) : (fuel pc : Nat) → Store → Verdict × Store
  | 0, pc, s => if pc < code.size then (.tooLong pc, s) else (.done, s)
  | fuel + 1, pc, s =>
    match code[pc]? with
    | none => (.done, s)
    | some b =>
      match Symbol.ofByte? b with
      | none => exec code jumps fuel (pc + 1) s
      | some (.act a) =>
        if a.usesCell && s.cell?.isNone then (.badIndex s.ptr s.tape.size, s)
        else
          let s' := s.act a
          if s'.inRange then exec code jumps fuel (pc + 1) s' else (.outOfRange pc s'.ptr, s')
      | some .enter =>
        match s.cell? with
        | none => (.badIndex s.ptr s.tape.size, s)
        | some v =>
          exec code jumps fuel ((if v = 0 then (jumps.partner? pc).getD pc else pc) + 1) s
      | some .leave =>
        match s.cell? with
        | none => (.badIndex s.ptr s.tape.size, s)
        | some v =>
          exec code jumps fuel ((if v = 0 then pc else (jumps.partner? pc).getD pc) + 1) s

/-- A tape machine between runs. -/
structure Machine where
  tape : Array UInt8
  ptr : Int := 0
  /-- The step limit of a run; zero stands for ten million. -/
  steps : Int := 0
deriving DecidableEq, Repr

namespace Machine

/-- A machine with a zero tape of `size` cells. -/
def fresh (size : Nat) : Machine := { tape := Array.replicate size 0 }

/-- The number of cells of a machine when nothing else is asked for. -/
def standardSize : Nat := 30000

/-- The number of steps that a run may take. The count is a word that is lowered before each step
and stops the run once it is negative. -/
def limit (m : Machine) : Nat :=
  if m.steps = 0 then 10000000 else (wrap64 (m.steps - 1) + 1).toNat

/-- The end of a run: how it ended, what it wrote, and the machine after it. -/
structure Result where
  verdict : Verdict
  output : Bytes
  machine : Machine
deriving DecidableEq, Repr

/-- Runs a code text on an input. -/
def run (m : Machine) (code input : Bytes) : Result :=
  match JumpTable.ofCode code with
  | .error pos => { verdict := .unmatched pos, output := [], machine := m }
  | .ok jumps =>
    let (verdict, s) := exec code.toArray jumps m.limit 0
      { tape := m.tape, ptr := m.ptr, input, output := #[] }
    { verdict, output := s.output.toList, machine := { m with tape := s.tape, ptr := s.ptr } }

end Machine

/-- Runs a code text on a fresh machine of the standard size. -/
def runFresh (code input : Bytes) : Machine.Result :=
  (Machine.fresh Machine.standardSize).run code input

end StackTape
