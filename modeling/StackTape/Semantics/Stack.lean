import StackTape.Program.Instr

/-!
# What programs mean

A program runs on a stack of bytes without end, whose cells are numbered from the bottom. The first
cells belong to the variables, in order of declaration; the cell after them is the first top. All
arithmetic is modulo 256, and every cell above the top is zero.
-/

namespace StackTape

/-- The state of a running program. -/
structure Stack where
  /-- The value of each cell. -/
  cells : Nat → UInt8
  /-- The number of the top cell. -/
  depth : Nat
  input : Bytes
  output : Bytes

namespace Stack

/-- The state before the first instruction: all cells are zero, the top is above the variables. -/
def initial (vars : List Bytes) (input : Bytes) : Stack :=
  { cells := fun _ => 0, depth := vars.length, input, output := [] }

def top (s : Stack) : UInt8 := s.cells s.depth

def setCell (s : Stack) (i : Nat) (v : UInt8) : Stack :=
  { s with cells := fun j => if j = i then v else s.cells j }

def setTop (s : Stack) (v : UInt8) : Stack := s.setCell s.depth v

def push (s : Stack) (v : UInt8) : Stack := { s.setCell (s.depth + 1) v with depth := s.depth + 1 }

/-- Drops the top; its cell becomes zero. -/
def drop (s : Stack) : Stack := { s.setTop 0 with depth := s.depth - 1 }

/-- Drops the top and combines it with the value below. -/
def combine (s : Stack) (f : UInt8 → UInt8 → UInt8) : Stack := s.drop.setTop (f s.drop.top s.top)

def write (s : Stack) (b : Bytes) : Stack := { s with output := s.output ++ b }

end Stack

def Basic.run (s : Stack) : Basic → Stack
  | .clear => s.setTop 0
  | .copy => s.push s.top
  | .inc => s.setTop (s.top + 1)
  | .dec => s.setTop (s.top - 1)
  | .add => s.combine (· + ·)
  | .sub => s.combine (· - ·)
  | .mul => s.combine (· * ·)
  | .bool => s.setTop (if s.top = 0 then 0 else 1)
  | .read => { s with input := s.input.tail }.push (s.input.headD 0)
  | .write => (s.write [s.top]).drop

mutual

/-- Runs one instruction; the variables are those of the program. -/
def Instr.run (vars : List Bytes) (s : Stack) : Instr → Stack
  | .basic b => b.run s
  | .push n => s.push (UInt8.ofNat n.toNat)
  | .addc n => s.setTop (s.top + UInt8.ofNat n.toNat)
  | .subc n => s.setTop (s.top - UInt8.ofNat n.toNat)
  | .get x => s.push (s.cells (vars.idxOf x))
  | .set x => (s.setCell (vars.idxOf x) s.top).drop
  | .print t => s.write t
  | .stat body => runList vars s body
  | .ifThen test body =>
    let tested := runList vars s test
    if tested.top = 0 then tested.drop else (runList vars tested body).drop
  | .foreign _ => s

def runList (vars : List Bytes) (s : Stack) : List Instr → Stack
  | [] => s
  | x :: rest => runList vars (x.run vars s) rest

end

/-- Runs a program on an input. -/
def Program.run (p : Program) (input : Bytes) : Stack :=
  runList p.vars (.initial p.vars input) p.body

end StackTape
