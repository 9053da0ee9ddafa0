import StackTape.Text.Quoted

/-!
# Programs of the stack language

A program declares variables and then runs a list of instructions on a stack of bytes. Every
instruction has a `label`, the short mnemonic that listings and error messages show.
-/

namespace StackTape

/-- An instruction without operands. -/
inductive Basic
  /-- Sets the top to zero. -/
  | clear
  /-- Pushes a second copy of the top. -/
  | copy
  /-- Adds one to the top. -/
  | inc
  /-- Takes one from the top. -/
  | dec
  /-- Adds the top into the value below and drops it. -/
  | add
  /-- Takes the top from the value below and drops it. -/
  | sub
  /-- Multiplies the value below by the top and drops the top. -/
  | mul
  /-- Turns the top into one unless it is zero. -/
  | bool
  /-- Pushes the next input byte, zero at the end of the input. -/
  | read
  /-- Writes the top and drops it. -/
  | write
deriving DecidableEq, Repr

inductive Instr
  | basic (b : Basic)
  /-- Pushes a constant. -/
  | push (n : Int)
  /-- Adds a constant to the top. -/
  | addc (n : Int)
  /-- Takes a constant from the top. -/
  | subc (n : Int)
  /-- Pushes the value of a variable. -/
  | get (name : Bytes)
  /-- Moves the top into a variable. -/
  | set (name : Bytes)
  /-- Writes a constant text. -/
  | print (text : Bytes)
  /-- Runs a body that leaves the stack as high as it was. -/
  | stat (body : List Instr)
  /-- Runs `test`, which pushes one value, and then `body` once if that value is not zero; the value
  is dropped either way. -/
  | ifThen (test body : List Instr)
  /-- A value that is no instruction, known by the name of its type; it never compiles. -/
  | foreign (type : Bytes)
deriving Inhabited

/-- A program: its variables in order of declaration and its instructions. -/
structure Program where
  vars : List Bytes
  body : List Instr

namespace Basic

/-- The mnemonic of an instruction without operands. -/
def name : Basic → Bytes
  | .clear => ascii "clear"
  | .copy => ascii "copy"
  | .inc => ascii "inc"
  | .dec => ascii "dec"
  | .add => ascii "add"
  | .sub => ascii "sub"
  | .mul => ascii "mul"
  | .bool => ascii "bool"
  | .read => ascii "read"
  | .write => ascii "write"

def all : List Basic := [.clear, .copy, .inc, .dec, .add, .sub, .mul, .bool, .read, .write]

def ofName? (s : Bytes) : Option Basic := all.find? fun b => b.name = s

end Basic

/-- The short mnemonic of an instruction; a block shows only its keyword. -/
def Instr.label : Instr → Bytes
  | .basic b => b.name
  | .push n => ascii "push " ++ decimalInt n
  | .addc n => ascii "addc " ++ decimalInt n
  | .subc n => ascii "subc " ++ decimalInt n
  | .get x => ascii "get " ++ x
  | .set x => ascii "set " ++ x
  | .print t => ascii "print " ++ Quoted.quote t
  | .stat _ => ascii "stat"
  | .ifThen _ _ => ascii "if"
  | .foreign type => type

end StackTape
