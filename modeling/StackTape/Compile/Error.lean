import StackTape.Program.Instr
import StackTape.Tape.Fragment

/-!
# Why a program does not compile

A refusal has a cause and the path of blocks and instructions that leads to it, outermost first.
-/

namespace StackTape

inductive Cause
  /-- A name that is not declared. -/
  | undefinedVariable (name : Bytes)
  /-- An instruction that takes more values than the stack has. -/
  | negativeDepth (label : Bytes) (depth : Nat) (delta : Int)
  /-- A `stat` body that changes the height of the stack. -/
  | imbalance (before after : Nat)
  /-- A test that does not push exactly one value. -/
  | testDepth (before after : Nat)
  /-- A conditional body that changes the height of the stack. -/
  | bodyDepth (before after : Nat)
  /-- A name declared twice. -/
  | duplicateVariable (name : Bytes)
  /-- A variable whose cell is not below the top of the stack. -/
  | outOfReach (name : Bytes) (slot depth : Nat)
  /-- A negative operand; `label` is the whole instruction. -/
  | negativeConstant (label : Bytes)
  /-- A value that is no instruction. -/
  | unsupported (type : Bytes)
  /-- There is no program at all. -/
  | noProgram
deriving DecidableEq, Repr

def Cause.message : Cause → Bytes
  | .undefinedVariable name => Quoted.quote name ++ ascii ": undefined variable"
  | .negativeDepth label depth delta =>
    label ++ ascii ": depth " ++ decimal depth ++ ascii ", delta " ++ decimalInt delta ++
      ascii ": negative stack depth"
  | .imbalance before after =>
    ascii "stat: depth " ++ decimal before ++ ascii " -> " ++ decimal after ++
      ascii ": stack imbalance"
  | .testDepth before after =>
    ascii "if: depth " ++ decimal before ++ ascii " -> " ++ decimal after ++
      ascii ": condition must push exactly one value"
  | .bodyDepth before after =>
    ascii "then: depth " ++ decimal before ++ ascii " -> " ++ decimal after ++
      ascii ": then block must not change stack depth"
  | .duplicateVariable name => ascii "let " ++ name ++ ascii ": duplicate variable"
  | .outOfReach name slot depth =>
    name ++ ascii ": slot " ++ decimal slot ++ ascii ", depth " ++ decimal depth ++
      ascii ": variable is not below stack top"
  | .negativeConstant label => label ++ ascii ": negative constant"
  | .unsupported type => type ++ ascii ": unsupported instruction"
  | .noProgram => ascii "nil program"

inductive PathStep
  /-- The instruction at an index of its list. -/
  | instr (index : Nat) (label : Bytes)
  /-- The body of a `stat`. -/
  | stat
  /-- The test of a conditional. -/
  | test
  /-- The body of a conditional. -/
  | body
deriving DecidableEq, Repr

def PathStep.text : PathStep → Bytes
  | .instr index label => ascii "instr " ++ decimal index ++ ascii " (" ++ label ++ ascii ")"
  | .stat => ascii "stat"
  | .test => ascii "cond"
  | .body => ascii "then"

inductive CompileError
  /-- The program is refused. -/
  | refused (path : List PathStep) (cause : Cause)
  /-- The listing cannot be laid out. -/
  | layout (fault : RepeatFault)
deriving DecidableEq, Repr

namespace CompileError

/-- The same error seen from one step further out. -/
def within (step : PathStep) : CompileError → CompileError
  | .refused path cause => .refused (step :: path) cause
  | .layout fault => .layout fault

/-- The wording of an error: the path, then the cause. -/
def message : CompileError → Bytes
  | .refused path cause => path.flatMap (fun s => s.text ++ ascii ": ") ++ cause.message
  | .layout fault => fault.message

end CompileError

end StackTape
