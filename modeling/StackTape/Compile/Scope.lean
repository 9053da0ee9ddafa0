import StackTape.Compile.Error
import StackTape.Listing.Options

/-!
# Compiling programs

The stack lies on the tape, its top under the pointer, and every variable has the cell of its
declaration: the first one cell 0, the next cell 1, and so on. The compiler tracks the stack depth,
so it knows the distance from the top to each variable, and it refuses a program whose depth would
become negative or differ between the paths of a block.
-/

namespace StackTape

namespace Basic

/-- The code of an instruction without operands. -/
def fragment : Basic → Block
  | .clear => Fragment.clear
  | .copy => Fragment.copy
  | .inc => Fragment.inc
  | .dec => Fragment.dec
  | .add => Fragment.add
  | .sub => Fragment.sub
  | .mul => Fragment.mul
  | .bool => Fragment.bool
  | .read => Fragment.read
  | .write => Fragment.write

/-- How an instruction without operands changes the stack depth. -/
def delta : Basic → Int
  | .clear | .inc | .dec | .bool => 0
  | .copy | .read => 1
  | .add | .sub | .mul | .write => -1

end Basic

namespace Compile

/-- Code text and the stack depth after it. -/
abbrev Output := Except CompileError (Bytes × Nat)

/-- What stays fixed while a body is compiled: the layout and the variables in order of their
cells. -/
structure Context where
  options : Options
  vars : List Bytes

def refuse {α : Type} (c : Cause) : Except CompileError α := .error (.refused [] c)

/-- Adds a step to the path of an error. -/
def inStep {α : Type} (step : PathStep) : Except CompileError α → Except CompileError α
  | .ok a => .ok a
  | .error e => .error (e.within step)

/-- Lifts a piece of the listing. -/
def layout {α : Type} : Except RepeatFault α → Except CompileError α
  | .ok a => .ok a
  | .error f => .error (.layout f)

/-- One line of code that changes the depth by `delta`. -/
def emit (o : Options) (level depth : Nat) (label code : Bytes) (delta : Int) : Output :=
  if depth + delta < 0 then refuse (.negativeDepth label depth delta)
  else do
    let text ← layout (Listing.line o level label code (depth + delta))
    return (text, (depth + delta).toNat)

/-- The code of an instruction with a constant operand, which must not be negative. -/
def emitConstant (o : Options) (level depth : Nat) (label : Bytes) (n : Int) (code : Block)
    (delta : Int) : Output :=
  if n < 0 then refuse (.negativeConstant label) else emit o level depth label code.text delta

/-- The code of an access to a variable, whose cell must be at least `least` below the top. -/
def emitAccess (c : Context) (level depth : Nat) (label name : Bytes) (least : Nat)
    (code : Nat → Block) (delta : Int) : Output :=
  match c.vars.idxOf? name with
  | none => refuse (.undefinedVariable name)
  | some slot =>
    if depth < slot + least then refuse (.outOfReach name slot depth)
    else emit c.options level depth label (code (depth - slot)).text delta

mutual

/-- The code of one instruction at a nesting level and stack depth. -/
def instr (c : Context) (level depth : Nat) : Instr → Output
  | .basic b => emit c.options level depth b.name b.fragment.text b.delta
  | .push n =>
    emitConstant c.options level depth (Instr.push n).label n (Fragment.push n) 1
  | .addc n =>
    emitConstant c.options level depth (Instr.addc n).label n (Fragment.number n) 0
  | .subc n =>
    emitConstant c.options level depth (Instr.subc n).label n (Fragment.lessen n) 0
  | .get x =>
    emitAccess c level depth (Instr.get x).label x 0 (fun n => Fragment.get n) 1
  | .set x =>
    emitAccess c level depth (Instr.set x).label x 1 (fun n => Fragment.set n) (-1)
  | .print t => emit c.options level depth (Instr.print t).label (Fragment.say t).text 0
  | .stat body => do
    let (code, after) ← inStep .stat (list c (level + 1) depth 0 body)
    if after ≠ depth then refuse (.imbalance depth after)
    let stop ← layout (Listing.mark c.options level (ascii "end stat"))
    emit c.options level depth (ascii "stat") (Listing.lineBreak c.options ++ code ++ stop) 0
  | .ifThen test body => do
    let (testCode, tested) ← inStep .test (list c (level + 1) depth 0 test)
    if tested ≠ depth + 1 then refuse (.testDepth depth tested)
    let (bodyCode, after) ← inStep .body (list c (level + 1) tested 0 body)
    if after ≠ tested then refuse (.bodyDepth tested after)
    let middle ← layout (Listing.mark c.options level (ascii "then"))
    let stop ← layout (Listing.mark c.options level (ascii "end if"))
    emit c.options level depth (ascii "if")
      (Listing.lineBreak c.options ++ testCode ++ middle ++ [Symbol.enter.byte] ++
        Listing.lineBreak c.options ++ bodyCode ++ stop ++ Fragment.clear.text ++
        [Symbol.leave.byte] ++ (Fragment.left 1).text) 0
  | .foreign type => refuse (.unsupported type)

/-- The code of a list of instructions, the first of which has the given index. -/
def list (c : Context) (level depth index : Nat) : List Instr → Output
  | [] => .ok ([], depth)
  | x :: rest => do
    let (code, next) ← inStep (.instr index x.label) (instr c level depth x)
    let (more, after) ← list c level next (index + 1) rest
    return (code ++ more, after)

end

/-- The code that reserves a cell for each variable, after those in `seen`. -/
def declare (o : Options) : (seen vars : List Bytes) → Except CompileError Bytes
  | _, [] => .ok []
  | seen, x :: rest =>
    if x ∈ seen then refuse (.duplicateVariable x)
    else do
      let (code, _) ← emit o 0 seen.length (ascii "let " ++ x) (Fragment.right 1).text 1
      let more ← declare o (x :: seen) rest
      return code ++ more

/-- The code of a scope and the stack depth at its end: the declarations, then the body. The depth
left at the end is free. -/
def scope (o : Options) (vars : List Bytes) (body : List Instr) : Output := do
  let declared ← declare o [] vars
  let (code, depth) ← list ⟨o, vars⟩ 0 vars.length 0 body
  return (declared ++ Listing.lineBreak o ++ code, depth)

def program (o : Options) : Option Program → Except CompileError Bytes
  | none => refuse .noProgram
  | some p => (·.1) <$> scope o p.vars p.body

end Compile

end StackTape
