import StackTape.Source.Tree

/-!
# From text to program

Reading a text has three steps: tokens, tree, and the values of the string literals, in the order
in which they are written.
-/

namespace StackTape.Source

/-- Adds a block around the literal of a fault. -/
def Fault.inBlock (pos : Position) (e : Enclosure) : Fault → Fault
  | .badString within p literal => .badString ((pos, e) :: within) p literal
  | f => f

/-- Adds a block around the literal of a fault, if there is one. -/
def inBlock {α : Type} (pos : Position) (e : Enclosure) : Except Fault α → Except Fault α
  | .ok a => .ok a
  | .error f => .error (f.inBlock pos e)

mutual

def Item.instr : Item → Except Fault Instr
  | .leaf _ x => .ok x
  | .print pos literal =>
    match Quoted.unquote literal with
    | some text => .ok (.print text)
    | none => .error (.badString [] pos literal)
  | .stat pos body => .stat <$> inBlock pos .stat (instrs body)
  | .ifThen pos test body => do
    let test ← inBlock pos .test (instrs test)
    let body ← inBlock pos .body (instrs body)
    return .ifThen test body

def instrs : List Item → Except Fault (List Instr)
  | [] => .ok []
  | x :: rest => do
    let x ← x.instr
    let rest ← instrs rest
    return x :: rest

end

/-- The program that a text stands for. -/
def parse (text : Bytes) : Except Fault Program :=
  match tokens text with
  | .error u => .error (.unreadable u)
  | .ok ts => do
    let (vars, body) ← file (Position.advance {} text) (ts.filter Token.isSignificant)
    let body ← instrs body
    return { vars, body }

end StackTape.Source
