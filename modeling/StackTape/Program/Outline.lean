import StackTape.Program.Instr

/-!
# Outlines

The instruction tree of a program, one label on a line, indented by one tab for every enclosing
block. The two parts of a conditional are divided by a line `then` at its own level.
-/

namespace StackTape

mutual

/-- The lines of one instruction at nesting level `level`. -/
def Instr.outline (level : Nat) : Instr → Bytes
  | .stat body =>
    List.replicate level 0x09 ++ ascii "stat\n" ++ outlineList (level + 1) body
  | .ifThen test body =>
    List.replicate level 0x09 ++ ascii "if\n" ++ outlineList (level + 1) test ++
      List.replicate level 0x09 ++ ascii "then\n" ++ outlineList (level + 1) body
  | x => List.replicate level 0x09 ++ x.label ++ [0x0A]

/-- The lines of a list of instructions at nesting level `level`. -/
def outlineList (level : Nat) : List Instr → Bytes
  | [] => []
  | x :: rest => x.outline level ++ outlineList level rest

end

/-- The variables of a program on one line, then its instruction tree. -/
def Program.outline (p : Program) : Bytes :=
  ascii "vars: [" ++ joinWith (ascii " ") p.vars ++ ascii "]\n" ++ outlineList 0 p.body

end StackTape
