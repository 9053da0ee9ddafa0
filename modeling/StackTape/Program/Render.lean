import StackTape.Program.Instr

/-!
# Programs as text

The source text of a program: the declarations, then every instruction by its label, blocks in
braces, all divided by single spaces.
-/

namespace StackTape

mutual

def Instr.words : Instr → List Bytes
  | .stat body => [ascii "stat", [0x7B]] ++ wordsList body ++ [[0x7D]]
  | .ifThen test body =>
    [ascii "if", [0x7B]] ++ wordsList test ++ [[0x7D], ascii "then", [0x7B]] ++ wordsList body ++
      [[0x7D]]
  | x => [x.label]

def wordsList : List Instr → List Bytes
  | [] => []
  | x :: rest => x.words ++ wordsList rest

end

/-- The words that declare variables; without variables there are none. -/
def declarationWords : List Bytes → List Bytes
  | [] => []
  | vars => [ascii "let " ++ joinWith (ascii " ") vars ++ ascii ";"]

def Program.render (p : Program) : Bytes :=
  joinWith (ascii " ") (declarationWords p.vars ++ wordsList p.body)

end StackTape
