import StackTape.Program.Instr

/-!
# Programs without `stat`

A `stat` block only promises to leave the stack as high as it was, so its instructions can stand in
its place.
-/

namespace StackTape

mutual

/-- The instructions that stand for one instruction when every `stat` is opened. -/
def Instr.flatten : Instr → List Instr
  | .stat body => flattenList body
  | .ifThen test body => [.ifThen (flattenList test) (flattenList body)]
  | x => [x]

/-- A list of instructions with every `stat` opened, at all levels. -/
def flattenList : List Instr → List Instr
  | [] => []
  | x :: rest => x.flatten ++ flattenList rest

end

end StackTape
