import StackTape.Compile.Scope
import StackTape.Source.Parse

/-!
# Compiling texts
-/

namespace StackTape

inductive TextError
  /-- The text is no program. -/
  | source (fault : Source.Fault)
  /-- The program is refused. -/
  | program (error : CompileError)
deriving DecidableEq, Repr

/-- The wording of an error of the named text. A listing that cannot be laid out is reported
without context. -/
def TextError.message (file : Bytes) : TextError → Bytes
  | .source fault => ascii "parse text: " ++ fault.message file
  | .program (.layout fault) => fault.message
  | .program error => ascii "compile: " ++ error.message

def compileText (o : Options) (text : Bytes) : Except TextError Bytes :=
  match Source.parse text with
  | .error fault => .error (.source fault)
  | .ok p =>
    match Compile.program o (some p) with
    | .error e => .error (.program e)
    | .ok code => .ok code

end StackTape
