import StackTape.Cli.Run

/-!
# The program
-/

namespace StackTape

def readFile (name : Bytes) : IO Content := do
  match String.fromUTF8? ⟨name.toArray⟩ with
  | none => return .error (.notFound name)
  | some path =>
    try
      let content ← IO.FS.readBinFile path
      return .ok content.toList
    catch
      | .noFileOrDirectory .. => return .error (.notFound name)
      | .inappropriateType .. => return .error (.isDirectory name)
      | e => return .error (.other name e.toString.toUTF8.toList)

end StackTape

open StackTape in
def main (args : List String) : IO UInt32 := do
  let outcome ← Cli.run readFile (args.map fun a => a.toUTF8.toList)
  (← IO.getStdout).write ⟨outcome.stdout.toArray⟩
  (← IO.getStderr).write ⟨outcome.stderr.toArray⟩
  return UInt32.ofNat outcome.exit
