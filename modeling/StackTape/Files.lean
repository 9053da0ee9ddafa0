import StackTape.Text.Bytes

/-!
# Files

What reading a file can give. Programs and options are read through a function from names to
contents, so nothing here depends on a real file system.
-/

namespace StackTape

inductive FileError
  | notFound (name : Bytes)
  | isDirectory (name : Bytes)
  /-- Any other failure, with the wording of the system. -/
  | other (name reason : Bytes)
deriving DecidableEq, Repr

def FileError.message : FileError → Bytes
  | .notFound name => ascii "open " ++ name ++ ascii ": no such file or directory"
  | .isDirectory name => ascii "read " ++ name ++ ascii ": is a directory"
  | .other name reason => ascii "open " ++ name ++ ascii ": " ++ reason

/-- The content of a file, or why there is none. -/
abbrev Content := Except FileError Bytes

/-- Why a file cannot be used: it cannot be read, or its content is refused. -/
inductive LoadError (ε : Type)
  | file (e : FileError)
  | content (e : ε)

namespace LoadError

variable {ε : Type}

/-- The wording of an error, given the wording of refused contents. -/
def message (wording : ε → Bytes) : LoadError ε → Bytes
  | .file e => ascii "read file: " ++ e.message
  | .content e => wording e

end LoadError

def load {ε α : Type} (use : Bytes → Except ε α) : Content → Except (LoadError ε) α
  | .error e => .error (.file e)
  | .ok text =>
    match use text with
    | .error e => .error (.content e)
    | .ok a => .ok a

/-! ## Folders -/

/-- A folder: its files, each with its name and content. A name with slashes is that of a file in a
folder of this one. -/
structure Folder where
  files : List (Bytes × Bytes)

/-- What a path leads to. -/
inductive Place
  | file (text : Bytes)
  /-- A folder of this one, by the names that lead to it. -/
  | inside (path : List Bytes)
  /-- A folder around this one, of whose files nothing is known. -/
  | around

namespace Folder

/-- The longest name of a file, in bytes. -/
def maxName : Nat := 255

/-- The longest path, in bytes. -/
def maxPath : Nat := 4095

/-- The steps of a path: its parts between slashes, without empty ones and single dots. -/
def steps (name : Bytes) : List Bytes :=
  (name.splitOn 0x2F).filter fun s => s ≠ [] ∧ s ≠ ascii "."

/-- The path can only lead to a folder. -/
def namesFolder (name : Bytes) : Bool :=
  name.getLast? = some 0x2F || (ascii "/.").isSuffixOf name

/-- What names lead to, if they lead to anything. -/
def find? (f : Folder) (path : List Bytes) : Option Place :=
  match f.files.find? fun e => steps e.1 = path with
  | some (_, text) => some (.file text)
  | none => if f.files.any fun e => path.isPrefixOf (steps e.1) then some (.inside path) else none

/-- Takes the steps of a path. A wrong step fails with the wording of the system, or finds nothing.
-/
def walk (f : Folder) : Place → List Bytes → Except (Option Bytes) Place
  | p, [] => .ok p
  | .file _, _ :: _ => .error (some (ascii "not a directory"))
  | .around, s :: rest =>
    if s = ascii ".." then f.walk .around rest else .error (missing s)
  | .inside path, s :: rest =>
    if s = ascii ".." then f.walk (if path = [] then .around else .inside path.dropLast) rest
    else
      match f.find? (path ++ [s]) with
      | some p => f.walk p rest
      | none => .error (missing s)
where
  /-- Why a name is not found. -/
  missing (s : Bytes) : Option Bytes :=
    if maxName < s.length then some (ascii "file name too long") else none

def read (f : Folder) (name : Bytes) : Content :=
  if name.contains 0 then .error (.other name (ascii "invalid argument"))
  else if name = [] then .error (.notFound name)
  else if maxPath < name.length then .error (.other name (ascii "file name too long"))
  else
    match f.files.lookup name with
    | some text => .ok text
    | none =>
      match f.walk (if name.head? = some 0x2F then .around else .inside []) (steps name) with
      | .ok (.file text) =>
        if namesFolder name then .error (.other name (ascii "not a directory")) else .ok text
      | .ok _ => .error (.isDirectory name)
      | .error none => .error (.notFound name)
      | .error (some reason) => .error (.other name reason)

end Folder

end StackTape
