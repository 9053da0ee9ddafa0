import StackTape.Cli.Help
import StackTape.Compile.Text
import StackTape.Files
import StackTape.Listing.Config
import StackTape.Program.Outline

/-!
# The command line

`run` takes the arguments of the program and a way to read files, and gives what the program prints
and its exit code. What was printed before an error stays printed.
-/

namespace StackTape.Cli

structure Outcome where
  exit : Nat
  stdout : Bytes
  stderr : Bytes
deriving DecidableEq, Repr

inductive Failure
  /-- With a message. -/
  | error (message : Bytes)
  /-- Because it cannot go on: a listing has no layout, or an options file has incomparable keys. -/
  | abort
deriving DecidableEq, Repr

namespace Outcome

def ok (stdout : Bytes) : Outcome := { exit := 0, stdout, stderr := [] }

/-- A run that stops after some output. -/
def failed (stdout : Bytes) : Failure → Outcome
  | .error m => { exit := 1, stdout, stderr := ascii "error: " ++ m ++ [0x0A] }
  | .abort => { exit := 2, stdout, stderr := [] }

end Outcome

/-! ## What commands do with one file -/

/-- The instruction tree of a program file. -/
def outlineFile (name : Bytes) (content : Content) : Except Failure Bytes :=
  match load Source.parse content with
  | .ok p => .ok p.outline
  | .error e =>
    .error (.error (ascii "parse " ++ name ++ ascii ": " ++
      e.message (Source.Fault.message name)))

def compileFile (o : Options) (name : Bytes) (content : Content) : Except Failure Bytes :=
  match load (compileText o) content with
  | .ok code => .ok code
  | .error (.content (.program (.layout _))) => .error .abort
  | .error e =>
    .error (.error (ascii "compile " ++ name ++ ascii ": " ++ e.message (TextError.message name)))

/-- A code file without its comments. -/
def stripFile (name : Bytes) (content : Content) : Except Failure Bytes :=
  match content with
  | .ok code => .ok (strip code ++ [0x0A])
  | .error e => .error (.error (ascii "read " ++ name ++ ascii ": " ++ e.message))

def optionsFile (name : Bytes) (content : Content) : Except Failure Options :=
  match load Config.read content with
  | .ok o => .ok o
  | .error (.content (.refused (.incomparableKey _))) => .error .abort
  | .error e =>
    .error (.error (ascii "config: " ++ e.message (Config.Error.message name)))

/-- The options with the changes that flags ask for. -/
def adjust (s : Settings) (o : Options) : Options :=
  { o with
    comments := o.comments && !s.plain
    indent := if 0 ≤ s.indent then s.indent else o.indent }

/-! ## Commands -/

section

variable {m : Type → Type} [Monad m] (read : Bytes → m Content)

/-- Prints what `use` makes of each file, after `done`, up to the first failure. -/
def eachFile (use : Bytes → Content → Except Failure Bytes) :
    (done : Bytes) → List Bytes → m (Bytes × Option Failure)
  | done, [] => return (done, none)
  | done, name :: rest => do
    match use name (← read name) with
    | .ok text => eachFile use (done ++ text) rest
    | .error f => return (done, some f)

def options (s : Settings) : m (Except Failure Options) := do
  if s.config = [] then return .ok (adjust s .standard)
  else
    match optionsFile s.config (← read s.config) with
    | .ok o => return .ok (adjust s o)
    | .error f => return .error f

/-- Runs a command on its arguments: what it prints, and why it stops. -/
def Command.act (s : Settings) (args : List Bytes) : Command → m (Bytes × Option Failure)
  | .parse => eachFile read outlineFile [] args
  | .compile => do
    match ← options read s with
    | .ok o => eachFile read (compileFile o) [] args
    | .error f => return ([], some f)
  | .strip => eachFile read stripFile [] args
  | .encode => return ((Fragment.encodeString (joinWith (ascii " ") args)).text ++ [0x0A], none)

end

/-- What the arguments of a command ask for. -/
inductive Request
  | help (s : Settings)
  | run (s : Settings) (args : List Bytes)

def flagFailure (arg : Bytes) (e : FlagError) : Bytes :=
  ascii "parse flag: " ++ arg ++ ascii ": " ++ e.message

/-- Reads the arguments of a command, at most `fuel` of them; `done` holds those that are no flags,
the last one first. -/
def Command.request (c : Command) : (fuel : Nat) → Settings → (done : List Bytes) → List Bytes →
    Except Bytes Request
  | 0, s, done, _ => .ok (.run s done.reverse)
  | _ + 1, s, done, [] => .ok (.run s done.reverse)
  | fuel + 1, s, done, arg :: rest =>
    if arg = ascii "--" then .ok (.run s (done.reverse ++ rest))
    else if isFlag arg then
      match readFlag (c.flags ++ globalFlags) s arg rest with
      | .ok (.set s rest) => c.request fuel s done rest
      | .ok .help => .ok (.help s)
      | .error e => .error (flagFailure arg e)
    else c.request fuel s (arg :: done) rest

def Command.run {m : Type → Type} [Monad m] (read : Bytes → m Content) (s : Settings)
    (args : List Bytes) (c : Command) : m Outcome := do
  let inCommand : Failure → Failure
    | .error t => .error (c.name ++ ascii ": " ++ t)
    | .abort => .abort
  match c.request (args.length + 1) s [] args with
  | .error t => return .failed [] (inCommand (.error t))
  | .ok (.help s) => return .ok (c.help s)
  | .ok (.run s args) =>
    match ← c.act read s args with
    | (out, none) => return .ok out
    | (out, some f) => return .failed out (inCommand f)

/-- Reads the arguments before the command, at most `fuel` of them, and runs it. Without a command
the help text is printed. -/
def runFrom {m : Type → Type} [Monad m] (read : Bytes → m Content) :
    (fuel : Nat) → Settings → List Bytes → m Outcome
  | 0, s, _ => return .ok (programHelp s)
  | _ + 1, s, [] => return .ok (programHelp s)
  | fuel + 1, s, arg :: rest =>
    if isFlag arg then
      match readFlag globalFlags s arg rest with
      | .ok (.set s rest) => runFrom read fuel s rest
      | .ok .help => return .ok (programHelp s)
      | .error e => return .failed [] (.error (flagFailure arg e))
    else
      match Command.ofName? arg with
      | some c => c.run read s rest
      | none => return .failed [] (.error (ascii "no args expected, got " ++ arg))

def run {m : Type → Type} [Monad m] (read : Bytes → m Content) (args : List Bytes) : m Outcome :=
  runFrom read (args.length + 1) {} args

end StackTape.Cli
