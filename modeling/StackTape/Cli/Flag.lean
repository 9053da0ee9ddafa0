import StackTape.Text.Integer
import StackTape.Text.Quoted

/-!
# Commands and their flags

A flag is an argument that starts with one or two dashes; two dashes alone end the flags. Its value
follows an equals sign or a space in the same argument, or else is the next argument. A command
knows its own flags and those of the program.
-/

namespace StackTape.Cli

/-- What the program can be asked to do. -/
inductive Command
  /-- Prints the instruction tree of programs. -/
  | parse
  /-- Compiles programs. -/
  | compile
  /-- Removes comments from tape code. -/
  | strip
  /-- Generates code that writes the arguments. -/
  | encode
deriving DecidableEq, Repr

inductive Flag
  | verbosity
  | help
  /-- The options file. -/
  | config
  /-- Asks for bare code. -/
  | plain
  | indent
deriving DecidableEq, Repr

namespace Command

def all : List Command := [.parse, .compile, .strip, .encode]

def name : Command → Bytes
  | .parse => ascii "parse"
  | .compile => ascii "compile"
  | .strip => ascii "strip"
  | .encode => ascii "encode"

def flags : Command → List Flag
  | .compile => [.config, .plain, .indent]
  | _ => []

def ofName? (s : Bytes) : Option Command := all.find? fun c => c.name = s

end Command

def globalFlags : List Flag := [.verbosity, .help]

def Flag.names : Flag → List Bytes
  | .verbosity => [ascii "verbosity", ascii "v"]
  | .help => [ascii "help", ascii "h"]
  | .config => [ascii "config"]
  | .plain => [ascii "plain"]
  | .indent => [ascii "indent"]

structure Settings where
  /-- Topics to log; the results do not depend on it. -/
  verbosity : Bytes := []
  /-- The name of the options file, empty for none. -/
  config : Bytes := []
  plain : Bool := false
  /-- The indent of listings; a negative one leaves it to the options. -/
  indent : Int := -1
deriving DecidableEq, Repr

inductive FlagError
  | unknown
  | noValue
  | noTruth
  | noInteger (text : Bytes) (fault : IntFault)
deriving DecidableEq, Repr

def FlagError.message : FlagError → Bytes
  | .unknown => ascii "no such flag"
  | .noValue => ascii "flag value is required"
  | .noTruth => ascii "not a bool value"
  | .noInteger text fault => fault.message text Quoted.quote

def isFlag (arg : Bytes) : Bool :=
  arg.head? = some 0x2D && arg ≠ ascii "-" && arg ≠ ascii "--"

def dropDashes : Bytes → Bytes
  | 0x2D :: 0x2D :: s => s
  | 0x2D :: s => s
  | s => s

/-- A byte that ends the name of a flag. -/
def endsName (b : UInt8) : Bool := b = 0x3D || b = 0x20

/-- The name of a flag and the value in the same argument. -/
def splitFlag (arg : Bytes) : Bytes × Option Bytes :=
  let s := dropDashes arg
  let name := s.takeWhile fun b => !endsName b
  match s.dropWhile fun b => !endsName b with
  | [] => (name, none)
  | _ :: value => (name, some value)

/-- The truth value of a word; nothing stands for true. -/
def truth? (s : Bytes) : Option Bool :=
  let s := s.map lower
  if ["", "true", "t", "yes", "y", "1"].any fun w => ascii w = s then some true
  else if ["false", "f", "no", "n", "0"].any fun w => ascii w = s then some false
  else none

/-- A value, from the same argument or from the next one, and the arguments after it. -/
def valueOf (value : Option Bytes) (rest : List Bytes) : Except FlagError (Bytes × List Bytes) :=
  match value, rest with
  | some v, rest => .ok (v, rest)
  | none, v :: rest => .ok (v, rest)
  | none, [] => .error .noValue

inductive FlagResult
  /-- New settings and the arguments after the flag. -/
  | set (s : Settings) (rest : List Bytes)
  /-- Help is asked for. -/
  | help

def Flag.apply (s : Settings) (value : Option Bytes) (rest : List Bytes) :
    Flag → Except FlagError FlagResult
  | .verbosity => do
    let (v, rest) ← valueOf value rest
    return .set { s with verbosity := v } rest
  | .config => do
    let (v, rest) ← valueOf value rest
    return .set { s with config := v } rest
  | .plain =>
    match truth? (value.getD []) with
    | some b => .ok (.set { s with plain := b } rest)
    | none => .error .noTruth
  | .indent => do
    let (v, rest) ← valueOf value rest
    match Integer.readInt 10 v with
    | .ok n => return .set { s with indent := n } rest
    | .error f => throw (.noInteger v f)
  | .help => .ok .help

/-- Reads the flag `arg`, which has to be one of `known`. -/
def readFlag (known : List Flag) (s : Settings) (arg : Bytes) (rest : List Bytes) :
    Except FlagError FlagResult :=
  let (name, value) := splitFlag arg
  match known.find? fun f => f.names.contains name with
  | some f => f.apply s value rest
  | none => .error .unknown

end StackTape.Cli
