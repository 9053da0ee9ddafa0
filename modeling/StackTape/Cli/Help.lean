import StackTape.Cli.Flag

/-!
# Help texts

One line for the command, then its subcommands and flags, each with a description. The current value
of a flag is shown after it unless it is empty.
-/

namespace StackTape.Cli

def programName : Bytes := ascii "stackbf"

def programDescription : Bytes :=
  ascii "stackbf compiles stack language into tape machine code"

def Command.description : Command → Bytes
  | .parse => ascii "print instruction tree"
  | .compile => ascii "compile programs into tape machine code"
  | .strip => ascii "remove comments from tape machine code"
  | .encode => ascii "generate code printing the args"

/-- The names of a flag as help texts show them. -/
def Flag.title : Flag → Bytes
  | .verbosity => ascii "verbosity,v"
  | .help => ascii "help,h=[hidden]"
  | .config => ascii "config"
  | .plain => ascii "plain"
  | .indent => ascii "indent"

def Flag.description : Flag → Bytes
  | .verbosity => ascii "tlog verbosity topics"
  | .help => ascii "print command help end exit"
  | .config => ascii "yaml file with format options"
  | .plain => ascii "emit bare code without comments"
  | .indent => ascii "indent size for nested blocks, negative means from config"

/-- The current value of a flag; empty if there is nothing to show. -/
def Flag.current (s : Settings) : Flag → Bytes
  | .verbosity => s.verbosity
  | .help => []
  | .config => s.config
  | .plain => if s.plain then ascii "true" else ascii "false"
  | .indent => decimalInt s.indent

/-- A name with its description. -/
def entry (name description : Bytes) : Bytes :=
  ascii "    " ++ padRight 20 name ++ ascii " - " ++ description

def Flag.line (s : Settings) (f : Flag) : Bytes :=
  entry f.title f.description ++
    (if f.current s = [] then [] else ascii " (default " ++ f.current s ++ ascii ")") ++ [0x0A]

/-- A section of flags, left out when there are none. -/
def flagSection (s : Settings) (title : Bytes) (flags : List Flag) : Bytes :=
  if flags.isEmpty then []
  else [0x0A] ++ title ++ [0x0A] ++ flags.flatMap (Flag.line s)

def programHelp (s : Settings) : Bytes :=
  programName ++ ascii " [flags] - " ++ programDescription ++ ascii "\n\nSubcommands\n" ++
    Command.all.flatMap (fun c => entry c.name c.description ++ [0x0A]) ++
    flagSection s (ascii "Flags") globalFlags

def Command.help (s : Settings) (c : Command) : Bytes :=
  c.name ++ ascii " [flags_and_args] - " ++ c.description ++ [0x0A] ++
    flagSection s (ascii "Flags") c.flags ++
    flagSection s (ascii "Flags of parent command " ++ programName) globalFlags

end StackTape.Cli
