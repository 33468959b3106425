import TextUnits.Fault.Basic

/-!
# Command lines

The arguments of the program are gathered in one pass: positional ones in order, options with
their values, and whether `--verbose` is among them. `Command.parse` then reads off what is to be
done. Asking for help or for the version wins over everything else, wherever it stands.
-/

namespace TextUnits.Cli

/-- An option that has a value. -/
inductive ValueOption where
  /-- Encoding to read. -/
  | source
  /-- Encoding to write. -/
  | target
  /-- File to write. -/
  | out
  /-- Configuration file. -/
  | config
  deriving DecidableEq, Repr

namespace ValueOption

/-- All options that have a value. -/
def all : List ValueOption := [source, target, out, config]

/-- Name of an option. -/
def name : ValueOption → String
  | source => "--from"
  | target => "--to"
  | out => "--out"
  | config => "--config"

/-- The option with a name. -/
def ofName? (t : Text) : Option ValueOption := all.find? fun o => Text.ofString o.name = t

end ValueOption

/-- Arguments as they are gathered. -/
structure Gathered where
  /-- Arguments that are no options, in order. -/
  positionals : List Text
  /-- Whether every token is to be traced. -/
  verbose : Bool
  /-- Options and their values, in order. -/
  values : List (ValueOption × Text)
  deriving DecidableEq, Repr

namespace Gathered

/-- No arguments. -/
def empty : Gathered := ⟨[], false, []⟩

/-- With a positional argument in front. -/
def positional (arg : Text) (g : Gathered) : Gathered :=
  { g with positionals := arg :: g.positionals }

/-- With tokens to be traced. -/
def tracing (g : Gathered) : Gathered := { g with verbose := true }

/-- With the value of an option in front. -/
def valued (option : ValueOption) (value : Text) (g : Gathered) : Gathered :=
  { g with values := (option, value) :: g.values }

/-- The value of an option: the last one when it is given again. -/
def value? (g : Gathered) (option : ValueOption) : Option Text :=
  ((g.values.filter fun entry => entry.1 = option).getLast?).map (·.2)

end Gathered

/-- Whether an argument is written as an option. -/
def isOption (arg : Text) : Bool := arg.head? == some (Text.unit '-')

/-- The option that asks for a trace. -/
def verboseName : Text := Text.ofString "--verbose"

/-- Gathers arguments in order, up to the first that is refused. -/
def gather : List Text → Except UsageFault Gathered
  | [] => .ok .empty
  | arg :: rest =>
    if !isOption arg then (gather rest).map (Gathered.positional arg)
    else if arg = verboseName then (gather rest).map Gathered.tracing
    else
      match ValueOption.ofName? arg, rest with
      | none, _ => .error (.unknownOption arg)
      | some _, [] => .error (.missingValue arg)
      | some option, value :: later =>
        if isOption value then .error (.missingValue arg)
        else (gather later).map (Gathered.valued option value)

/-- What every command that reads a file is given. -/
structure Target where
  /-- File to read. -/
  file : Text
  /-- Whether every token is to be traced. -/
  verbose : Bool
  /-- Configuration file; without one the directory is searched. -/
  config : Option Text
  deriving DecidableEq, Repr

/-- What the program is to do. -/
inductive Command where
  /-- Show how it is used. -/
  | help
  /-- Show its version. -/
  | version
  /-- Tell about a registered error. -/
  | explain (errorId : Text)
  /-- List the tokens of a file. -/
  | tokenize (target : Target)
  /-- Show a file without its comments. -/
  | stripComments (target : Target)
  /-- Convert a file between encodings. -/
  | transcode (target : Target) (source wanted : Wire) (out : Option Text)
  deriving DecidableEq, Repr

/-- The encoding that an option names. -/
def Gathered.encoding (g : Gathered) (option : ValueOption) : Except UsageFault Wire :=
  match g.value? option with
  | none => .error (.missingEncoding (Text.ofString option.name))
  | some name =>
    match Wire.ofName? name with
    | none => .error (.invalidEncoding name)
    | some wire => .ok wire

/-- What is given to a command that reads a file. -/
def Gathered.target (g : Gathered) : List Text → Except UsageFault Target
  | [] => .error .missingFile
  | file :: _ => .ok ⟨file, g.verbose, g.value? .config⟩

/-- The command that gathered arguments ask for. -/
def Gathered.command (g : Gathered) : Except UsageFault Command :=
  match g.positionals with
  | [] => .error .missingCommand
  | name :: operands =>
    if name = Text.ofString "explain" then
      match operands with
      | [] => .error .missingErrorId
      | errorId :: _ => .ok (.explain errorId)
    else if name = Text.ofString "tokenize" then (g.target operands).map .tokenize
    else if name = Text.ofString "strip-comments" then (g.target operands).map .stripComments
    else if name = Text.ofString "transcode" then do
      let target ← g.target operands
      let source ← g.encoding .source
      let wanted ← g.encoding .target
      return .transcode target source wanted (g.value? .out)
    else .error (.unknownCommand name)

/-- Whether one of some words is among the arguments. -/
def asksFor (words : List String) (argv : List Text) : Bool :=
  argv.any fun arg => words.any fun word => Text.ofString word = arg

/-- The command that a command line asks for. -/
def Command.parse (argv : List Text) : Except UsageFault Command :=
  if asksFor ["--help", "-h"] argv then .ok .help
  else if asksFor ["--version", "-v"] argv then .ok .version
  else (gather argv).bind Gathered.command

end TextUnits.Cli
