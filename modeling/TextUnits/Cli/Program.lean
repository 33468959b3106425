import TextUnits.Cli.Arguments
import TextUnits.Cli.Commands
import TextUnits.Fault.Explain

/-!
# The program

A run of the program takes a command line and the files it can see to what it writes and its
exit code. The configuration is read before the source, so its failure is told first; a file is
written before anything is shown, so nothing is shown when that fails.
-/

namespace TextUnits.Cli

/-- Files as a run of the program sees them. -/
structure Files where
  /-- Bytes of a file, if it exists. -/
  read : Text → Option (List UInt8)
  /-- Whether a file can be written. -/
  writable : Text → Bool
  /-- What stands in front of a short file in the memory that the host keeps for such files. -/
  front : List UInt8

/-- What the memory for short files starts with when the program reads its source: the first byte
of a path, and zeros up to the next place where a file can begin. -/
def sharedFront : List UInt8 := [0x2F, 0, 0, 0, 0, 0, 0, 0]

/-- What a run of the program does. -/
structure Run where
  /-- Exit code. -/
  code : Nat
  /-- Text for the standard output. -/
  stdout : Text
  /-- Text for the standard error output. -/
  stderr : Text
  /-- File that is written, and its bytes. -/
  written : Option (Text × List UInt8)
  deriving DecidableEq, Repr

/-- Text of lines, each with its end. -/
def ofLines (lines : List Text) : Text := lines.flatMap (· ++ [0x0A])

/-- Version of the program. -/
def version : Text := Text.ofString "0.1.0"

/-- How the program is used. -/
def usage : List Text :=
  [Text.ofString "textkit - Unicode transcoding and C-like lexing",
   [],
   Text.ofString "Usage:",
   Text.ofString "  textkit tokenize <file>",
   Text.ofString "  textkit strip-comments <file>",
   Text.ofString "  textkit transcode <file> --from <enc> --to <enc> [--out <file>]",
   Text.ofString "  textkit explain <error-id>",
   [],
   Text.ofString "Encodings: " ++ UsageFault.encodingNames,
   [],
   Text.ofString "Options:",
   Text.ofString "  --config <file>  Configuration file (default: ./textkit.config.yaml)",
   Text.ofString "  --verbose        Trace every scanned token to stderr",
   Text.ofString "  -h, --help       Show this help message",
   Text.ofString "  -v, --version    Show version number"]

namespace Run

/-- A run that shows a text. -/
def showing (text : Text) : Run := ⟨0, text.mended, [], none⟩

/-- A run that fails with a text on the standard error output. -/
def failing (text : Text) : Run := ⟨1, [], text.mended, none⟩

/-- A run with lines on the standard error output in front of its own. -/
def after (lines : List Text) (r : Run) : Run :=
  { r with stderr := (ofLines lines).mended ++ r.stderr }

/-- A run that fails with a fault. -/
def ofFault (fault : Fault) : Run :=
  failing (ofLines [Text.ofString "Error: " ++ fault.report.line])

/-- A run that shows a text, unless there is none for a fault. -/
def ofText : Except Fault Text → Run
  | .ok text => showing text
  | .error fault => ofFault fault

end Run

/-- The configuration that a command works under. -/
def Files.config (files : Files) (target : Target) : Except Fault Config :=
  match target.config with
  | some file => Config.ofFile file (files.read file)
  | none => Config.ofDirectory (files.read Config.fileName)

/-- The configuration and the source that a command works on. -/
def Files.source (files : Files) (target : Target) : Except Fault (Config × List UInt8) := do
  let config ← files.config target
  match files.read target.file with
  | some bytes => return (config, bytes)
  | none => .error (.missingFile target.file)

/-- Runs the listing of tokens. -/
def runTokenize (files : Files) (target : Target) : Run :=
  match files.source target with
  | .error fault => .ofFault fault
  | .ok (config, source) =>
    let listing := listTokens config source
    let trace := if target.verbose then listing.trace.map (Text.ofString "trace " ++ ·) else []
    (Run.ofText (listing.lines.map ofLines)).after trace

/-- Runs the removal of comments. -/
def runStripComments (files : Files) (target : Target) : Run :=
  .ofText ((files.source target).bind fun (config, source) => stripComments config source)

/-- Bytes for a file, unless it can not be written. -/
def Files.accept (files : Files) (out : Option Text) (bytes : List UInt8) :
    Except Fault (List UInt8) :=
  match out with
  | some file => if files.writable file then .ok bytes else .error (.missingFile file)
  | none => .ok bytes

/-- The array that the host makes of the bytes of a file. A short file is put into memory that it
shares with others. -/
def Files.window (files : Files) (bytes : List UInt8) : Window :=
  .behind (if bytes.length < 4096 then files.front else []) bytes

/-- Runs a conversion between encodings. -/
def runTranscode (files : Files) (target : Target) (source wanted : Wire) (out : Option Text) :
    Run :=
  let converted : Except Fault (Nat × List UInt8) := do
    let (config, bytes) ← files.source target
    let result ← files.accept out (← transcode config source wanted (files.window bytes))
    return (bytes.length, result)
  match converted with
  | .error fault => .ofFault fault
  | .ok (size, result) =>
    let sized (n : Nat) (rest : String) : Text := Numeral.decimal n ++ Text.ofString rest
    let notes :=
      if target.verbose then [Text.ofString "read " ++ sized size (" bytes as " ++ source.name)]
      else []
    let shown := Run.showing (ofLines [sized result.length (" bytes " ++ wanted.name)])
    { shown.after notes with written := out.map fun file => (file, result) }

/-- Runs a command. -/
def Command.run (files : Files) : Command → Run
  | help => .showing (ofLines usage)
  | version => .showing (ofLines [Cli.version])
  | explain errorId =>
    match Code.explain? errorId with
    | some text => .showing (ofLines [text])
    | none => .failing (ofLines [Text.ofString "Unknown error ID: " ++ errorId])
  | tokenize target => runTokenize files target
  | stripComments target => runStripComments files target
  | transcode target source wanted out => runTranscode files target source wanted out

/-- Runs the program with a command line. -/
def run (files : Files) (argv : List Text) : Run :=
  match Command.parse argv with
  | .error problem => .ofFault (.usage problem)
  | .ok command => command.run files

/-- Files that a command reads, if they exist. -/
def Command.reads : Command → List Text
  | help | version | explain _ => []
  | tokenize target | stripComments target | transcode target _ _ _ =>
    [target.config.getD Config.fileName, target.file]

end TextUnits.Cli
