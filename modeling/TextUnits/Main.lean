import TextUnits.Cli.Program

/-!
# Command line entry

Reads the files that a command may read, runs the program on them and does what the run says.
-/

namespace TextUnits.Cli

/-- String of a text; unpaired surrogates are replaced. -/
def shown (t : Text) : String := (Text.toString? t.mended).getD ""

/-- Bytes of a file, if it can be read. -/
def readFile? (path : Text) : IO (Option (List UInt8)) := do
  try
    let bytes ← IO.FS.readBinFile (shown path)
    return some bytes.toList
  catch _ => return none

/-- Names and bytes of the files that a command line reads. -/
def gatherFiles (argv : List Text) : IO (List (Text × Option (List UInt8))) :=
  match Command.parse argv with
  | .ok command => command.reads.mapM fun path => return (path, ← readFile? path)
  | .error _ => return []

/-- Writes the file of a run; tells whether that worked. -/
def writeFile (r : Run) : IO Bool :=
  match r.written with
  | none => return true
  | some (path, bytes) => do
    try
      IO.FS.writeBinFile (shown path) ⟨bytes.toArray⟩
      return true
    catch _ => return false

/-- Runs the program on the files of the host. -/
def perform (argv : List Text) : IO Run := do
  let found ← gatherFiles argv
  let read (path : Text) := (found.find? fun entry => entry.1 = path).bind (·.2)
  let r := run ⟨read, fun _ => true, sharedFront⟩ argv
  if ← writeFile r then return r else return run ⟨read, fun _ => false, sharedFront⟩ argv

end TextUnits.Cli

/-- Runs the program. -/
def main (args : List String) : IO UInt32 := do
  let r ← TextUnits.Cli.perform (args.map TextUnits.Text.ofString)
  (← IO.getStderr).putStr (TextUnits.Cli.shown r.stderr)
  (← IO.getStdout).putStr (TextUnits.Cli.shown r.stdout)
  return UInt32.ofNat r.code
