import TextUnits.Config.Check
import TextUnits.Fault.Report
import TextUnits.Text.Lossy
import TextUnits.Yaml.Parse

/-!
# Configurations from files

A configuration is written in YAML. A document without a value stands for a record without
sections, and a directory without a configuration file for the defaults.
-/

namespace TextUnits.Config

/-- Name of the file that a directory is searched for. -/
def fileName : Text := Text.ofString "textkit.config.yaml"

/-- The record that a document without a value stands for. -/
def emptyWhenNull : Datum → Datum
  | .null => .record []
  | d => d

/-- What is told of a text that does not parse. -/
def malformed : Text := Text.ofString "malformed document"

/-- The configuration in a text; the name of its file goes into the failure to parse it. -/
def parse (file content : Text) : Except Fault Config :=
  match Yaml.parse content with
  | none => .error (.unreadableConfig file malformed)
  | some d => ofDatum (emptyWhenNull d)

/-- The configuration in the bytes of a file. -/
def ofBytes (file : Text) (bytes : List UInt8) : Except Fault Config :=
  parse file (Text.ofBytes bytes)

/-- The configuration in the bytes of a file that must exist. -/
def ofFile (file : Text) : Option (List UInt8) → Except Fault Config
  | some bytes => ofBytes file bytes
  | none => .error (.unreadableConfig file (absence file))

/-- The configuration of a directory, from the bytes of its file when there is one. -/
def ofDirectory : Option (List UInt8) → Except Fault Config
  | some bytes => ofBytes fileName bytes
  | none => .ok .default

end TextUnits.Config
