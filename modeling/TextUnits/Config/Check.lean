import TextUnits.Config.Basic
import TextUnits.Data

/-!
# Configurations from plain data

A configuration is a record of sections, and a section is a record of fields, each with a rule
for its value. `Config.problem?` finds the first rule that is broken, in the order of the
record, and `Config.overlay` lays the fields that are given over the defaults. A section
answers to the names that every record answers to, and under such a name it may hold anything.
-/

namespace TextUnits

/-- What a field must hold. -/
inductive FieldRule where
  /-- A truth value. -/
  | flag
  /-- A text that is not empty. -/
  | marker
  /-- A text of one unit. -/
  | separator
  deriving DecidableEq, Repr

namespace FieldRule

/-- Whether a value obeys a rule. -/
def accepts : FieldRule → Datum → Bool
  | flag, .bool _ => true
  | marker, .text t => !t.isEmpty
  | separator, .text t => t.length = 1
  | _, _ => false

/-- What a rule asks for, in words. -/
def demand : FieldRule → String
  | flag => "a boolean"
  | marker => "a non-empty string"
  | separator => "a single character"

end FieldRule

/-- A part of a configuration. -/
inductive ConfigSection where
  /-- How sources are split into tokens. -/
  | lexer
  /-- How numbers are formatted. -/
  | format
  /-- What a conversion refuses. -/
  | transcode
  deriving DecidableEq, Repr

namespace ConfigSection

/-- All sections. -/
def all : List ConfigSection := [lexer, format, transcode]

/-- Name of a section. -/
def name : ConfigSection → String
  | lexer => "lexer"
  | format => "format"
  | transcode => "transcode"

/-- Fields of a section with their rules. -/
def fields : ConfigSection → List (String × FieldRule)
  | lexer =>
    [("skipWhitespace", .flag), ("skipNewlines", .flag), ("skipComments", .flag),
     ("allowDashesInIdentifiers", .flag), ("lineCommentOpener", .marker),
     ("blockCommentOpener", .marker), ("blockCommentCloser", .marker)]
  | format => [("thousandsSeparator", .separator), ("decimalSeparator", .separator)]
  | transcode => [("forbidBom", .flag), ("errorOnInvalidCodePoint", .flag)]

/-- The section with a name. -/
def ofName? (t : Text) : Option ConfigSection := all.find? fun s => Text.ofString s.name = t

/-- The rule of the field with a name. -/
def rule? (s : ConfigSection) (key : Text) : Option FieldRule :=
  (s.fields.find? fun field => Text.ofString field.1 = key).map (·.2)

/-- What is wrong with a field of a section. -/
def fieldProblem? (s : ConfigSection) (key : Text) (value : Datum) : Option Text :=
  let path := Text.ofString s.name ++ Text.unit '.' :: key
  match s.rule? key with
  | some rule =>
    if rule.accepts value then none
    else some (path ++ Text.ofString (" must be " ++ rule.demand))
  | none =>
    if Datum.isInherited key then none else some (Text.ofString "unknown key " ++ path)

/-- What is wrong with the value of a section. -/
def problem? (s : ConfigSection) : Datum → Option Text
  | .record fields => fields.findSome? fun field => s.fieldProblem? field.1 field.2
  | _ => some (Text.ofString (s.name ++ " must be a mapping"))

end ConfigSection

namespace Config

/-- What is wrong with a section under its name. -/
def sectionProblem? (name : Text) (value : Datum) : Option Text :=
  match ConfigSection.ofName? name with
  | some s => s.problem? value
  | none => some (Text.ofString "unknown section " ++ name)

/-- The first rule that a configuration breaks. -/
def problem? : Datum → Option Text
  | .record sections => sections.findSome? fun entry => sectionProblem? entry.1 entry.2
  | _ => some (Text.ofString "configuration must be a mapping")

/-- Checks a configuration against the rules. -/
def check (d : Datum) : Except Fault Unit :=
  match problem? d with
  | some details => .error (.invalidConfig details)
  | none => .ok ()

/-- The value under a name in a record. -/
def member? (d : Datum) (name : String) : Option Datum :=
  match d with
  | .record members => Context.own? members (Text.ofString name)
  | _ => none

/-- The value of a field in a section. -/
def field? (d : Datum) (s : ConfigSection) (key : String) : Option Datum :=
  (member? d s.name).bind (member? · key)

/-- The truth value of a field, or what holds without it. -/
def flag (d : Datum) (s : ConfigSection) (key : String) (otherwise : Bool) : Bool :=
  match field? d s key with
  | some (.bool b) => b
  | _ => otherwise

/-- The text of a field, or what holds without it. -/
def text (d : Datum) (s : ConfigSection) (key : String) (otherwise : Text) : Text :=
  match field? d s key with
  | some (.text t) => t
  | _ => otherwise

/-- The fields of a record laid over a configuration. -/
def overlay (c : Config) (d : Datum) : Config where
  lexer := {
    skipWhitespace := flag d .lexer "skipWhitespace" c.lexer.skipWhitespace
    skipNewlines := flag d .lexer "skipNewlines" c.lexer.skipNewlines
    skipComments := flag d .lexer "skipComments" c.lexer.skipComments
    allowDashes := flag d .lexer "allowDashesInIdentifiers" c.lexer.allowDashes
    lineOpener := text d .lexer "lineCommentOpener" c.lexer.lineOpener
    blockOpener := text d .lexer "blockCommentOpener" c.lexer.blockOpener
    blockCloser := text d .lexer "blockCommentCloser" c.lexer.blockCloser }
  format := {
    group := text d .format "thousandsSeparator" c.format.group
    decimal := text d .format "decimalSeparator" c.format.decimal }
  transcode := {
    forbidMark := flag d .transcode "forbidBom" c.transcode.forbidMark
    refuseInvalid := flag d .transcode "errorOnInvalidCodePoint" c.transcode.refuseInvalid }

/-- The configuration that plain data describes; what it leaves out has its default. -/
def ofDatum (d : Datum) : Except Fault Config := do
  check d
  return Config.default.overlay d

end Config

end TextUnits
