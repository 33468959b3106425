import TextUnits.Fault.Basic
import TextUnits.Fault.Template

/-!
# Wording of failures

A `Report` is a failure as it is told: either a registered error with its rendered template and
perhaps a place, or a plain message of one of three kinds. The place is told behind the
template as ` at line N`; `details` takes such an ending off again.
-/

namespace TextUnits

/-- What a registered error is reported as. -/
inductive Family where
  /-- As an error of its category. -/
  | ofCategory (category : Category)
  /-- As an error of no category in particular. -/
  | general
  deriving DecidableEq, Repr

/-- A failure with its wording. -/
inductive Report where
  /-- A registered error: its message without the place, and the place. -/
  | registered (family : Family) (code : Code) (body : Text) (place : Option Location)
  /-- A value of the wrong kind was passed. -/
  | typeError (message : Text)
  /-- A value outside its range was passed. -/
  | rangeError (message : Text)
  /-- Any other failure; one of the file system names its code and path. -/
  | plain (message : Text) (code path : Option Text)
  deriving DecidableEq, Repr

/-- Code under which the file system tells that a file does not exist. -/
def absenceCode : Text := Text.ofString "ENOENT"

/-- How the file system tells that a file does not exist. -/
def absence (path : Text) : Text :=
  absenceCode ++ Text.ofString ": no such file or directory, open '" ++ path ++ Text.ofString "'"

namespace Report

/-- How a place is told behind a message. -/
def placeSuffix : Option Location → Text
  | none => []
  | some place => Text.ofString " at line " ++ place.line.text

/-- The message of a failure. -/
def message : Report → Text
  | registered _ _ body place => body ++ placeSuffix place
  | typeError m | rangeError m | plain m _ _ => m

/-- Text without an ending ` at line N`, where `N` is a run of decimal digits. The place behind a
message is dropped if its line is told in digits alone. -/
def dropPlace (t : Text) : Text :=
  let isDigit (u : UInt16) : Bool := 0x30 ≤ u && u ≤ 0x39
  let reversed := t.reverse
  let digits := reversed.takeWhile isDigit
  match Sequence.after? (Text.ofString " at line ").reverse (reversed.dropWhile isDigit) with
  | some rest => if digits.isEmpty then t else rest.reverse
  | none => t

/-- The message without a place at its end. -/
def details (r : Report) : Text := dropPlace r.message

/-- The place of a registered error. -/
def place? : Report → Option Location
  | registered _ _ _ place => place
  | _ => none

/-- The code of a registered error. -/
def code? : Report → Option Code
  | registered _ code _ _ => some code
  | _ => none

/-- What a host is given of a registered error. -/
structure Data where
  /-- The code. -/
  code : Code
  /-- The message without a place at its end. -/
  message : Text
  /-- The place. -/
  place : Option Location
  deriving DecidableEq, Repr

/-- What a host is given of a failure, if that is a registered error. -/
def data? (r : Report) : Option Data := r.code?.map fun code => ⟨code, r.details, r.place?⟩

/-- The text of a failure: that of a formatter of the host, which registered errors take, or the
message. -/
def shown (r : Report) (formatter : Option (Data → Text)) : Text :=
  (r.data?.bind fun data => formatter.map fun write => write data).getD r.message

/-- Name of the kind of a failure of a growing string. -/
def stringKind? : Report → Option String
  | registered (.ofCategory .string) code _ _ =>
    some (if code = .capacityExceeded then "out-of-memory" else "invalid-argument")
  | _ => none

/-- The code of a registered error in brackets, behind a blank. -/
def tag (code : Code) : Text := Text.ofString (" [" ++ code.id ++ "]")

/-- The line that tells a failure to the user of the command line. -/
def line : Report → Text
  | r@(registered (.ofCategory .lexer) code _ (some place)) =>
    Text.ofString "Lexer error at line " ++ place.line.text ++
      Text.ofString ": " ++ r.details ++ tag code
  | r@(registered _ code _ _) => r.message ++ tag code
  | plain m code path =>
    match path with
    | some p => if code = some absenceCode then Text.ofString "File not found: " ++ p else m
    | none => m
  | typeError m | rangeError m => m

/-- A registered error whose message is rendered from its template. -/
def ofCode (code : Code) (context : Context) (place : Option Location) : Report :=
  .registered (.ofCategory code.category) code
    (Template.render context.lookup (Text.ofString code.entry.template)) place

/-- Place of a lexer error that is made without one. -/
def startOfSource : Location := .inSource 1 0

/-- The error with an identifier, rendered from its template. Only lexer errors have a place,
and they always have one. -/
def create (id : Text) (context : Context) (place : Option Location) : Except Fault Report :=
  match Code.ofId? id with
  | none => .error (.unknownErrorId id)
  | some code =>
    .ok (ofCode code context
      (if code.category = .lexer then some (place.getD startOfSource) else none))

/-- The error with an identifier, which must belong to a category. One of the lexer needs a
place, and no other has one. -/
def createIn (category : Category) (id : Text) (context : Context) (place : Option Location) :
    Except Fault Report :=
  match Code.ofId? id with
  | none => .error (.unknownErrorId id)
  | some code =>
    if code.category ≠ category then .error (.wrongCategory category id)
    else if category ≠ .lexer then .ok (ofCode code context none)
    else if place.isNone then .error .missingPlace
    else .ok (ofCode code context place)

/-- The error with an identifier and a message of its own. -/
def createGeneral (id body : Text) (place : Option Location) : Except Fault Report :=
  if id.isEmpty then .error .missingErrorId
  else
    match Code.ofId? id with
    | none => .error (.unknownErrorId id)
    | some code => .ok (.registered .general code body place)

end Report

namespace UsageFault

/-- Names of the encodings of byte streams, between commas. -/
def encodingNames : Text :=
  Text.join (Text.ofString ", ") (Wire.all.map fun w => Text.ofString w.name)

/-- The message that refuses a command line. -/
def message : UsageFault → Text
  | missingCommand => Text.ofString "Missing command"
  | unknownCommand name => Text.ofString "Unknown command: " ++ name
  | unknownOption name => Text.ofString "Unknown option: " ++ name
  | missingValue option => option ++ Text.ofString " requires argument"
  | missingFile => Text.ofString "Missing file argument"
  | missingErrorId => Text.ofString "Missing error ID argument"
  | missingEncoding option => option ++ Text.ofString " requires argument: " ++ encodingNames
  | invalidEncoding name =>
    Text.ofString "Invalid encoding: " ++ name ++ Text.ofString ". Expected " ++ encodingNames

end UsageFault

namespace Fault

/-- A name and the value it has in a message. -/
def item (name : String) (value : Datum) : Text × Datum := (Text.ofString name, value)

/-- The registered error for a way in which a conversion ends. -/
def codeOf : Status → Code
  | .success | .invalidArgument => .invalidArgument
  | .invalidCodePoint => .invalidCodePoint
  | .markRejected => .markRejected
  | .outOfSpace => .outOfSpace

/-- Integer in hexadecimal, with its sign in front. -/
def hexInt (n : Int) : Text :=
  (if n < 0 then [Text.unit '-'] else []) ++ Numeral.text 16 n.natAbs

/-- The wording of a failure. -/
def report : Fault → Report
  | unevenBytes source target =>
    .ofCode .invalidArgument
      [item "from" (.text (Text.ofString source.name)),
       item "to" (.text (Text.ofString target.name))] none
  | conversion status processed length source target capacity =>
    .ofCode (codeOf status)
      ([item "from" (.text (Text.ofString source.name)),
        item "to" (.text (Text.ofString target.name)),
        item "processed" (.number processed),
        item "length" (.number length)] ++
        (match capacity with
          | some x => [item "capacity" (.number x)]
          | none => [])) none
  | malformedNumber text kind place =>
    .ofCode .malformedNumber [item "text" (.text text), item "type" (.text kind)] (some place)
  | noTokenValue kind place => .ofCode .noTokenValue [item "type" (.text kind)] (some place)
  | noProgress place =>
    .plain (Text.ofString "No progress at byte " ++ place.offset.text) none none
  | capacityExceeded required limit =>
    .ofCode .capacityExceeded
      [item "required" (.ofNat required), item "maxCapacity" (.ofNat limit)] none
  | invalidStringArgument reason =>
    .ofCode .invalidStringArgument [item "reason" (.text reason)] none
  | argumentType letter found =>
    .ofCode .argumentType
      [item "conversion" (.text letter), item "type" (.text found)] none
  | argumentMissing index => .ofCode .argumentMissing [item "index" (.ofNat index)] none
  | segmentOutside offset length =>
    .ofCode .segmentOutside
      [item "offset" (.number offset), item "length" (.number length)] none
  | unreadableConfig file details =>
    .ofCode .unreadableConfig [item "file" (.text file), item "details" (.text details)] none
  | invalidConfig details => .ofCode .invalidConfig [item "details" (.text details)] none
  | invalidCodePoint value => .rangeError (Text.ofString "Invalid code point: 0x" ++ hexInt value)
  | noCharacter code => .rangeError (Text.ofString "Invalid code point " ++ code.text)
  | lexerLength length size =>
    .rangeError (Text.ofString "Lexer length " ++ length.text ++
      Text.ofString " outside source of " ++ Numeral.decimal size ++ Text.ofString " bytes")
  | radixRange radix =>
    .rangeError (Text.ofString "radix must be between 2 and 36, got " ++ radix.text)
  | integerRange value =>
    .rangeError (Text.ofString "value must be a safe integer, got " ++ value.text)
  | emptyMarker option => .typeError (Text.ofString (option ++ " must not be empty"))
  | missingErrorId => .typeError (Text.ofString "errorId is required")
  | unknownErrorId id => .typeError (Text.ofString "Unknown error ID: " ++ id)
  | wrongCategory wanted id =>
    .typeError (Text.ofString ("Expected " ++ wanted.name ++ " error ID, got: ") ++ id)
  | missingPlace =>
    .typeError (Text.ofString "Cannot read properties of undefined (reading 'line')")
  | usage problem => .plain problem.message none none
  | missingFile path => .plain (absence path) (some absenceCode) (some path)

end Fault

end TextUnits
