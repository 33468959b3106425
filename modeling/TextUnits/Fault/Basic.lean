import TextUnits.Encoding.Wire
import TextUnits.Transcode.Basic
import TextUnits.Fault.Location
import TextUnits.Fault.Registry

/-!
# Causes of failure

A `Fault` says why an operation could not give an answer, with the values that its message
shows. The wording is not here: `Fault.report` writes it.
-/

namespace TextUnits

/-- Why a command line is refused. -/
inductive UsageFault where
  /-- No command is given. -/
  | missingCommand
  /-- The command is not one of the known ones. -/
  | unknownCommand (name : Text)
  /-- The option is not one of the known ones. -/
  | unknownOption (name : Text)
  /-- An option stands without the value it needs. -/
  | missingValue (option : Text)
  /-- No file is given to a command that reads one. -/
  | missingFile
  /-- No error identifier is given to explain. -/
  | missingErrorId
  /-- An encoding option is not given at all. -/
  | missingEncoding (option : Text)
  /-- A name that is no encoding of byte streams. -/
  | invalidEncoding (name : Text)
  deriving DecidableEq, Repr

/-- Why an operation failed. -/
inductive Fault where
  /-- Bytes that do not divide into units of their encoding. -/
  | unevenBytes (source target : Encoding)
  /-- A conversion that did not succeed, after it had read and written some units. -/
  | conversion (status : Status) (processed length : Double) (source target : Encoding)
    (capacity : Option Double)
  /-- A number token whose exponent has no digits. -/
  | malformedNumber (text kind : Text) (place : Location)
  /-- A token without a value. -/
  | noTokenValue (kind : Text) (place : Location)
  /-- A lexer that would read tokens without bytes for ever, because a comment marker has
  none. -/
  | noProgress (place : Location)
  /-- A string would need more bytes than its limit allows. -/
  | capacityExceeded (required limit : Nat)
  /-- A string operation was given unusable arguments. -/
  | invalidStringArgument (reason : Text)
  /-- A format argument does not fit its conversion. -/
  | argumentType (conversion found : Text)
  /-- The format arguments run out; the index counts from 1. -/
  | argumentMissing (index : Nat)
  /-- A segment lies outside its path. -/
  | segmentOutside (offset length : Double)
  /-- A configuration file cannot be read. -/
  | unreadableConfig (file details : Text)
  /-- A configuration breaks a rule. -/
  | invalidConfig (details : Text)
  /-- A value that is no scalar value was to be encoded. -/
  | invalidCodePoint (value : Int)
  /-- A number that is no code point was to be shown as a character. -/
  | noCharacter (code : Double)
  /-- A length that does not fit the source of a lexer. -/
  | lexerLength (length : Double) (size : Nat)
  /-- A radix outside 2 to 36. -/
  | radixRange (radix : Double)
  /-- A number that is no safe integer. -/
  | integerRange (value : Double)
  /-- A comment marker without any text. -/
  | emptyMarker (option : String)
  /-- An error was to be made without an identifier. -/
  | missingErrorId
  /-- An error was to be made for an identifier that is not registered. -/
  | unknownErrorId (id : Text)
  /-- An error was to be made for an identifier of another category. -/
  | wrongCategory (wanted : Category) (id : Text)
  /-- A lexer error was to be made without a place. -/
  | missingPlace
  /-- A command line is refused. -/
  | usage (problem : UsageFault)
  /-- A file does not exist. -/
  | missingFile (path : Text)

/-- A result is decided by what it has for a value. -/
theorem eq_ok_of_toOption {x : Except Fault α} {a : α} (h : x.toOption = some a) : x = .ok a := by
  cases x with
  | error fault => cases h
  | ok other =>
    cases h
    rfl

end TextUnits
