import TextUnits.Text.Basic

/-!
# Registered errors

Every error that the library reports under an identifier is a `Code`. `Code.entry` is its
documentation: category, description, message template, cause, resolution and examples. The
identifier is `TEXT-`, the letter of the category and three digits.
-/

namespace TextUnits

/-- The area that an error belongs to. -/
inductive Category where
  /-- Conversion between encodings. -/
  | transcode
  /-- Splitting text into tokens. -/
  | lexer
  /-- Strings that grow in place. -/
  | string
  /-- Formatted output. -/
  | format
  /-- Paths and their segments. -/
  | path
  /-- Configuration files. -/
  | config
  deriving DecidableEq, Repr, Inhabited

namespace Category

/-- All categories, in the order of the documentation. -/
def all : List Category := [transcode, lexer, string, format, path, config]

/-- Name of a category. -/
def name : Category → String
  | transcode => "transcode"
  | lexer => "lexer"
  | string => "string"
  | format => "format"
  | path => "path"
  | config => "config"

/-- Letter of a category in identifiers. -/
def letter : Category → Char
  | transcode => 'U'
  | lexer => 'L'
  | string => 'S'
  | format => 'F'
  | path => 'P'
  | config => 'C'

end Category

/-- A registered error. -/
inductive Code where
  /-- No source, a length that does not fit, or a sequence that the end cuts off. -/
  | invalidArgument
  /-- Malformed input under strict decoding. -/
  | invalidCodePoint
  /-- A byte order mark where none is allowed. -/
  | markRejected
  /-- A destination without room for the result. -/
  | outOfSpace
  /-- A number whose exponent has no digits. -/
  | malformedNumber
  /-- The value of an error token was asked for. -/
  | noTokenValue
  /-- A string that may not grow as far as needed. -/
  | capacityExceeded
  /-- A size or offset of a string that is no natural number. -/
  | invalidStringArgument
  /-- A format argument of a type that its conversion does not take. -/
  | argumentType
  /-- A format string that takes more arguments than there are. -/
  | argumentMissing
  /-- A segment that is no part of its path. -/
  | segmentOutside
  /-- A configuration file that is not well-formed. -/
  | unreadableConfig
  /-- A configuration with an unknown key or a value of the wrong kind. -/
  | invalidConfig
  deriving DecidableEq, Repr, Inhabited

/-- A scenario that shows an error. -/
structure Example where
  /-- What the scenario is. -/
  description : String
  /-- Input that causes the error. -/
  code : String
  deriving DecidableEq, Repr

/-- Documentation of a registered error. -/
structure Entry where
  /-- Number of the error within its category. -/
  number : Nat
  /-- Area of the error. -/
  category : Category
  /-- The error in a few words. -/
  description : String
  /-- Message with names in braces. -/
  template : String
  /-- How the error comes about. -/
  cause : String
  /-- What to do about it. -/
  resolution : String
  /-- Scenarios that show it. -/
  examples : List Example
  deriving DecidableEq, Repr

namespace Code

/-- All registered errors, in the order of the documentation. -/
def all : List Code :=
  [invalidArgument, invalidCodePoint, markRejected, outOfSpace, malformedNumber, noTokenValue,
   capacityExceeded, invalidStringArgument, argumentType, argumentMissing, segmentOutside,
   unreadableConfig, invalidConfig]

/-- Documentation of an error. -/
def entry : Code → Entry
  | invalidArgument =>
    { number := 1
      category := .transcode
      description := "Invalid transcoder argument"
      template := "Invalid argument while transcoding \x7bfrom\x7d to \x7bto\x7d"
      cause := "The source was null, its declared length exceeded the buffer, or a multi-byte " ++
        "sequence was cut off by the end of input."
      resolution := "Pass a source buffer and a length no larger than it. Truncated sequences " ++
        "must be completed or removed before transcoding."
      examples :=
        [⟨"UTF-8 lead byte of a 3-byte sequence at end of input", "E2 82"⟩,
         ⟨"UTF-16 high surrogate with no following unit", "D83D"⟩] }
  | invalidCodePoint =>
    { number := 2
      category := .transcode
      description := "Invalid code point"
      template := "Invalid code point in \x7bfrom\x7d input at unit \x7bprocessed\x7d"
      cause := "The input contains a forbidden byte, a lone surrogate, or a value above " ++
        "U+10FFFF while strict decoding was requested."
      resolution := "Clear the error-on-invalid-code-point flag to substitute U+FFFD, or " ++
        "repair the input."
      examples := [⟨"Forbidden UTF-8 octet", "C0"⟩] }
  | markRejected =>
    { number := 3
      category := .transcode
      description := "Byte-order mark rejected"
      template := "Byte-order mark found in \x7bfrom\x7d input"
      cause := "The input starts with a byte-order mark and BOMs were forbidden."
      resolution := "Clear the forbid-BOM flag or strip the mark first."
      examples := [⟨"UTF-8 byte-order mark", "EF BB BF 61"⟩] }
  | outOfSpace =>
    { number := 4
      category := .transcode
      description := "Destination buffer too small"
      template := "Destination capacity \x7bcapacity\x7d exhausted after \x7blength\x7d units"
      cause := "The destination buffer filled before the source was consumed."
      resolution := "Measure first by passing a null destination, then allocate the reported " ++
        "length."
      examples := [] }
  | malformedNumber =>
    { number := 1
      category := .lexer
      description := "Malformed numeric literal"
      template := "Malformed numeric literal \x7btext\x7d"
      cause := "An exponent marker was not followed by at least one digit."
      resolution := "Add exponent digits (1e5, 0x1p3) or remove the marker."
      examples :=
        [⟨"Decimal exponent without digits", "1e+"⟩,
         ⟨"Hex float exponent without digits", "0x1.8p"⟩] }
  | noTokenValue =>
    { number := 2
      category := .lexer
      description := "Token cannot be transformed"
      template := "Cannot transform \x7btype\x7d token"
      cause := "The value of an error token was requested."
      resolution := "Only transform tokens produced by a successful advance."
      examples := [] }
  | capacityExceeded =>
    { number := 1
      category := .string
      description := "String capacity exceeded"
      template := "Cannot grow string to \x7brequired\x7d bytes (limit \x7bmaxCapacity\x7d)"
      cause := "A mutation required more capacity than the string allows."
      resolution := "Raise maxCapacity or split the content."
      examples := [] }
  | invalidStringArgument =>
    { number := 2
      category := .string
      description := "Invalid string argument"
      template := "Invalid string argument: \x7breason\x7d"
      cause := "A negative or non-integer size or offset was supplied."
      resolution := "Pass non-negative integer sizes and offsets."
      examples := [] }
  | argumentType =>
    { number := 1
      category := .format
      description := "Argument type mismatch"
      template := "Conversion %\x7bconversion\x7d cannot format argument of type \x7btype\x7d"
      cause := "The argument does not match the conversion character."
      resolution := "Pass numbers or bigints to numeric conversions, strings to %s, and a " ++
        "\x7b value \x7d holder to %n."
      examples := [⟨"Object passed to %d", "format('%d', \x7b\x7d)"⟩] }
  | argumentMissing =>
    { number := 2
      category := .format
      description := "Missing format argument"
      template := "Missing argument \x7bindex\x7d for format string"
      cause := "The format string consumes more arguments than were passed."
      resolution := "Pass one argument per conversion and per * width."
      examples := [] }
  | segmentOutside =>
    { number := 1
      category := .path
      description := "Segment outside path"
      template := "Segment \x7boffset\x7d+\x7blength\x7d lies outside the path"
      cause := "A path segment does not describe a range of its own path."
      resolution := "Only iterate from segments returned by pathFirst or pathLast."
      examples := [] }
  | unreadableConfig =>
    { number := 1
      category := .config
      description := "Unreadable configuration"
      template := "Failed to parse \x7bfile\x7d: \x7bdetails\x7d"
      cause := "The configuration file is not valid YAML."
      resolution := "Fix the YAML syntax reported in the details."
      examples := [] }
  | invalidConfig =>
    { number := 2
      category := .config
      description := "Invalid configuration"
      template := "Invalid configuration: \x7bdetails\x7d"
      cause := "A configuration key is unknown or has the wrong type."
      resolution := "Use only the lexer, format and transcode sections with their documented " ++
        "keys."
      examples :=
        [⟨"Separator longer than one character",
          "format:\n  thousandsSeparator: \",,\""⟩] }

/-- Area of an error. -/
def category (c : Code) : Category := c.entry.category

/-- Identifier of an error. -/
def id (c : Code) : String :=
  let digits := toString c.entry.number
  "TEXT-" ++ String.singleton c.category.letter ++
    String.ofList (List.replicate (3 - digits.length) '0') ++ digits

/-- The registered error with an identifier. -/
def ofId? (name : Text) : Option Code := all.find? fun c => Text.ofString c.id = name

end Code

/-- Whether a text has the form of an identifier: `TEXT-`, a letter of a category and three
decimal digits. -/
def isErrorId (t : Text) : Bool :=
  match Sequence.after? (Text.ofString "TEXT-") t with
  | some [letter, a, b, c] =>
    Category.all.any (fun category => Text.unit category.letter = letter) &&
      [a, b, c].all fun u => 0x30 ≤ u && u ≤ 0x39
  | _ => false

end TextUnits
