import TextUnits.Text.Lossy
import TextUnits.Text.Quoted
import TextUnits.Fault.Basic

/-!
# Tokens

A `Token` is a stretch of bytes of a source with its place and its tag: a named kind, or a
single byte that has no name of its own. Its text is the lossy reading of its bytes.
-/

namespace TextUnits.Lexer

/-- Named kinds of tokens. -/
inductive Kind where
  /-- End of the source. -/
  | eof
  /-- A number that breaks off. -/
  | error
  /-- White space within a line. -/
  | whitespace
  /-- One line end. -/
  | newline
  /-- A comment of either form. -/
  | comment
  /-- A name. -/
  | identifier
  /-- A text between quotes, of either sort. -/
  | stringDouble
  /-- Reserved for single quotes; no token has this kind. -/
  | stringSingle
  /-- A whole number in decimal digits. -/
  | integerDec
  /-- A whole number in hexadecimal digits. -/
  | integerHex
  /-- A whole number in octal digits. -/
  | integerOct
  /-- A whole number in binary digits. -/
  | integerBin
  /-- A number with a fraction or an exponent in decimal digits. -/
  | floatDec
  /-- A number with a binary exponent in hexadecimal digits. -/
  | floatHex
  /-- `==` -/
  | eqEq
  /-- `!=` -/
  | notEq
  /-- `<=` -/
  | ltEq
  /-- `>=` -/
  | gtEq
  /-- `&&` -/
  | andAnd
  /-- `||` -/
  | orOr
  /-- `++` -/
  | plusPlus
  /-- `--` -/
  | minusMinus
  /-- `+=` -/
  | plusEq
  /-- `-=` -/
  | minusEq
  /-- `*=` -/
  | mulEq
  /-- `/=` -/
  | divEq
  /-- `%=` -/
  | modEq
  /-- `&=` -/
  | andEq
  /-- `|=` -/
  | orEq
  /-- `^=` -/
  | xorEq
  /-- `<<` -/
  | shl
  /-- `>>` -/
  | shr
  /-- `<<=` -/
  | shlEq
  /-- `>>=` -/
  | shrEq
  /-- `::` -/
  | colonColon
  /-- `...` -/
  | ellipsis
  deriving DecidableEq, Repr, Inhabited

/-- Name of a kind; an operator is its own name. -/
def Kind.name : Kind → String
  | eof => "eof"
  | error => "error"
  | whitespace => "whitespace"
  | newline => "newline"
  | comment => "comment"
  | identifier => "identifier"
  | stringDouble => "string-double"
  | stringSingle => "string-single"
  | integerDec => "integer-dec"
  | integerHex => "integer-hex"
  | integerOct => "integer-oct"
  | integerBin => "integer-bin"
  | floatDec => "float-dec"
  | floatHex => "float-hex"
  | eqEq => "=="
  | notEq => "!="
  | ltEq => "<="
  | gtEq => ">="
  | andAnd => "&&"
  | orOr => "||"
  | plusPlus => "++"
  | minusMinus => "--"
  | plusEq => "+="
  | minusEq => "-="
  | mulEq => "*="
  | divEq => "/="
  | modEq => "%="
  | andEq => "&="
  | orEq => "|="
  | xorEq => "^="
  | shl => "<<"
  | shr => ">>"
  | shlEq => "<<="
  | shrEq => ">>="
  | colonColon => "::"
  | ellipsis => "..."

/-- All named kinds. -/
def Kind.all : List Kind :=
  [eof, error, whitespace, newline, comment, identifier, stringDouble, stringSingle, integerDec,
   integerHex, integerOct, integerBin, floatDec, floatHex, eqEq, notEq, ltEq, gtEq, andAnd, orOr,
   plusPlus, minusMinus, plusEq, minusEq, mulEq, divEq, modEq, andEq, orEq, xorEq, shl, shr,
   shlEq, shrEq, colonColon, ellipsis]

/-- Compound operators, longer ones first among those that begin alike. -/
def Kind.operators : List Kind :=
  [eqEq, notEq, shlEq, ltEq, shl, shrEq, gtEq, shr, andAnd, andEq, orOr, orEq, plusPlus, plusEq,
   minusMinus, minusEq, mulEq, divEq, modEq, xorEq, colonColon, ellipsis]

/-- What a token is. -/
inductive Tag where
  /-- A character that stands for itself. -/
  | char (code : Nat)
  /-- A token of a named kind. -/
  | named (kind : Kind)
  deriving DecidableEq, Repr, Inhabited

/-- Name of a tag: of its kind, or the character between single quotes. -/
def Tag.name : Tag → Text
  | char code => Text.unit '\'' :: Encoding.encodeUtf16 code ++ [Text.unit '\'']
  | named kind => Text.ofString kind.name

/-- The character that stands for itself and has a number, which must be that of a code point. -/
def Tag.ofNumber? (x : Double) : Except Fault Tag :=
  match x.toNat? with
  | some code => if code ≤ 0x10FFFF then .ok (.char code) else .error (.noCharacter x)
  | none => .error (.noCharacter x)

/-- A token and where it stands. -/
structure Token where
  /-- What it is. -/
  tag : Tag
  /-- Bytes of the source in front of it. -/
  offset : Nat
  /-- Its bytes. -/
  bytes : List UInt8
  /-- Line it starts on, counted from 1. -/
  line : Nat
  deriving DecidableEq, Repr, Inhabited

namespace Token

/-- Number of its bytes. -/
def length (t : Token) : Nat := t.bytes.length

/-- Its bytes as text. -/
def text (t : Token) : Text := Text.ofBytes t.bytes

/-- Name of what it is. -/
def name (t : Token) : Text := t.tag.name

/-- Whether it is of a named kind. -/
def isKind (t : Token) (kind : Kind) : Bool := t.tag == .named kind

/-- Its place. -/
def place (t : Token) : Location := .inSource t.line t.offset

end Token

/-- A line that lists a token: line and offset, name and quoted text. -/
def listingOf (place : Location) (tag : Tag) (text : Text) : Text :=
  place.line.text ++ Text.unit ':' :: place.offset.text ++ Text.unit ' ' :: tag.name ++
    Text.unit ' ' :: text.quoted

/-- A line that lists a token. -/
def Token.listing (t : Token) : Text := listingOf t.place t.tag t.text

end TextUnits.Lexer
