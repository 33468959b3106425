import TextUnits.Transcode.Whole

/-!
# Lexer options

`Settings` are what a caller may set, with markers as text; `Options` are what the lexer works
with, with markers as bytes. A marker without any text is refused. One that is only a byte order
mark is accepted, and has no bytes, since the mark is passed over when it is encoded.
-/

namespace TextUnits.Lexer

/-- Options of a lexer as they are set; what is not set has its default. -/
structure Settings where
  /-- Whether white space is passed over. -/
  skipWhitespace : Option Bool
  /-- Whether line ends are passed over. -/
  skipNewlines : Option Bool
  /-- Whether comments are passed over. -/
  skipComments : Option Bool
  /-- Whether `-` may stand inside names. -/
  allowDashes : Option Bool
  /-- What opens a comment that ends with its line. -/
  lineOpener : Option Text
  /-- What opens a comment that ends at its closer. -/
  blockOpener : Option Text
  /-- What closes such a comment. -/
  blockCloser : Option Text
  /-- Bytes to read: all when not set, those before the first zero byte for -1. -/
  length : Option Double

/-- Nothing set. -/
def Settings.default : Settings := ⟨none, none, none, none, none, none, none, none⟩

/-- Options that a lexer works with. -/
structure Options where
  /-- Whether white space is passed over. -/
  skipWhitespace : Bool
  /-- Whether line ends are passed over. -/
  skipNewlines : Bool
  /-- Whether comments are passed over. -/
  skipComments : Bool
  /-- Whether `-` may stand inside names. -/
  allowDashes : Bool
  /-- Bytes that open a comment that ends with its line. -/
  lineOpener : List UInt8
  /-- Bytes that open a comment that ends at its closer. -/
  blockOpener : List UInt8
  /-- Bytes that close such a comment. -/
  blockCloser : List UInt8
  deriving DecidableEq, Repr

namespace Settings

/-- Opener of line comments that are not set. -/
def defaultLineOpener : Text := Text.ofString "//"

/-- Opener of block comments that are not set. -/
def defaultBlockOpener : Text := Text.ofString "/*"

/-- Closer of block comments that are not set. -/
def defaultBlockCloser : Text := Text.ofString "*/"

/-- Bytes of a marker; a marker without text is refused under the name of its option. -/
def marker (name : String) (text : Text) : Except Fault (List UInt8) :=
  if text.isEmpty then .error (.emptyMarker name) else Text.toUtf8 text .default

/-- The options that settings stand for. -/
def resolve (s : Settings) : Except Fault Options := do
  let lineOpener ← marker "lineCommentOpener" (s.lineOpener.getD defaultLineOpener)
  let blockOpener ← marker "blockCommentOpener" (s.blockOpener.getD defaultBlockOpener)
  let blockCloser ← marker "blockCommentCloser" (s.blockCloser.getD defaultBlockCloser)
  return {
    skipWhitespace := s.skipWhitespace.getD false
    skipNewlines := s.skipNewlines.getD false
    skipComments := s.skipComments.getD false
    allowDashes := s.allowDashes.getD false
    lineOpener := lineOpener
    blockOpener := blockOpener
    blockCloser := blockCloser }

/-- The bytes of a source that settings let a lexer read. -/
def readable (s : Settings) (source : List UInt8) : Except Fault (List UInt8) :=
  match selectUnits .utf8 s.length source with
  | some bytes => .ok bytes
  | none => .error (.lexerLength (s.length.getD Double.nan) source.length)

end Settings

end TextUnits.Lexer
