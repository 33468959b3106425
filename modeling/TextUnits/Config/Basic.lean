import TextUnits.Format.Separators
import TextUnits.Lexer.Options

/-!
# Configuration

A `Config` says how sources are split into tokens, how numbers are formatted and what a
conversion refuses. Every field has a default.
-/

namespace TextUnits

/-- How sources are split into tokens. -/
structure LexerConfig where
  /-- Whether white space is passed over. -/
  skipWhitespace : Bool
  /-- Whether line ends are passed over. -/
  skipNewlines : Bool
  /-- Whether comments are passed over. -/
  skipComments : Bool
  /-- Whether `-` may stand inside names. -/
  allowDashes : Bool
  /-- What opens a comment that ends with its line. -/
  lineOpener : Text
  /-- What opens a comment that ends at its closer. -/
  blockOpener : Text
  /-- What closes such a comment. -/
  blockCloser : Text
  deriving DecidableEq, Repr

/-- Settings of the whole program. -/
structure Config where
  /-- How sources are split into tokens. -/
  lexer : LexerConfig
  /-- Separators of formatted numbers. -/
  format : Format.Separators
  /-- What a conversion refuses. -/
  transcode : Strictness
  deriving DecidableEq, Repr

/-- Nothing is passed over and comments are those of C. -/
def LexerConfig.default : LexerConfig :=
  ⟨false, false, false, false, Lexer.Settings.defaultLineOpener,
    Lexer.Settings.defaultBlockOpener, Lexer.Settings.defaultBlockCloser⟩

/-- The settings that hold without a configuration. -/
def Config.default : Config := ⟨.default, .default, .lenient⟩

/-- Lexer settings of a configuration. -/
def LexerConfig.settings (c : LexerConfig) : Lexer.Settings :=
  ⟨some c.skipWhitespace, some c.skipNewlines, some c.skipComments, some c.allowDashes,
    some c.lineOpener, some c.blockOpener, some c.blockCloser, none⟩

/-- How a configuration lets the source of a conversion be read: all of it, as strictly as it
says. -/
def Config.readOptions (c : Config) : ReadOptions := ⟨c.transcode, none⟩

end TextUnits
