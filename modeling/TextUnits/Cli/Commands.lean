import TextUnits.Config.Load
import TextUnits.Lexer.Comments

/-!
# Commands on sources

What the commands make of the bytes of a file under a configuration. A listing keeps the tokens
that were read before a failure, since a trace shows them.
-/

namespace TextUnits.Cli

/-- Outcome of listing the tokens of a source. -/
structure Listing where
  /-- Lines for all tokens read, those passed over included. -/
  trace : List Text
  /-- Lines for the tokens that are not passed over. -/
  lines : Except Fault (List Text)

/-- Lists the tokens of a source. -/
def listTokens (c : Config) (source : List UInt8) : Listing :=
  match Lexer.openBytes source c.lexer.settings with
  | .error fault => ⟨[], .error fault⟩
  | .ok reader =>
    ⟨reader.tokensRead.map Lexer.Token.listing, reader.tokens.map (·.map Lexer.Token.listing)⟩

/-- A source without its comments; of the configuration only what shapes tokens counts. -/
def stripComments (c : Config) (source : List UInt8) : Except Fault Text :=
  (Lexer.openBytes source c.lexer.settings.keepingAll).bind Lexer.Reader.stripped

/-- A source in another encoding. -/
def transcode (c : Config) (source wanted : Wire) (w : Window) : Except Fault (List UInt8) :=
  Wire.transcodeWindow w source wanted c.readOptions

end TextUnits.Cli
