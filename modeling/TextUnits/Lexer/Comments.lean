import TextUnits.Lexer.Cursor

/-!
# Source without comments

All tokens that are no comments, byte for byte: the line end behind a line comment stays, and a
block comment leaves nothing behind.
-/

namespace TextUnits.Lexer

/-- Settings under which no token is passed over. -/
def Settings.keepingAll (s : Settings) : Settings :=
  { s with
    skipWhitespace := some false
    skipNewlines := some false
    skipComments := some false }

/-- Bytes of the tokens that are no comments. -/
def keptBytes (tokens : List Token) : List UInt8 :=
  (tokens.filter fun t => !t.isKind .comment).flatMap (·.bytes)

/-- Text of a source without its comments, read with a reader that passes over no tokens. -/
def Reader.stripped (r : Reader) : Except Fault Text :=
  match r.tokens with
  | .error fault => .error fault
  | .ok tokens => .ok (Text.ofBytes (keptBytes tokens))

end TextUnits.Lexer
