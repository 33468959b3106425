import TextUnits.Buffer.Basic
import TextUnits.Lexer.Cursor

/-!
# Values of tokens

The value of a token is its bytes without what only delimits them: a text in quotes loses its
quotes and has its escapes replaced, a comment loses its markers. A number that breaks off has
no value.
-/

namespace TextUnits.Lexer

/-- The byte that an escape stands for, given the byte behind the backslash. -/
def escaped? (b : UInt8) : Option UInt8 :=
  if b = 0x72 then some 0x0D
  else if b = 0x6E then some 0x0A
  else if b = 0x74 then some 0x09
  else if b = 0x66 then some 0x0C
  else if b = 0x22 ∨ b = 0x27 ∨ b = 0x5C then some b
  else if b = 0x30 then some 0x00
  else none

/-- Bytes with their escapes replaced; a backslash that starts none stays. -/
def unescape : List UInt8 → List UInt8
  | [] => []
  | [b] => [b]
  | b :: c :: rest =>
    match if b = 0x5C then escaped? c else none with
    | some e => e :: unescape rest
    | none => b :: unescape (c :: rest)

/-- Bytes without a quote at their start and the byte at their end. -/
def unquote (bytes : List UInt8) : List UInt8 :=
  match bytes with
  | q :: _ :: _ => if q = 0x22 ∨ q = 0x27 then bytes.tail.dropLast else bytes
  | _ => bytes

/-- Bytes of a comment without its opener, and without the closer of a block comment. -/
def commentBody (o : Options) (bytes : List UInt8) : List UInt8 :=
  match Sequence.after? o.lineOpener bytes with
  | some body => body
  | none =>
    match Sequence.after? o.blockOpener bytes with
    | some body =>
      if Sequence.ends o.blockCloser body then body.take (body.length - o.blockCloser.length)
      else body
    | none => bytes

/-- Bytes of the value of a token that is no number that breaks off. -/
def valueBytes (o : Options) (t : Token) : List UInt8 :=
  if t.isKind .stringDouble || t.isKind .stringSingle then unescape (unquote t.bytes)
  else if t.isKind .comment then commentBody o t.bytes
  else t.bytes

/-- The value of a token as a buffer. -/
def Token.value (o : Options) (t : Token) : Except Fault Buffer :=
  if t.isKind .error then
    .error (.invalidStringArgument (Text.ofString "error tokens have no value"))
  else Buffer.ofBytes (valueBytes o t) .default

/-- The value of a token as text. -/
def Token.valueText (o : Options) (t : Token) : Except Fault Text :=
  match t.value o with
  | .ok b => .ok b.text
  | .error _ => .error (.noTokenValue t.name t.place)

end TextUnits.Lexer
