import TextUnits.Lexer.Scan

/-!
# Walking through a source

A `Cursor` is a place in a source with the token last read. `Cursor.step` reads one token,
`Cursor.next` reads on until a token that the options do not pass over, and `tokens` collects
all of them. At the end of the source the token is empty and the cursor stays. Reading on
past tokens that take no bytes would not end, so it is broken off as stalled; such tokens
arise only from a comment marker without bytes.
-/

namespace TextUnits.Lexer

/-- A place in a source. -/
structure Cursor where
  /-- Bytes not read yet. -/
  rest : List UInt8
  /-- Bytes read. -/
  offset : Nat
  /-- Line of the place, counted from 1. -/
  line : Nat
  /-- The token read last; an empty end of source before the first. -/
  token : Token
  deriving DecidableEq, Repr

/-- How a call that reads on ended. -/
inductive Ending where
  /-- A token was read. -/
  | success
  /-- The source is read to its end. -/
  | endOfInput
  /-- A number that breaks off was read. -/
  | invalidArgument
  /-- Tokens without bytes were to be passed over. -/
  | stalled
  deriving DecidableEq, Repr, Inhabited

/-- Name of an ending. -/
def Ending.name : Ending → String
  | success => "success"
  | endOfInput => "end-of-input"
  | invalidArgument => "invalid-argument"
  | stalled => "stalled"

/-- Result of a call that reads on. -/
structure Advance where
  /-- How it ended. -/
  status : Ending
  /-- The place afterwards. -/
  cursor : Cursor
  /-- All tokens read, those passed over included. -/
  read : List Token
  deriving DecidableEq, Repr

/-- Line ends inside a token, as far as they count for the lines of later tokens. -/
def lineEnds (tag : Tag) (bytes : List UInt8) : Nat :=
  match tag with
  | .named .newline => 1
  | .named .comment | .named .stringDouble | .named .stringSingle => Scan.lineCount bytes
  | _ => 0

/-- Whether the options pass over tokens with a tag. -/
def Options.skips (o : Options) : Tag → Bool
  | .named .whitespace => o.skipWhitespace
  | .named .newline => o.skipNewlines
  | .named .comment => o.skipComments
  | _ => false

namespace Cursor

/-- The start of a source. -/
def start (bytes : List UInt8) : Cursor := ⟨bytes, 0, 1, ⟨.named .eof, 0, [], 1⟩⟩

/-- The place behind the first `size` bytes, which are a token with the given tag. -/
def take (c : Cursor) (tag : Tag) (size : Nat) : Cursor :=
  let bytes := c.rest.take size
  ⟨c.rest.drop size, c.offset + size, c.line + lineEnds tag bytes, ⟨tag, c.offset, bytes, c.line⟩⟩

/-- Reads one token, whatever it is. -/
def step (o : Options) (c : Cursor) : Cursor :=
  if c.rest.isEmpty then c.take (.named .eof) 0
  else
    let (tag, size) := scan o c.rest
    c.take tag size

/-- How reading ends with a token, or nothing when the token is to be passed over. -/
def verdict (o : Options) (ended : Bool) (token : Token) : Option Ending :=
  if ended then some .endOfInput
  else if token.isKind .error then some .invalidArgument
  else if o.skips token.tag then none
  else some .success

/-- Reads on until a token that is not passed over. -/
def next (o : Options) (c : Cursor) : Advance :=
  let behind := c.step o
  match verdict o c.rest.isEmpty behind.token with
  | some status => ⟨status, behind, [behind.token]⟩
  | none =>
    if behind.rest.length < c.rest.length then
      let later := next o behind
      ⟨later.status, later.cursor, behind.token :: later.read⟩
    else ⟨.stalled, behind, [behind.token]⟩
termination_by c.rest.length

/-- The calls of `next` up to the first that reads no token, or up to one that reads a token
without bytes. -/
def run (o : Options) (c : Cursor) : List Advance :=
  let advance := c.next o
  if _onward : advance.status = .success ∧ advance.cursor.rest.length < c.rest.length then
    advance :: run o advance.cursor
  else [advance]
termination_by c.rest.length
decreasing_by exact _onward.2

/-- The place after some calls of `next` that started at a cursor. -/
def after (c : Cursor) (steps : List Advance) : Cursor :=
  (steps.getLast?.map (·.cursor)).getD c

/-- The calls of one run and of a number of further runs, each from where the one before it
ended. -/
def runs (o : Options) (c : Cursor) : Nat → List Advance
  | 0 => c.run o
  | further + 1 =>
    let steps := c.run o
    steps ++ runs o (c.after steps) further

end Cursor

/-- A source that is ready to be read: the cursor at its start and the options. -/
structure Reader where
  /-- Options to read with. -/
  options : Options
  /-- Place in the source. -/
  cursor : Cursor

/-- Reader of bytes under settings. The length is checked before the markers. -/
def openBytes (source : List UInt8) (s : Settings) : Except Fault Reader := do
  let bytes ← s.readable source
  let options ← s.resolve
  return ⟨options, .start bytes⟩

/-- Reader of a text, which is encoded first. -/
def openText (source : Text) (s : Settings) : Except Fault Reader := do
  openBytes (← Text.toUtf8 source .default) s

namespace Reader

/-- The fault that a run ends with, unless it reads the source to its end. -/
def faultOf (advance : Advance) : Option Fault :=
  let token := advance.cursor.token
  match advance.status with
  | .endOfInput => none
  | .invalidArgument => some (.malformedNumber token.text token.name token.place)
  | .success | .stalled => some (.noProgress token.place)

/-- Tokens that a run delivers. -/
def delivered (steps : List Advance) : List Token :=
  (steps.filter fun a => a.status = .success).map (·.cursor.token)

/-- All tokens of the source that are not passed over, and what was read for them until the
end or the first fault. -/
def tokens (r : Reader) : Except Fault (List Token) :=
  let steps := r.cursor.run r.options
  match steps.getLast?.bind faultOf with
  | some fault => .error fault
  | none => .ok (delivered steps)

/-- All tokens read until the end or the first fault, those passed over included. -/
def tokensRead (r : Reader) : List Token := (r.cursor.run r.options).flatMap (·.read)

end Reader

end TextUnits.Lexer
