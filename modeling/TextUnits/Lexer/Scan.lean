import TextUnits.Lexer.Number
import TextUnits.Lexer.Options
import TextUnits.Scan

/-!
# The token at the front

`scan` classifies what stands at the front of bytes and says how many of them it takes. Layout
goes before comments, comments before texts in quotes, then numbers, compound operators and
names; any other byte is a token of its own.
-/

namespace TextUnits.Lexer

/-- White space or a line end at the front. White space ends in front of a line end, and CR LF
is one line end. -/
def layout? (bytes : List UInt8) : Option Found :=
  let blank := Scan.leading bytes
  if blank = 0 then none
  else
    let found := Scan.lineEnd bytes
    if blank < found.line then some ⟨.whitespace, blank⟩
    else if 0 < found.line then some ⟨.whitespace, found.line⟩
    else some ⟨.newline, found.next⟩

/-- A comment at the front that ends in front of the next line end. -/
def lineComment? (o : Options) (bytes : List UInt8) : Option Found :=
  (Sequence.after? o.lineOpener bytes).map fun body =>
    ⟨.comment, o.lineOpener.length + (Scan.lineEnd body).line⟩

/-- A comment at the front that ends with its closer, or with the source when it has none. -/
def blockComment? (o : Options) (bytes : List UInt8) : Option Found :=
  (Sequence.after? o.blockOpener bytes).map fun body =>
    match Sequence.indexOf? o.blockCloser body with
    | some inside => ⟨.comment, o.blockOpener.length + inside + o.blockCloser.length⟩
    | none => ⟨.comment, bytes.length⟩

/-- Bytes up to and with the first quote that has no backslash in front of it. -/
def closing? (quote before : UInt8) : List UInt8 → Option Nat
  | [] => none
  | b :: rest =>
    if b = quote ∧ before ≠ 0x5C then some 1 else (closing? quote b rest).map (· + 1)

/-- A text in quotes at the front, if it has a closing quote. -/
def string? : List UInt8 → Option Found
  | [] => none
  | q :: rest =>
    if q = 0x22 ∨ q = 0x27 then
      (closing? q q rest).map fun size => ⟨.stringDouble, 1 + size⟩
    else none

/-- A number at the front. -/
def number? (bytes : List UInt8) : Option Found :=
  if startsWith isDigit bytes then some (number bytes) else none

/-- The compound operator at the front, the longest one that fits. -/
def operator? (bytes : List UInt8) : Option Found :=
  (Kind.operators.find? fun kind =>
    Sequence.begins (kind.name.toList.map fun c => UInt8.ofNat c.toNat) bytes).map fun kind =>
      ⟨kind, kind.name.length⟩

/-- Whether a byte can start a name: a letter, an underscore or a byte beyond ASCII. -/
def startsName (b : UInt8) : Bool :=
  (0x61 ≤ b && b ≤ 0x7A) || (0x41 ≤ b && b ≤ 0x5A) || b == 0x5F || 0x80 ≤ b

/-- Whether a byte can go on with a name. -/
def continuesName (o : Options) (b : UInt8) : Bool :=
  startsName b || isDigit b || (o.allowDashes && b == 0x2D)

/-- A name at the front; it ends in front of the next blank code point. -/
def identifier? (o : Options) (bytes : List UInt8) : Option Found :=
  if startsWith startsName bytes then
    let limit := (Scan.blank? bytes).getD bytes.length
    some ⟨.identifier, 1 + Sequence.run (continuesName o) ((bytes.take limit).drop 1)⟩
  else none

/-- What stands at the front of bytes, if it has a named kind. -/
def scanNamed? (o : Options) (bytes : List UInt8) : Option Found :=
  layout? bytes <|> lineComment? o bytes <|> blockComment? o bytes <|> string? bytes <|>
    number? bytes <|> operator? bytes <|> identifier? o bytes

/-- What stands at the front of bytes and how many of them it takes. -/
def scan (o : Options) (bytes : List UInt8) : Tag × Nat :=
  match scanNamed? o bytes with
  | some found => (.named found.kind, found.size)
  | none => (.char ((bytes.head?.map UInt8.toNat).getD 0), 1)

end TextUnits.Lexer
