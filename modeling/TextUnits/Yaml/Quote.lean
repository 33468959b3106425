import TextUnits.Yaml.Scalar

/-!
# Quoted scalars of YAML

Single quotes keep everything but a doubled quote, double quotes know escapes. Either may span
lines, whose indentation must suffice; a scalar ends in front of a line that does not go on with
it, and with the document when nothing closes it. It has a value if a quote stands at its end,
even one that was taken for a part of the content.
-/

namespace TextUnits.Yaml

/-- Whether nothing, a blank or the end of a line is at the front. -/
def atBlank (t : Text) : Bool :=
  match t with
  | [] => true
  | u :: _ => isBlank u || u = 0x0A || u = 0x0D

/-- Whether three dashes or dots stand alone at the front. -/
def atDocumentMark (t : Text) : Bool :=
  (Sequence.begins (Text.ofString "---") t || Sequence.begins (Text.ofString "...") t) &&
    atBlank (t.drop 3)

/-- Whether a scalar goes on in the line at the front: the line is empty or indented by at least
so many blanks. Where none are needed, a line that starts or ends a document does not go on. -/
def continues (least : Nat) (t : Text) : Bool :=
  let indent := Sequence.run (· == 0x20) t
  if least = 0 then !atDocumentMark t
  else least ≤ indent || (t.drop indent).head? == some 0x0A

/-- Whether two units in quotes are one written unit: two single quotes in single ones, and a
backslash with what it escapes in double ones. -/
def isPair (quote u v : UInt16) : Bool :=
  if quote = 0x27 then u = 0x27 && v = 0x27 else u = 0x5C

/-- Units up to and with the closing quote. -/
def closing? (quote : UInt16) : Text → Option Nat
  | [] => none
  | [u] => if u = quote then some 1 else none
  | u :: v :: rest =>
    if isPair quote u v then (closing? quote rest).map (· + 2)
    else if u = quote then some 1
    else (closing? quote (v :: rest)).map (· + 1)

/-- Units in front of the first line, among so many units, that does not go on with a scalar;
the end of the line before it does not count. -/
def broken? (least : Nat) : Nat → Text → Option Nat
  | 0, _ | _, [] => none
  | n + 1, u :: rest =>
    if u = 0x0A ∧ !continues least rest then some 0 else (broken? least n rest).map (· + 1)

/-- Units of a quoted scalar behind its opening quote. -/
def quotedLength (least : Nat) (quote : UInt16) (t : Text) : Nat :=
  match closing? quote t with
  | some n => (broken? least n t).getD n
  | none => t.length

/-- Content of single quotes with one quote for every two. -/
def undoubled : Text → Text
  | 0x27 :: 0x27 :: rest => 0x27 :: undoubled rest
  | u :: rest => u :: undoubled rest
  | [] => []

/-- Value of a scalar in single quotes, from behind its opening quote. -/
def single? (t : Text) : Option Text :=
  if t.getLast? = some 0x27 then some (undoubled (folded t.dropLast)) else none

/-- Units that one letter behind a backslash stands for. -/
def escapes : List (Char × UInt16) :=
  [('0', 0x00), ('a', 0x07), ('b', 0x08), ('e', 0x1B), ('f', 0x0C), ('n', 0x0A), ('r', 0x0D),
   ('t', 0x09), ('v', 0x0B), ('N', 0x85), ('_', 0xA0), ('L', 0x2028), ('P', 0x2029),
   (' ', 0x20), ('"', 0x22), ('/', 0x2F), ('\\', 0x5C), ('\t', 0x09)]

/-- Digits that a letter for a numbered character needs behind it. -/
def numberedDigits : List (Char × Nat) := [('x', 2), ('u', 4), ('U', 8)]

/-- What a table has for a unit. -/
def under {α : Type} (table : List (Char × α)) (u : UInt16) : Option α :=
  (table.find? fun entry => Text.unit entry.1 = u).map (·.2)

/-- The character with a number in hexadecimal digits. -/
def numbered? (count : Nat) (digits : Text) : Option Text :=
  let n := natural 16 digits
  if digits.length = count ∧ digits.all (Ascii.isDigitIn 16) ∧ n < 0x110000 then
    some (if n < 0x10000 then [UInt16.ofNat n] else Text.unitsOfChar (Char.ofNat n))
  else none

/-- Parts of a scalar in double quotes, from behind its opening quote; the last unit is not read
unless it is escaped. An escaped line break is dropped with the blanks behind it; an escape that
is not known is refused. -/
def unescape? : Text → Option (List Glyph)
  | [] | [_] => some []
  | u :: v :: rest =>
    if u ≠ 0x5C then (unescape? (v :: rest)).map (Glyph.ofUnit u :: ·)
    else if v = 0x0A then (unescape? (rest.dropWhile isBlank)).map (.text [] :: ·)
    else
      match under escapes v, under numberedDigits v with
      | some w, _ => (unescape? rest).map (.text [w] :: ·)
      | none, some count => do
        let units ← numbered? count (rest.take count)
        let glyphs ← unescape? (rest.drop count)
        return .text units :: glyphs
      | none, none => none
termination_by t => t.length
decreasing_by
  all_goals simp only [List.length_cons, List.length_drop]
  all_goals have shorter := (List.dropWhile_sublist isBlank (l := rest)).length_le
  all_goals omega

/-- Value of a scalar in double quotes, from behind its opening quote. -/
def double? (t : Text) : Option Text :=
  if t.getLast? = some 0x22 then (unescape? t).map (fold [] 0) else none

end TextUnits.Yaml
