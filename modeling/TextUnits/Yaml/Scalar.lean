import TextUnits.Ascii
import TextUnits.Data

/-!
# Scalars of YAML

What an unquoted scalar stands for under the core schema, and how a scalar that spans lines is
folded into one text. Under the core schema a few words stand for no value and for truth values,
numerals for numbers, and everything else for itself.
-/

namespace TextUnits.Yaml

/-- Words for no value; the empty one is a scalar that is left out. -/
def nullWords : List String := ["", "~", "null", "Null", "NULL"]

/-- Words for true. -/
def trueWords : List String := ["true", "True", "TRUE"]

/-- Words for false. -/
def falseWords : List String := ["false", "False", "FALSE"]

/-- Words for infinity, which may have a sign in front. -/
def infinityWords : List String := [".inf", ".Inf", ".INF"]

/-- Words for no number. -/
def nanWords : List String := [".nan", ".NaN", ".NAN"]

/-- Whether a text is one of some words. -/
def isWord (words : List String) (t : Text) : Bool := words.any fun w => Text.ofString w = t

/-- Whether a minus sign stands in front, and what follows a sign. -/
def signed : Text → Bool × Text
  | 0x2D :: rest => (true, rest)
  | 0x2B :: rest => (false, rest)
  | t => (false, t)

/-- The natural that digits in a radix stand for. -/
def natural (radix : Nat) (digits : Text) : Nat :=
  Numeral.value radix (digits.filterMap Ascii.digitValue?)

/-- Exponent at the end of a numeral; zero when there is none. -/
def exponent? : Text → Option Int
  | [] => some 0
  | mark :: rest =>
    let (negative, digits) := signed rest
    if (mark = 0x65 ∨ mark = 0x45) ∧ Ascii.isAllDigits digits then
      let n : Int := natural 10 digits
      some (if negative then -n else n)
    else none

/-- The digits of a fraction and what follows them. -/
def fraction : Text → Text × Text
  | 0x2E :: rest => (rest.takeWhile Ascii.isDigit, rest.dropWhile Ascii.isDigit)
  | t => ([], t)

/-- Number of a decimal numeral with optional sign, fraction and exponent. Exponents are cut
off where the number has become infinite or zero. -/
def decimal? (t : Text) : Option Double :=
  let (negative, body) := signed t
  let whole := body.takeWhile Ascii.isDigit
  let (part, rest) := fraction (body.dropWhile Ascii.isDigit)
  let bound : Int := t.length + 400
  if whole.isEmpty ∧ part.isEmpty then none
  else
    (exponent? rest).map fun e =>
      Double.ofDecimal negative (natural 10 (whole ++ part))
        (part.length - max (-bound) (min bound e))

/-- Number of a numeral behind the mark of its radix. -/
def marked? (radix : Nat) (mark : String) (t : Text) : Option Double :=
  match Sequence.after? (Text.ofString mark) t with
  | some digits =>
    if digits ≠ [] ∧ digits.all (Ascii.isDigitIn radix) then
      some (Double.ofNat (natural radix digits))
    else none
  | none => none

/-- Number that a text is a numeral or a word of. -/
def number? (t : Text) : Option Double :=
  let (negative, body) := signed t
  if isWord infinityWords body then some (Double.infinity negative)
  else if isWord nanWords t then some Double.nan
  else marked? 8 "0o" t <|> marked? 16 "0x" t <|> decimal? t

/-- What an unquoted scalar stands for. -/
def plain (t : Text) : Datum :=
  if isWord nullWords t then .null
  else if isWord trueWords t then .bool true
  else if isWord falseWords t then .bool false
  else
    match number? t with
    | some x => .number x
    | none => .text t

/-- A part of a scalar before its lines are folded. -/
inductive Glyph where
  /-- Units that stay as they are. -/
  | text (t : Text)
  /-- A blank or tab, which is dropped next to a line break. -/
  | blank (u : UInt16)
  /-- The end of a line. -/
  | lineBreak
  deriving DecidableEq, Repr

/-- Whether a unit is a blank or a tab. -/
def isBlank (u : UInt16) : Bool := u = 0x20 || u = 0x09

/-- A unit as a part of a scalar. -/
def Glyph.ofUnit (u : UInt16) : Glyph :=
  if u = 0x0A then .lineBreak else if isBlank u then .blank u else .text [u]

/-- What blanks and line breaks between two units become: the blanks themselves on one line,
one blank for a single line break, and otherwise one line break less. -/
def gap (blanks : Text) : Nat → Text
  | 0 => blanks
  | 1 => [0x20]
  | n + 2 => Text.fill (n + 1) 0x0A

/-- Text of the parts of a scalar, behind blanks and line breaks that are held back. -/
def fold (blanks : Text) (breaks : Nat) : List Glyph → Text
  | [] => gap blanks breaks
  | .text t :: rest => gap blanks breaks ++ t ++ fold [] 0 rest
  | .blank u :: rest => fold (blanks ++ [u]) breaks rest
  | .lineBreak :: rest => fold blanks (breaks + 1) rest

/-- Text of a scalar as it is written, its lines folded. -/
def folded (t : Text) : Text := fold [] 0 (t.map Glyph.ofUnit)

end TextUnits.Yaml
