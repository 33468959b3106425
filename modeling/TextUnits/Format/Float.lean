import TextUnits.Format.Field
import TextUnits.Format.Separators
import TextUnits.Ascii

/-!
# Floating point conversions

Fixed notation, exponent notation, the shorter of both, and hexadecimal notation. Digits are
those of the exact value, rounded to nearest with a half going up. At most 100 digits are
rounded exactly; further places are zeros. Numbers that are not finite are words.
-/

namespace TextUnits.Format

/-- How a number is to be written. -/
structure FloatStyle where
  /-- Flags of the directive. -/
  flags : Flags
  /-- Precision, if one is given. -/
  precision : Option Nat
  /-- Whether letters are in upper case. -/
  upper : Bool
  /-- Separators to use. -/
  separators : Separators

/-- Precision of a number when none is given. -/
def defaultPrecision : Nat := 6

/-- Most digits that are rounded exactly. -/
def exactPlaces : Nat := 100

/-- The precision of a style. -/
def FloatStyle.places (s : FloatStyle) : Nat := s.precision.getD defaultPrecision

/-- Zeros as text. -/
def zeros (count : Nat) : Text := Text.fill count 0x30

/-- Digits with a point in front of the last `places` of them, which are at least one fewer
than the digits. -/
def pointed (digits : Text) (places : Nat) : Text :=
  if places = 0 then digits
  else
    let padded := Numeral.padLeft (places + 1) digits
    padded.take (padded.length - places) ++ 0x2E :: padded.drop (padded.length - places)

/-- Numerator and denominator of the magnitude of a number; zero when it is not finite. -/
def magnitudeOf (x : Double) : Nat × Nat :=
  match x.form with
  | .finite _ significand power => Double.ratio significand power
  | _ => (0, 1)

/-- Least magnitude that has no fixed notation of its own. -/
def fixedLimit : Nat := Nat.pow 10 21

/-- Magnitude with `places` fraction digits; from 10^21 on as its shortest text. -/
def fixedText (x : Double) (places : Nat) : Text :=
  let (num, den) := magnitudeOf x
  if num < fixedLimit * den then pointed (Numeral.decimal (Decimal.fixed num den places)) places
  else x.abs.text

/-- Magnitude with `places` fraction digits, in fixed notation whatever its size. -/
def fixedDigits (x : Double) (places : Nat) : Text :=
  let (num, den) := magnitudeOf x
  let exact := min places exactPlaces
  if num < fixedLimit * den then fixedText x exact ++ zeros (places - exact)
  else
    let whole := Numeral.decimal (num / den)
    if places = 0 then whole else whole ++ 0x2E :: zeros places

/-- A mantissa with one digit in front of the point, and its power of ten. -/
structure Scientific where
  /-- One digit, and behind a point the others. -/
  mantissa : Text
  /-- Power of ten. -/
  exponent : Int
  deriving DecidableEq, Repr

/-- Magnitude with `places` digits behind the first. -/
def scientific (x : Double) (places : Nat) : Scientific :=
  let (num, den) := magnitudeOf x
  let d := Decimal.significant num den (places + 1)
  ⟨pointed (Numeral.padLeft (places + 1) (Numeral.decimal d.digits)) places, d.point - 1⟩

/-- Text without the zeros at its end and the point in front of them; a text without a point is
left as it is. -/
def trimZeros (t : Text) : Text :=
  if t.contains 0x2E then
    let short := t.reverse.dropWhile (· == 0x30)
    (if short.head? = some 0x2E then short.tail else short).reverse
  else t

/-- Text with its whole part grouped when asked for, and the decimal separator for its point. -/
def localized (t : Text) (s : FloatStyle) : Text :=
  let group (whole : Text) : Text :=
    if s.flags.group then grouped 3 s.separators.group whole else whole
  match Text.cut? 0x2E t with
  | none => group t
  | some (whole, fraction) => group whole ++ s.separators.decimal ++ fraction

/-- Exponent behind a letter: a sign and at least `least` digits. -/
def exponentTail (letter : Char) (exponent : Int) (least : Nat) : Text :=
  Text.unit letter :: (if exponent < 0 then 0x2D else 0x2B) ::
    Numeral.padLeft least (Numeral.decimal exponent.natAbs)

/-- Field of a number that is not finite. -/
def wordField? (x : Double) (flags : Flags) : Option Field :=
  match x.form with
  | .nan => some ⟨signOf false flags, Text.ofString "NaN", []⟩
  | .infinite negative => some ⟨signOf negative flags, Text.ofString "Inf", []⟩
  | .finite .. => none

/-- Most steps by which a number is scaled. -/
def metricSteps : Nat := 4

/-- Factor of one step: 1000 with one `$`, else 1024. -/
def metricDivisor (flags : Flags) : Nat := if 2 ≤ flags.metric then 1024 else 1000

/-- A magnitude divided by `divisor` while it is not below it, at most `left` times, and how
often it was divided. -/
def scaleDown (divisor : Nat) (x : Double) : Nat → Double × Nat
  | 0 => (x, 0)
  | left + 1 =>
    if x.below divisor then (x, 0)
    else
      let (scaled, steps) := scaleDown divisor (x.divNat divisor) left
      (scaled, steps + 1)

/-- A magnitude scaled as the flags ask for, and the steps it was scaled by. -/
def scaleMetric (x : Double) (flags : Flags) : Double × Nat :=
  if flags.metric = 0 then (x, 0) else scaleDown (metricDivisor flags) x metricSteps

/-- Letters of the steps of scaling, from the first. -/
def metricLetters (flags : Flags) : Text :=
  Text.ofString (if 2 ≤ flags.metric then "KMGT" else "kMGT")

/-- Suffix of a scaled number. The blank in front of it is there even without a letter. -/
def metricTail (flags : Flags) (steps : Nat) : Text :=
  if flags.metric = 0 then []
  else
    (if flags.metricNoSpace then [] else [0x20]) ++
      (if steps = 0 then []
        else ((metricLetters flags).drop (steps - 1)).take 1 ++
          (if flags.metric = 2 then [Text.unit 'i'] else []))

/-- Field of a number in fixed notation, scaled when the flags ask for it. -/
def fixedField (x : Double) (s : FloatStyle) : Field :=
  match wordField? x s.flags with
  | some word => word
  | none =>
    let (scaled, steps) := scaleMetric x.abs s.flags
    ⟨signOf x.isNegative s.flags, localized (fixedDigits scaled s.places) s,
      metricTail s.flags steps⟩

/-- Field of a number in exponent notation. -/
def exponentField (x : Double) (s : FloatStyle) : Field :=
  match wordField? x s.flags with
  | some word => word
  | none =>
    let exact := min s.places exactPlaces
    let parts := scientific x exact
    ⟨signOf x.isNegative s.flags, localized (parts.mantissa ++ zeros (s.places - exact)) s,
      exponentTail (if s.upper then 'E' else 'e') parts.exponent 2⟩

/-- Significant digits of the shorter notation. -/
def significantDigits (s : FloatStyle) : Nat := min (max s.places 1) exactPlaces

/-- Field of a number in the shorter notation: with an exponent when it is below -4 or not
below the number of significant digits, else in fixed notation. Zeros at the end of a fraction
are left out. -/
def generalField (x : Double) (s : FloatStyle) : Field :=
  match wordField? x s.flags with
  | some word => word
  | none =>
    let count := significantDigits s
    let parts := scientific x (count - 1)
    let lead := signOf x.isNegative s.flags
    if parts.exponent < -4 ∨ (count : Int) ≤ parts.exponent then
      ⟨lead, localized (trimZeros parts.mantissa) s,
        exponentTail (if s.upper then 'E' else 'e') parts.exponent 2⟩
    else
      let places := min ((count : Int) - 1 - parts.exponent).toNat exactPlaces
      ⟨lead, localized (trimZeros (fixedText x places)) s, []⟩

/-- Hexadecimal digits of the fraction of a number. -/
def hexPlaces : Nat := 13

/-- Significand of a number shifted so that its leading digit stands at 2^60, rounded half up
behind `places` hexadecimal digits, and its power of two. -/
def hexParts (x : Double) (places : Nat) : Nat × Int :=
  match x.form with
  | .finite _ significand power =>
    let exponent : Int := if significand = 0 then 0 else (power : Int) - 1022
    let rounding := if places < 15 then Nat.pow 2 59 / Nat.pow 16 places else 0
    (significand * Nat.pow 2 8 + rounding, exponent)
  | _ => (0, 0)

/-- Field of a number with a hexadecimal significand and a power of two. -/
def hexField (x : Double) (s : FloatStyle) : Field :=
  match wordField? x s.flags with
  | some word => word
  | none =>
    let (significand, exponent) := hexParts x s.places
    let digits (t : Text) : Text := if s.upper then Ascii.toUpper t else t
    let leading := digits (Numeral.text 16 (significand / Nat.pow 2 60))
    let written := min s.places hexPlaces
    let fraction := digits (Numeral.padLeft written
      (Numeral.text 16 (significand % Nat.pow 2 60 / Nat.pow 16 (15 - written))))
    ⟨signOf x.isNegative s.flags ++ [0x30, 0x78],
      if s.places = 0 then leading
      else leading ++ s.separators.decimal ++ fraction ++ zeros (s.places - written),
      exponentTail (if s.upper then 'P' else 'p') exponent 1⟩

end TextUnits.Format
