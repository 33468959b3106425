import TextUnits.Number.Double
import TextUnits.Number.Numeral

/-!
# Decimal forms of binary numbers

Three decimal forms of a magnitude `significand * 2 ^ (power - 1074)`, all in exact
arithmetic: a fixed count of fraction digits, a fixed count of significant digits, and the
fewest significant digits that read back. A half is rounded up in the first two and to the
even neighbour in the last one. `text` writes the last one, positionally for magnitudes from
10^-6 to below 10^21 and with an exponent outside.
-/

namespace TextUnits

/-- The number `digits * 10 ^ (point - places of digits)`: `point` counts the digits in front
of the decimal point and may be negative or exceed their number. -/
structure Decimal where
  /-- Significant digits, read as one number. -/
  digits : Nat
  /-- Position of the decimal point, counted from the first digit. -/
  point : Int
  deriving DecidableEq, Repr

namespace Decimal

/-- The whole `e` with `10 ^ e ≤ num / den < 10 ^ (e + 1)`, for positive `num` and `den`. -/
def magnitude (num den : Nat) : Int :=
  let guess : Int :=
    ((Numeral.digits 10 num).length : Int) - ((Numeral.digits 10 den).length : Int)
  let reached :=
    if 0 ≤ guess then decide (den * Nat.pow 10 guess.toNat ≤ num)
    else decide (den ≤ num * Nat.pow 10 (-guess).toNat)
  if reached then guess else guess - 1

/-- Numerator and denominator of `num / den * 10 ^ shift`. -/
def shifted (num den : Nat) (shift : Int) : Nat × Nat :=
  if 0 ≤ shift then (num * Nat.pow 10 shift.toNat, den) else (num, den * Nat.pow 10 (-shift).toNat)

/-- Nearest number with `places` fraction digits, as a count of units of the last place; a
half goes up. -/
def fixed (num den places : Nat) : Nat := roundDiv .up (num * Nat.pow 10 places) den

/-- Nearest number with `count` significant digits, a half going up. Zero has the digit 0 and
its point after that digit. -/
def significant (num den count : Nat) : Decimal :=
  if num = 0 then ⟨0, 1⟩
  else
    let e := magnitude num den
    let (n, d) := shifted num den ((count : Int) - 1 - e)
    let digits := roundDiv .up n d
    if digits = Nat.pow 10 count then ⟨Nat.pow 10 (count - 1), e + 2⟩ else ⟨digits, e + 1⟩

/-- The interval of reals that round to a number: its ends as multiples of a quarter of the
last binary place, and whether the ends belong to it. -/
structure Reach where
  /-- Numerator of the lower end over `4 * den`. -/
  low : Nat
  /-- Numerator of the upper end over `4 * den`. -/
  high : Nat
  /-- Whether a decimal on an end still rounds to the number. -/
  closed : Bool
  deriving DecidableEq, Repr

/-- Interval of a positive number. Below a power of two the neighbour is half as far away. -/
def reach (significand power : Nat) : Reach :=
  let step := Double.ratio 1 power
  let below := if significand = Nat.pow 2 52 ∧ 0 < power then 1 else 2
  ⟨(4 * significand - below) * step.1, (4 * significand + 2) * step.1, significand % 2 = 0⟩

/-- Whether `candidate / scale` lies in the interval, whose ends are over `4 * den`. -/
def Reach.contains (r : Reach) (den candidate scale : Nat) : Bool :=
  let c := 4 * den * candidate
  if r.closed then decide (r.low * scale ≤ c) && decide (c ≤ r.high * scale)
  else decide (r.low * scale < c) && decide (c < r.high * scale)

/-- Decimal with `count` digits that reads back, if one exists: of the two neighbours on
that grid the nearer one that does. -/
def readsBackWith? (significand power : Nat) (e : Int) (count : Nat) : Option Decimal :=
  let (num, den) := Double.ratio significand power
  let interval := reach significand power
  let shift := (count : Int) - 1 - e
  let (n, d) := shifted num den shift
  let near := roundDiv .toEven n d
  let other := if near * d ≤ n then near + 1 else near - 1
  let inside (candidate : Nat) : Bool :=
    if 0 ≤ shift then interval.contains den candidate (Nat.pow 10 shift.toNat)
    else interval.contains den (candidate * Nat.pow 10 (-shift).toNat) 1
  let place (candidate : Nat) : Decimal :=
    if candidate = Nat.pow 10 count then ⟨Nat.pow 10 (count - 1), e + 2⟩ else ⟨candidate, e + 1⟩
  if inside near then some (place near)
  else if inside other then some (place other)
  else none

/-- The first decimal that reads back when digits are added one at a time; 17 digits always
do. -/
def shortestFrom (significand power : Nat) (e : Int) (count : Nat) : Nat → Decimal
  | 0 =>
    let (num, den) := Double.ratio significand power
    significant num den count
  | more + 1 =>
    match readsBackWith? significand power e count with
    | some found => found
    | none => shortestFrom significand power e (count + 1) more

/-- Decimal of a positive magnitude with the fewest digits that read back, of these the nearest
one; between two that are equally near, the even one is taken. -/
def shortest (significand power : Nat) : Decimal :=
  let (num, den) := Double.ratio significand power
  shortestFrom significand power (magnitude num den) 1 17

/-- Text of a decimal: positional when its point lies from -5 to 21, else one digit in front
of the point and a signed exponent. -/
def text (d : Decimal) : Text :=
  let digits := Numeral.decimal d.digits
  let zero := Text.unit '0'
  let dot := Text.unit '.'
  let count : Int := digits.length
  if count ≤ d.point ∧ d.point ≤ 21 then digits ++ Text.fill (d.point - count).toNat zero
  else if 0 < d.point ∧ d.point ≤ 21 then
    digits.take d.point.toNat ++ dot :: digits.drop d.point.toNat
  else if -6 < d.point ∧ d.point ≤ 0 then
    zero :: dot :: Text.fill (-d.point).toNat zero ++ digits
  else
    let e := d.point - 1
    let tail := if e < 0 then Text.unit '-' :: Numeral.decimal e.natAbs
      else Text.unit '+' :: Numeral.decimal e.natAbs
    let head := digits.take 1 ++ (if digits.length = 1 then [] else dot :: digits.drop 1)
    head ++ Text.unit 'e' :: tail

end Decimal

namespace Double

/-- Text of a number: its sign unless it is zero, and the fewest digits that read back. -/
def text (x : Double) : Text :=
  match x.form with
  | .nan => Text.ofString "NaN"
  | .infinite negative => (if negative then [Text.unit '-'] else []) ++ Text.ofString "Infinity"
  | .finite negative significand power =>
    if significand = 0 then [Text.unit '0']
    else (if negative then [Text.unit '-'] else []) ++ (Decimal.shortest significand power).text

end Double

end TextUnits
