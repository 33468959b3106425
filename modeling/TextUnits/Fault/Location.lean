import TextUnits.Number.Decimal

/-!
# Places that errors are told for

Places in a source have a line from 1 on and a natural offset. What reports an error of its own
may name any place, even one that no source has.
-/

namespace TextUnits

/-- A line or an offset. -/
inductive Coordinate where
  /-- A whole number, told in decimal digits. -/
  | whole (n : Int)
  /-- Any other number, told as numbers are. -/
  | other (x : Double)
  deriving DecidableEq, Repr, Inhabited

namespace Coordinate

/-- The coordinate that a number gives: a whole one if the number is whole, less than `2 ^ 53` in
size and not the negative zero. -/
def ofNumber (x : Double) : Coordinate :=
  match x.toSafeInt? with
  | some n => if n = 0 ∧ x.isNegative then .other x else .whole n
  | none => .other x

/-- The number of a coordinate. -/
def number : Coordinate → Double
  | whole n => Double.ofInt n
  | other x => x

/-- How a coordinate is told. -/
def text : Coordinate → Text
  | whole n => Numeral.decimalInt n
  | other x => x.text

end Coordinate

/-- A place that an error is told for. -/
structure Location where
  /-- Line, counted from 1. -/
  line : Coordinate
  /-- Bytes in front of the place. -/
  offset : Coordinate
  deriving DecidableEq, Repr, Inhabited

/-- A place in a source. -/
def Location.inSource (line offset : Nat) : Location := ⟨.whole line, .whole offset⟩

end TextUnits
