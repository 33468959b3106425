import TextUnits.Number.Double

/-!
# Sums of binary floating point numbers

Every finite number is a whole multiple of the least positive one, so a sum is taken in the
integers and rounded once.
-/

namespace TextUnits.Double

/-- How many times the least positive number a finite number is. -/
def multiple? (x : Double) : Option Int :=
  match x.form with
  | .finite negative significand power =>
    let magnitude : Int := (significand * Nat.pow 2 power : Nat)
    some (if negative then -magnitude else magnitude)
  | _ => none

/-- Nearest number to the sum of two numbers. A sum of zero is negative only if both are;
opposite infinities have no sum. -/
def add (x y : Double) : Double :=
  match x.multiple?, y.multiple? with
  | some m, some n =>
    if m + n = 0 then zero (x.isNegative && y.isNegative)
    else ofRatio (m + n < 0) (m + n).natAbs (Nat.pow 2 1074)
  | some _, none => if y.isNaN then nan else y
  | none, some _ => if x.isNaN then nan else x
  | none, none => if x = y ∧ !x.isNaN then x else nan

/-- Nearest number to the difference of two numbers. -/
def sub (x y : Double) : Double := x.add y.neg

/-- The number raised by one so many times, rounded every time. -/
def raised (x : Double) : Nat → Double
  | 0 => x
  | n + 1 => (x.add (ofNat 1)).raised n

/-- Whether a number equals a whole number. -/
def isWhole (x : Double) (n : Int) : Bool := x.compareInt? n = some .eq

end TextUnits.Double
