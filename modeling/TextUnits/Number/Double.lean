import TextUnits.Number.Rounding

/-!
# Binary floating point in exact arithmetic

A `Double` is its 64-bit pattern: a sign, eleven exponent bits and 52 fraction bits. Its
meaning is read off by `Double.form`; every operation works on exact quotients of naturals
and rounds once, to the nearest pattern and to the even one at a half. So nothing here
depends on floating point of the host.
-/

namespace TextUnits

/-- A binary64 number, given by its bit pattern. -/
structure Double where
  /-- Sign bit, eleven exponent bits and 52 fraction bits, from the top. -/
  bits : UInt64
  deriving DecidableEq, Repr, Inhabited

namespace Double

/-- What a bit pattern stands for. -/
inductive Form where
  /-- No number. -/
  | nan
  /-- Infinity of either sign. -/
  | infinite (negative : Bool)
  /-- The number `significand * 2 ^ (power - 1074)`, negated when `negative`. -/
  | finite (negative : Bool) (significand power : Nat)
  deriving DecidableEq, Repr

/-- Reading of a bit pattern. The power is counted from the least one, so it is a natural. -/
def form (x : Double) : Form :=
  let n := x.bits.toNat
  let negative := n / Nat.pow 2 63 == 1
  let exponent := n / Nat.pow 2 52 % 2048
  let fraction := n % Nat.pow 2 52
  if exponent = 2047 then
    if fraction = 0 then .infinite negative else .nan
  else if exponent = 0 then .finite negative fraction 0
  else .finite negative (Nat.pow 2 52 + fraction) (exponent - 1)

/-- Pattern with the given sign and the remaining 63 bits. -/
def ofSignAndRest (negative : Bool) (rest : Nat) : Double :=
  ⟨UInt64.ofNat ((if negative then Nat.pow 2 63 else 0) + rest)⟩

/-- The quiet pattern for no number. -/
def nan : Double := ofSignAndRest false (2047 * Nat.pow 2 52 + Nat.pow 2 51)

/-- Infinity with the given sign. -/
def infinity (negative : Bool) : Double := ofSignAndRest negative (2047 * Nat.pow 2 52)

/-- Zero with the given sign. -/
def zero (negative : Bool) : Double := ofSignAndRest negative 0

/-- The whole `n` for which `2 ^ n ≤ num / den * 2 ^ 1126 < 2 ^ (n + 1)`, cut off at zero. -/
def scaleOf (num den : Nat) : Nat :=
  let guess := num.log2 + 1126 - den.log2
  if num * Nat.pow 2 1126 < den * Nat.pow 2 guess then guess - 1 else guess

/-- Nearest pattern to the quotient `num / den`, with the sign put in front. A significand
that rounds up to the next power of two carries into the exponent bits, and magnitudes from
halfway beyond the greatest number on become infinite. -/
def ofRatio (negative : Bool) (num den : Nat) : Double :=
  if num = 0 then zero negative
  else
    let power := scaleOf num den - 104
    let significand := roundDiv .toEven (num * Nat.pow 2 1074) (den * Nat.pow 2 power)
    let rest := power * Nat.pow 2 52 + significand
    if 2047 * Nat.pow 2 52 ≤ rest then infinity negative else ofSignAndRest negative rest

/-- Nearest number to a natural. -/
def ofNat (n : Nat) : Double := ofRatio false n 1

/-- Nearest number to an integer; zero is positive. -/
def ofInt (n : Int) : Double := ofRatio (n < 0) n.natAbs 1

/-- Nearest number to `digits * 10 ^ (- places)`, negated when `negative`. -/
def ofDecimal (negative : Bool) (digits : Nat) (places : Int) : Double :=
  if places < 0 then ofRatio negative (digits * Nat.pow 10 (-places).toNat) 1
  else ofRatio negative digits (Nat.pow 10 places.toNat)

/-- Numerator and denominator of the magnitude of a finite number. -/
def ratio (significand power : Nat) : Nat × Nat :=
  if 1074 ≤ power then (significand * Nat.pow 2 (power - 1074), 1)
  else (significand, Nat.pow 2 (1074 - power))

/-- Whether the pattern is no number. -/
def isNaN (x : Double) : Bool := x.form = .nan

/-- Whether the pattern is a finite number. -/
def isFinite (x : Double) : Bool :=
  match x.form with
  | .finite .. => true
  | _ => false

/-- Whether the sign bit is set on a number; the two zeros differ in it. -/
def isNegative (x : Double) : Bool :=
  match x.form with
  | .nan => false
  | .infinite negative => negative
  | .finite negative _ _ => negative

/-- The number without its sign. -/
def abs (x : Double) : Double := ⟨UInt64.ofNat (x.bits.toNat % Nat.pow 2 63)⟩

/-- The number with its sign changed. -/
def neg (x : Double) : Double :=
  ⟨UInt64.ofNat ((x.bits.toNat + Nat.pow 2 63) % Nat.pow 2 64)⟩

/-- Integer towards zero from a finite number; nothing for the others. -/
def trunc? (x : Double) : Option Int :=
  match x.form with
  | .finite negative significand power =>
    let (num, den) := ratio significand power
    some (if negative then -((num / den : Nat) : Int) else ((num / den : Nat) : Int))
  | _ => none

/-- Integer that a number equals, when it equals one. Both zeros equal 0. -/
def toInt? (x : Double) : Option Int :=
  match x.form with
  | .finite negative significand power =>
    let (num, den) := ratio significand power
    if num % den = 0 then
      some (if negative then -((num / den : Nat) : Int) else ((num / den : Nat) : Int))
    else none
  | _ => none

/-- Natural that a number equals, when it equals one. -/
def toNat? (x : Double) : Option Nat :=
  match x.toInt? with
  | some n => if 0 ≤ n then some n.toNat else none
  | none => none

/-- Integer a bit operation works on: the number towards zero, and 0 when it is not finite. -/
def bitsOperand (x : Double) : Int := x.trunc?.getD 0

/-- Greatest natural `n` such that all naturals up to `n` are numbers of this format. -/
def maxSafe : Nat := Nat.pow 2 53 - 1

/-- The integer that a number equals when its magnitude is at most `maxSafe`. -/
def toSafeInt? (x : Double) : Option Int :=
  match x.toInt? with
  | some n => if n.natAbs ≤ maxSafe then some n else none
  | none => none

/-- Order of a number and a whole number; the pattern for no number has none. -/
def compareInt? (x : Double) (n : Int) : Option Ordering :=
  match x.form with
  | .nan => none
  | .infinite negative => some (if negative then .lt else .gt)
  | .finite negative significand power =>
    let (num, den) := ratio significand power
    let signed : Int := if negative then -(num : Int) else (num : Int)
    some (compare signed (n * (den : Int)))

/-- Whether a number is below a whole number. -/
def below (x : Double) (n : Int) : Bool := x.compareInt? n = some .lt

/-- Whether a number is above a whole number. -/
def above (x : Double) (n : Int) : Bool := x.compareInt? n = some .gt

/-- How many naturals are below a number; nothing when all are. -/
def naturalsBelow? (x : Double) : Option Nat :=
  match x.form with
  | .nan => some 0
  | .infinite negative => if negative then some 0 else none
  | .finite negative significand power =>
    let (num, den) := ratio significand power
    some (if negative then 0 else (num + den - 1) / den)

/-- Nearest number to the quotient of a finite number and a positive natural. -/
def divNat (x : Double) (d : Nat) : Double :=
  match x.form with
  | .finite negative significand power =>
    let (num, den) := ratio significand power
    ofRatio negative num (den * d)
  | _ => x

/-- Nearest natural to `n` with at most 53 significant bits, the even one at a half. -/
def nearestNat (n : Nat) : Nat :=
  let power := n.log2 - 52
  roundDiv .toEven n (Nat.pow 2 power) * Nat.pow 2 power

/-- The first power of two that no finite number reaches. -/
def beyond : Nat := Nat.pow 2 1024

/-- Nearest number to a natural, when that is finite. -/
def finiteNat? (n : Nat) : Option Nat :=
  if nearestNat n < beyond then some (nearestNat n) else none

/-- Naturals below `2 ^ 53` are numbers of this format. -/
theorem nearestNat_of_lt {n : Nat} (h : n < Nat.pow 2 53) : nearestNat n = n := by
  have low : n.log2 - 52 = 0 := by
    rcases Nat.eq_zero_or_pos n with rfl | positive
    · simp
    · have := (Nat.log2_lt (by omega : n ≠ 0)).2 h
      omega
  have whole := roundDiv_mul .toEven n 1 (by omega)
  simp only [Nat.mul_one] at whole
  simp [nearestNat, low, whole]

end Double

end TextUnits
