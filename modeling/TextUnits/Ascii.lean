import TextUnits.Number.Decimal
import TextUnits.Fault.Basic

/-!
# ASCII text

Letter case, comparison and numerals for ASCII; other units are left and compared as they are.
Comparison stops at a zero unit, which the end of a text counts as, so two texts compare equal
when they agree up to their first zero.
-/

namespace TextUnits.Ascii

/-- The unit with an upper case letter turned into lower case. -/
def lowerUnit (u : UInt16) : UInt16 :=
  if 0x41 ≤ u.toNat ∧ u.toNat ≤ 0x5A then u + 0x20 else u

/-- The unit with a lower case letter turned into upper case. -/
def upperUnit (u : UInt16) : UInt16 :=
  if 0x61 ≤ u.toNat ∧ u.toNat ≤ 0x7A then u - 0x20 else u

/-- The text in lower case. -/
def toLower (t : Text) : Text := t.map lowerUnit

/-- The text in upper case. -/
def toUpper (t : Text) : Text := t.map upperUnit

/-- Difference of the first pair of units that differ after `fold`, looking at `limit` pairs at
most; 0 when there is none up to a zero. -/
def compareBy (fold : UInt16 → UInt16) (a b : Text) : Nat → Int
  | 0 => 0
  | limit + 1 =>
    let x := fold (a.headD 0)
    let y := fold (b.headD 0)
    if x ≠ y then (x.toNat : Int) - (y.toNat : Int)
    else if x = 0 then 0
    else compareBy fold a.tail b.tail limit

/-- Pairs that have to be looked at to reach the ends of two texts. -/
def enough (a b : Text) : Nat := max a.length b.length + 1

/-- Order of two texts: negative, zero or positive. -/
def compare (a b : Text) : Int := compareBy id a b (enough a b)

/-- Order of two texts with letters in lower case. -/
def compareFolded (a b : Text) : Int := compareBy lowerUnit a b (enough a b)

/-- Pairs to look at when at most `count` are asked for. -/
def limitOf (count : Double) (a b : Text) : Nat := (count.naturalsBelow?).getD (enough a b)

/-- Order of the first `count` units of two texts. -/
def compareUpTo (a b : Text) (count : Double) : Int := compareBy id a b (limitOf count a b)

/-- Order of the first `count` units of two texts, with letters in lower case. -/
def compareFoldedUpTo (a b : Text) (count : Double) : Int :=
  compareBy lowerUnit a b (limitOf count a b)

/-- Whether a unit is a decimal digit. -/
def isDigit (u : UInt16) : Bool := 0x30 ≤ u && u ≤ 0x39

/-- Whether a text is a run of one or more decimal digits. -/
def isAllDigits (t : Text) : Bool := !t.isEmpty && t.all isDigit

/-- Value of a digit or letter as a digit; letters of either case go on from ten. -/
def digitValue? (u : UInt16) : Option Nat :=
  let low := (lowerUnit u).toNat
  if isDigit u then some (u.toNat - 0x30)
  else if 0x61 ≤ low ∧ low ≤ 0x7A then some (low - 0x61 + 10)
  else none

/-- Whether a unit is a digit in a radix. -/
def isDigitIn (radix : Nat) (u : UInt16) : Bool :=
  match digitValue? u with
  | some d => d < radix
  | none => false

/-- Radix of the numeral at the front and the units in front of its digits. A radix mark counts
only with a digit behind it. -/
def radixOf (t : Text) : Nat × Nat :=
  match t with
  | 0x30 :: rest =>
    let marked (letter : UInt16) (radix : Nat) : Bool :=
      match rest with
      | m :: d :: _ => lowerUnit m == letter && isDigitIn radix d
      | _ => false
    if marked 0x78 16 then (16, 2)
    else if marked 0x62 2 then (2, 2)
    else if rest.head?.any (isDigitIn 8) then (8, 1)
    else (10, 0)
  | _ => (10, 0)

/-- A numeral that was read. -/
structure Parsed where
  /-- Whether a minus sign stands in front. -/
  negative : Bool
  /-- Value without the sign; beyond 53 bits it is rounded after every step. -/
  magnitude : Nat
  /-- Units read, sign and radix mark included. -/
  consumed : Nat
  deriving DecidableEq, Repr

/-- The number that was read; a zero with a minus sign is negative zero. -/
def Parsed.value (p : Parsed) : Double :=
  let x := Double.ofNat p.magnitude
  if p.negative then x.neg else x

/-- Value of digits in a radix, rounded to 53 bits after every product and sum. -/
def digitsValue (radix : Nat) (t : Text) : Nat :=
  t.foldl (fun n u =>
    Double.nearestNat (Double.nearestNat (n * radix) + (digitValue? u).getD 0)) 0

/-- The numeral at the front, without a sign: `0x` starts a hexadecimal one, `0b` a binary one
and another leading `0` an octal one. -/
def parseUnsigned? (t : Text) : Option Parsed :=
  let (radix, skipped) := radixOf t
  let digits := (t.drop skipped).takeWhile (isDigitIn radix)
  if digits.isEmpty then none
  else some ⟨false, digitsValue radix digits, skipped + digits.length⟩

/-- The numeral at the front with an optional sign. -/
def parseInteger? (t : Text) : Option Parsed :=
  match t with
  | sign :: rest =>
    if sign = 0x2D ∨ sign = 0x2B then
      (parseUnsigned? rest).map fun p => ⟨sign == 0x2D, p.magnitude, p.consumed + 1⟩
    else parseUnsigned? t
  | [] => none

/-- Numeral of an integer. Only a decimal one has a sign. -/
def numeral (radix : Nat) (n : Int) : Text :=
  if n < 0 ∧ radix = 10 then 0x2D :: Numeral.text radix n.natAbs
  else Numeral.text radix n.natAbs

/-- Numeral of a number that has to be a safe integer, in a radix from 2 to 36. -/
def numeral? (value radix : Double) : Except Fault Text :=
  match radix.toNat? with
  | none => .error (.radixRange radix)
  | some r =>
    if r < 2 ∨ 36 < r then .error (.radixRange radix)
    else
      match value.toSafeInt? with
      | none => .error (.integerRange value)
      | some n => .ok (numeral r n)

end TextUnits.Ascii
