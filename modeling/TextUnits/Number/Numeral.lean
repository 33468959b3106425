import TextUnits.Text.Basic

/-!
# Numerals of whole numbers

Digits of a natural number in a radix from 2 to 36, most significant digit first, and their
text with lower case letters for digits from ten on.
-/

namespace TextUnits.Numeral

/-- Digits of `n` in `radix`, most significant first; zero has the single digit 0. -/
def digits (radix n : Nat) : List Nat :=
  if radix < 2 ∨ n < radix then [n]
  else digits radix (n / radix) ++ [n % radix]
termination_by n
decreasing_by exact Nat.div_lt_self (by omega) (by omega)

/-- Number that a list of digits denotes in `radix`. -/
def value (radix : Nat) (ds : List Nat) : Nat := ds.foldl (fun n d => n * radix + d) 0

/-- Unit that writes one digit: `0` to `9`, then `a` to `z`. -/
def digitUnit (d : Nat) : UInt16 :=
  if d < 10 then UInt16.ofNat (0x30 + d) else UInt16.ofNat (0x57 + d)

/-- Numeral of a natural number in `radix`. -/
def text (radix n : Nat) : Text := (digits radix n).map digitUnit

/-- Decimal numeral of a natural number. -/
def decimal (n : Nat) : Text := text 10 n

/-- Decimal numeral of an integer, with `-` in front of a negative one. -/
def decimalInt (n : Int) : Text :=
  if n < 0 then Text.unit '-' :: decimal n.natAbs else decimal n.natAbs

/-- A numeral filled up with leading zeros to at least `least` units. -/
def padLeft (least : Nat) (numeral : Text) : Text :=
  Text.fill (least - numeral.length) (Text.unit '0') ++ numeral

/-- The digits of `n` denote `n`. -/
theorem value_digits (radix n : Nat) : value radix (digits radix n) = n := by
  fun_induction digits radix n with
  | case1 n h => simp [value]
  | case2 n h ih =>
    rw [value, List.foldl_append] at *
    rw [ih]
    simp only [List.foldl_cons, List.foldl_nil]
    rw [Nat.mul_comm]
    exact Nat.div_add_mod n radix

end TextUnits.Numeral
