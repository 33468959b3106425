import TextUnits.Format.Field
import TextUnits.Format.Separators
import TextUnits.Ascii

/-!
# Integer conversions

Integers are reduced to 32 or 64 bits, as two's complement for signed conversions and without
sign for the others, and written in radix 10, 16, 8 or 2. The precision is the least number of
digits. Zero under precision 0 has no digit in a radix other than ten, and never a radix mark.
-/

namespace TextUnits.Format

/-- An integer reduced to a number of bits. -/
def wrap (bits : Nat) (signed : Bool) (n : Int) : Int :=
  if signed then n.bmod (Nat.pow 2 bits) else n.emod (Nat.pow 2 bits)

/-- Bits of an integer argument. -/
def bitsOf (wide : Bool) : Nat := if wide then 64 else 32

/-- Digits of a separator group in a radix. -/
def groupSize (radix : Nat) : Nat := if radix = 2 then 8 else if radix = 16 then 4 else 3

/-- Digits of a natural in a radix: at least `precision` of them, grouped when asked for. -/
def integerDigits (radix n : Nat) (upper : Bool) (flags : Flags) (precision : Option Nat)
    (separators : Separators) : Text :=
  let plain := Numeral.padLeft (precision.getD 0) (Numeral.text radix n)
  let cased := if upper then Ascii.toUpper plain else plain
  if flags.group then grouped (groupSize radix) separators.group cased else cased

/-- Field of an integer in decimal digits. -/
def decimalField (n : Int) (flags : Flags) (precision : Option Nat) (separators : Separators) :
    Field :=
  ⟨signOf (n < 0) flags, integerDigits 10 n.natAbs false flags precision separators, []⟩

/-- Mark in front of digits in a radix. -/
def radixMark (radix : Nat) (upper : Bool) : Text :=
  if radix = 16 then if upper then [0x30, 0x58] else [0x30, 0x78]
  else if radix = 2 then if upper then [0x30, 0x42] else [0x30, 0x62]
  else [0x30]

/-- Field of a natural in a radix other than ten. -/
def radixField (n radix : Nat) (upper : Bool) (flags : Flags) (precision : Option Nat)
    (separators : Separators) : Field :=
  if n = 0 ∧ precision = some 0 then ⟨[], [], []⟩
  else
    ⟨if flags.alternate ∧ n ≠ 0 then radixMark radix upper else [],
      integerDigits radix n upper flags precision separators, []⟩

end TextUnits.Format
