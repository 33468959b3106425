/-!
# Code points

Code points are naturals; the scalar values are those up to U+10FFFF that are no surrogates.
This module holds the classes of code points that the other modules test, and the two
arithmetic rules that join and split surrogate pairs.
-/

namespace TextUnits.Scalar

/-- The largest code point. -/
def last : Nat := 0x10FFFF

/-- The code point written in place of malformed input. -/
def replacement : Nat := 0xFFFD

/-- The code point that marks the byte order at the start of a text. -/
def mark : Nat := 0xFEFF

/-- Whether a value is a surrogate of either half. -/
def isSurrogate (c : Nat) : Bool := 0xD800 ≤ c && c ≤ 0xDFFF

/-- Whether a value is the first half of a surrogate pair. -/
def isHighSurrogate (c : Nat) : Bool := 0xD800 ≤ c && c ≤ 0xDBFF

/-- Whether a value is the second half of a surrogate pair. -/
def isLowSurrogate (c : Nat) : Bool := 0xDC00 ≤ c && c ≤ 0xDFFF

/-- Whether a value is a scalar value: a code point that is no surrogate. -/
def isScalar (c : Nat) : Bool := c ≤ last && !isSurrogate c

/-- The scalar value that an integer is, if it is one. -/
def ofInt? (n : Int) : Option Nat :=
  if 0 ≤ n ∧ isScalar n.toNat then some n.toNat else none

/-- Whether a byte can stand nowhere in UTF-8: `C0` and `C1` would start a two-byte form of an
ASCII character, and `F5` and above a value beyond the last code point. -/
def isForbiddenOctet (b : Nat) : Bool := b == 0xC0 || b == 0xC1 || 0xF5 ≤ b

/-- Whether a byte continues a UTF-8 sequence. -/
def isContinuation (b : Nat) : Bool := b / 0x40 % 4 == 2

/-- Code point of a surrogate pair; of other values only the low ten bits count. -/
def joinPair (high low : Nat) : Nat := high % 0x400 * 0x400 + low % 0x400 + 0x10000

/-- First half of the surrogate pair of a code point from U+10000 on. -/
def highOf (c : Nat) : Nat := 0xD800 + (c - 0x10000) / 0x400

/-- Second half of the surrogate pair of a code point from U+10000 on. -/
def lowOf (c : Nat) : Nat := 0xDC00 + (c - 0x10000) % 0x400

/-- Whether a code point has the Unicode property White_Space. -/
def isWhitespace (c : Nat) : Bool :=
  (0x09 ≤ c && c ≤ 0x0D) || c == 0x20 || c == 0x85 || c == 0xA0 || c == 0x1680 ||
    (0x2000 ≤ c && c ≤ 0x200A) || c == 0x2028 || c == 0x2029 || c == 0x202F || c == 0x205F ||
    c == 0x3000

/-- Whether a code point ends a line: LF, VT, FF, CR, NEL and the two Unicode separators. -/
def isNewline (c : Nat) : Bool :=
  (0x0A ≤ c && c ≤ 0x0D) || c == 0x85 || c == 0x2028 || c == 0x2029

/-- Whether a code point is white space or zero. -/
def isBlank (c : Nat) : Bool := c == 0 || isWhitespace c

/-- A surrogate is a value from D800 to DFFF. -/
theorem isSurrogate_iff {c : Nat} : isSurrogate c = true ↔ 0xD800 ≤ c ∧ c ≤ 0xDFFF := by
  simp only [isSurrogate, Bool.and_eq_true, decide_eq_true_eq]

/-- A second half is a value from DC00 to DFFF. -/
theorem isLowSurrogate_iff {c : Nat} : isLowSurrogate c = true ↔ 0xDC00 ≤ c ∧ c ≤ 0xDFFF := by
  simp only [isLowSurrogate, Bool.and_eq_true, decide_eq_true_eq]

/-- A scalar value is at most U+10FFFF and lies outside the surrogates. -/
theorem isScalar_iff {c : Nat} :
    isScalar c = true ↔ c ≤ 0x10FFFF ∧ ¬ (0xD800 ≤ c ∧ c ≤ 0xDFFF) := by
  rw [← isSurrogate_iff]
  simp only [isScalar, Bool.and_eq_true, decide_eq_true_eq, Bool.not_eq_true', Bool.not_eq_true]
  rfl

/-- A continuation byte is one from 80 to BF. -/
theorem isContinuation_iff {b : Nat} (h : b < 0x100) :
    isContinuation b = true ↔ 0x80 ≤ b ∧ b ≤ 0xBF := by
  simp only [isContinuation, beq_iff_eq]
  omega

/-- Joining two halves gives a scalar value, whatever their upper bits are. -/
theorem isScalar_joinPair (high low : Nat) : isScalar (joinPair high low) = true := by
  rw [isScalar_iff, joinPair]
  omega

/-- The replacement for malformed input is a scalar value. -/
theorem isScalar_replacement : isScalar replacement = true := by decide

/-- Splitting a code point beyond the first plane and joining the halves gives it back. -/
theorem joinPair_highOf_lowOf {c : Nat} (low : 0x10000 ≤ c) (high : c ≤ last) :
    joinPair (highOf c) (lowOf c) = c := by
  simp only [joinPair, highOf, lowOf, last] at *
  omega

/-- A line end is white space. -/
theorem isWhitespace_of_isNewline {c : Nat} (h : isNewline c = true) : isWhitespace c = true := by
  simp only [isNewline, isWhitespace, Bool.or_eq_true, Bool.and_eq_true, decide_eq_true_eq,
    beq_iff_eq] at *
  omega

end TextUnits.Scalar
