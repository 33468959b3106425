import TextUnits.Lexer.Token

/-!
# Number literals

`number` reads the number literal at the front of bytes that start with a digit. Its answer is
the kind of the literal and how many bytes it takes. Every part is as long as possible. A
literal whose exponent has no digits, or whose hexadecimal fraction has no exponent, is an
error that ends where the missing part was expected.
-/

namespace TextUnits.Lexer

/-- Kind and size of what stands at the front of bytes. -/
structure Found where
  /-- What it is. -/
  kind : Kind
  /-- Bytes it takes. -/
  size : Nat
  deriving DecidableEq, Repr

/-- Whether a byte is a decimal digit. -/
def isDigit (b : UInt8) : Bool := 0x30 ≤ b && b ≤ 0x39

/-- Whether a byte is an octal digit. -/
def isOctal (b : UInt8) : Bool := 0x30 ≤ b && b ≤ 0x37

/-- Whether a byte is a binary digit. -/
def isBinary (b : UInt8) : Bool := b == 0x30 || b == 0x31

/-- Whether a byte is a hexadecimal digit. -/
def isHex (b : UInt8) : Bool := isDigit b || (0x61 ≤ b && b ≤ 0x66) || (0x41 ≤ b && b ≤ 0x46)

/-- Whether a byte is a letter, given in lower case, in either case. -/
def isLetter (lower : Char) (b : UInt8) : Bool :=
  b.toNat == lower.toNat || b.toNat == lower.toNat - 0x20

/-- Whether the first byte passes a test. -/
def startsWith (test : UInt8 → Bool) : List UInt8 → Bool
  | b :: _ => test b
  | [] => false

/-- Size of the suffix of an integer: the longest of `u`, `ul`, `ull`, `l`, `ll`, `lu`, `llu`
in any case, or nothing. -/
def integerSuffix (bytes : List UInt8) : Nat :=
  let u := startsWith (isLetter 'u')
  let l := startsWith (isLetter 'l')
  let second := bytes.drop 1
  let third := bytes.drop 2
  if u bytes then if l second then if l third then 3 else 2 else 1
  else if l bytes then
    if l second then if u third then 3 else 2 else if u second then 2 else 1
  else 0

/-- Size of the suffix of a number with a fraction or an exponent: one of `f`, `d`, `l`. -/
def floatSuffix (bytes : List UInt8) : Nat :=
  if startsWith (fun b => isLetter 'f' b || isLetter 'd' b || isLetter 'l' b) bytes then 1 else 0

/-- The literal of `size` bytes with its integer suffix. -/
def integer (kind : Kind) (bytes : List UInt8) (size : Nat) : Found :=
  ⟨kind, size + integerSuffix (bytes.drop size)⟩

/-- The literal of `size` bytes with its suffix for fractions. -/
def float (kind : Kind) (bytes : List UInt8) (size : Nat) : Found :=
  ⟨kind, size + floatSuffix (bytes.drop size)⟩

/-- The literal of `size` bytes whose exponent starts there: an optional sign and digits. -/
def exponent (kind : Kind) (bytes : List UInt8) (size : Nat) : Found :=
  let signed :=
    if startsWith (fun b => b == 0x2B || b == 0x2D) (bytes.drop size) then size + 1 else size
  let digits := Sequence.run isDigit (bytes.drop signed)
  if digits = 0 then ⟨.error, signed⟩ else float kind bytes (signed + digits)

/-- The literal that starts with `0x`. -/
def hexNumber (bytes : List UInt8) : Found :=
  let whole := 2 + Sequence.run isHex (bytes.drop 2)
  let pointed := startsWith (· == 0x2E) (bytes.drop whole)
  let size := if pointed then whole + 1 + Sequence.run isHex (bytes.drop (whole + 1)) else whole
  if startsWith (isLetter 'p') (bytes.drop size) then exponent .floatHex bytes (size + 1)
  else if pointed then ⟨.error, size⟩
  else integer .integerHex bytes size

/-- The literal that starts with zeros and goes on with an octal digit that is not zero, unless
a decimal digit, a point or an exponent follows the octal digits. -/
def octalNumber? (bytes : List UInt8) : Option Found :=
  let zeros := 1 + Sequence.run (· == 0x30) (bytes.drop 1)
  let size := zeros + Sequence.run isOctal (bytes.drop zeros)
  let goesOn := startsWith (fun b => isDigit b || b == 0x2E || isLetter 'e' b) (bytes.drop size)
  if startsWith isOctal (bytes.drop zeros) && !goesOn then
    some (integer .integerOct bytes size)
  else none

/-- The literal in decimal digits. -/
def decimalNumber (bytes : List UInt8) : Found :=
  let whole := 1 + Sequence.run isDigit (bytes.drop 1)
  let pointed := startsWith (· == 0x2E) (bytes.drop whole)
  let size := if pointed then whole + 1 + Sequence.run isDigit (bytes.drop (whole + 1)) else whole
  if startsWith (isLetter 'e') (bytes.drop size) then exponent .floatDec bytes (size + 1)
  else if pointed then float .floatDec bytes size
  else integer .integerDec bytes size

/-- The number literal at the front of bytes that start with a digit. -/
def number (bytes : List UInt8) : Found :=
  if startsWith (· == 0x30) bytes ∧ 1 < bytes.length then
    if startsWith (isLetter 'x') (bytes.drop 1) then hexNumber bytes
    else if startsWith (isLetter 'b') (bytes.drop 1) then
      integer .integerBin bytes (2 + Sequence.run isBinary (bytes.drop 2))
    else (octalNumber? bytes).getD (decimalNumber bytes)
  else decimalNumber bytes

end TextUnits.Lexer
