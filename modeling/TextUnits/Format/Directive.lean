import TextUnits.Number.Sum
import TextUnits.Text.Basic

/-!
# Directives of a format string

Behind a `%` stand flags, a width, a precision, a length modifier and one unit that names the
conversion. `Directive.parse` reads them; every part is as long as possible, and a `0` ends the
flags. A directive that the format string cuts off has no conversion.
-/

namespace TextUnits.Format

/-- Flags of a directive. -/
structure Flags where
  /-- `-`: the field is filled up on the right. -/
  leftJustify : Bool
  /-- `+`: numbers that are not negative have a plus sign. -/
  plus : Bool
  /-- A blank: numbers that are not negative have a blank in front. -/
  space : Bool
  /-- `#`: a radix mark stands in front. -/
  alternate : Bool
  /-- `0`: the field is filled up with zeros. -/
  zeroPad : Bool
  /-- `'`: digits are grouped. -/
  group : Bool
  /-- Number of `$`, up to three: how numbers are scaled. -/
  metric : Nat
  /-- `_`: no blank stands in front of the suffix of a scaled number. -/
  metricNoSpace : Bool
  deriving DecidableEq, Repr

/-- No flag set. -/
def Flags.none : Flags := ⟨false, false, false, false, false, false, 0, false⟩

/-- A width or precision. -/
inductive Size where
  /-- As written. -/
  | number (n : Nat)
  /-- Written with so many digits that it is infinite. -/
  | infinite
  /-- To be taken from the arguments. -/
  | argument
  deriving DecidableEq, Repr

/-- The size that is written: a number, or an infinite one if there is none. -/
def Size.written : Option Nat → Size
  | some n => number n
  | none => infinite

/-- A directive as read. -/
structure Directive where
  /-- Its flags. -/
  flags : Flags
  /-- Least width; 0 when none is written. -/
  width : Size
  /-- Precision, if one is written. -/
  precision : Option Size
  /-- Whether integers have 64 bits. -/
  wide : Bool
  /-- The unit that names the conversion, unless the format string ends before it. -/
  conversion : Option UInt16
  deriving DecidableEq, Repr

namespace Directive

/-- Flags with the one that a unit stands for, if it is a flag other than `0`. -/
def flag? (flags : Flags) (u : UInt16) : Option Flags :=
  if u = 0x2D then some { flags with leftJustify := true }
  else if u = 0x2B then some { flags with plus := true }
  else if u = 0x20 then some { flags with space := true }
  else if u = 0x23 then some { flags with alternate := true }
  else if u = 0x27 then some { flags with group := true }
  else if u = 0x24 then some { flags with metric := min (flags.metric + 1) 3 }
  else if u = 0x5F then some { flags with metricNoSpace := true }
  else none

/-- The flags at the front, and the text behind them. -/
def readFlags (flags : Flags) : Text → Flags × Text
  | [] => (flags, [])
  | u :: rest =>
    if u = 0x30 then ({ flags with zeroPad := true }, rest)
    else
      match flag? flags u with
      | some more => readFlags more rest
      | none => (flags, u :: rest)

/-- Whether a unit is a decimal digit. -/
def isDigit (u : UInt16) : Bool := 0x30 ≤ u && u ≤ 0x39

/-- Value of digits with one more behind them, rounded after the product and after the sum. Once it
is infinite it stays so. -/
def sizeStep (value : Option Nat) (u : UInt16) : Option Nat :=
  value.bind fun n =>
    (Double.finiteNat? (n * 10)).bind fun product =>
      Double.finiteNat? (product + (u.toNat - 0x30))

/-- Value of decimal digits, if it is finite. -/
def sizeOf (digits : Text) : Option Nat := digits.foldl sizeStep (some 0)

/-- The width or precision at the front, and the text behind it. -/
def readSize : Text → Size × Text
  | [] => (.number 0, [])
  | u :: rest =>
    if u = 0x2A then (.argument, rest)
    else
      let digits := (u :: rest).takeWhile isDigit
      (.written (sizeOf digits), (u :: rest).drop digits.length)

/-- The precision at the front with its point, if there is one, and the text behind it. -/
def readPrecision : Text → Option Size × Text
  | 0x2E :: rest =>
    let (size, behind) := readSize rest
    (some size, behind)
  | t => (none, t)

/-- Whether the length modifier at the front asks for 64 bits, and the text behind it. -/
def readLength : Text → Bool × Text
  | 0x68 :: 0x68 :: rest => (false, rest)
  | 0x68 :: rest => (false, rest)
  | 0x6C :: 0x6C :: rest => (true, rest)
  | 0x6C :: rest => (true, rest)
  | 0x6A :: rest => (true, rest)
  | 0x7A :: rest => (true, rest)
  | 0x74 :: rest => (true, rest)
  | 0x49 :: 0x36 :: 0x34 :: rest => (true, rest)
  | 0x49 :: 0x33 :: 0x32 :: rest => (false, rest)
  | 0x49 :: rest => (true, rest)
  | t => (false, t)

/-- The directive behind a `%`, and the text behind the directive. -/
def parse (t : Text) : Directive × Text :=
  let (flags, t) := readFlags .none t
  let (width, t) := readSize t
  let (precision, t) := readPrecision t
  let (wide, t) := readLength t
  (⟨flags, width, precision, wide, t.head?⟩, t.tail)

/-- Text of a format string from a place on, which may be any number and points at a unit with its
whole part. From a place less than one unit in front of the string the first unit is read
twice. -/
def textFrom (fmt : Text) (place : Double) : Text :=
  match place.trunc? with
  | some n =>
    if n < 0 then []
    else if place.below 0 then fmt.take 1 ++ fmt
    else fmt.drop n.toNat
  | none => []

/-- The directive whose `%` stands at a place, and the place behind the directive. -/
def parseAt (fmt : Text) (percent : Double) : Directive × Double :=
  let start := percent.add (Double.ofNat 1)
  let t := textFrom fmt start
  let (directive, rest) := parse t
  (directive, start.raised (t.length - rest.length))

/-- Reading flags leaves no more than there was. -/
theorem length_readFlags (flags : Flags) (t : Text) :
    (readFlags flags t).2.length ≤ t.length := by
  induction t generalizing flags with
  | nil => simp [readFlags]
  | cons u rest ih =>
    unfold readFlags
    split
    · simp
    · split
      · exact Nat.le_succ_of_le (ih _)
      · simp

/-- Reading a size leaves no more than there was. -/
theorem length_readSize (t : Text) : (readSize t).2.length ≤ t.length := by
  cases t with
  | nil => simp [readSize]
  | cons u rest =>
    simp only [readSize]
    split
    · simp
    · simp only [List.length_drop]; omega

/-- Reading a precision leaves no more than there was. -/
theorem length_readPrecision (t : Text) : (readPrecision t).2.length ≤ t.length := by
  unfold readPrecision
  split
  · rename_i rest
    exact Nat.le_succ_of_le (length_readSize rest)
  · simp

/-- Reading a length modifier leaves no more than there was. -/
theorem length_readLength (t : Text) : (readLength t).2.length ≤ t.length := by
  unfold readLength
  split <;> simp only [List.length_cons] <;> omega

/-- What stands behind a directive is no longer than what the directive was read from. -/
theorem length_parse (t : Text) : (parse t).2.length ≤ t.length := by
  have flags := length_readFlags .none t
  have width := length_readSize (readFlags .none t).2
  have precision := length_readPrecision (readSize (readFlags .none t).2).2
  have modifier := length_readLength (readPrecision (readSize (readFlags .none t).2).2).2
  simp only [parse, List.length_tail]
  omega

end Directive

end TextUnits.Format
