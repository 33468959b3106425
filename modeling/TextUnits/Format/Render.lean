import TextUnits.Format.Integer
import TextUnits.Format.Float

/-!
# What directives write

`pieceOf` gives what a directive writes: a field, or a note of how much was written before for the
argument that asks for it. It fails when an argument is missing or does not fit its conversion.
Arguments are taken from left to right, for each directive first its width, then its precision, then
its value.
-/

namespace TextUnits.Format

/-- An argument of a format string. -/
inductive Argument where
  /-- A floating point number. -/
  | number (x : Double)
  /-- An integer of any size. -/
  | integer (n : Int)
  /-- A text. -/
  | text (t : Text)
  /-- No value; it is written as a word. -/
  | null
  /-- A holder that is told how much was written; it holds a number. -/
  | counter (x : Double)
  /-- A record of any other sort, which no conversion takes. -/
  | record

/-- Name of the type of an argument. -/
def Argument.typeName : Argument → String
  | number _ => "number"
  | integer _ => "bigint"
  | text _ => "string"
  | null => "null"
  | counter _ | record => "object"

/-- Arguments that are not taken yet, and how many are. -/
structure Supply where
  /-- Arguments taken. -/
  taken : Nat
  /-- Arguments left. -/
  left : List Argument

/-- The next argument and the supply behind it. -/
def Supply.take (s : Supply) : Except Fault (Argument × Supply) :=
  match s.left with
  | [] => .error (.argumentMissing (s.taken + 1))
  | a :: rest => .ok (a, ⟨s.taken + 1, rest⟩)

/-- The fault that an argument does not fit a conversion. -/
def mismatch (letter : UInt16) (a : Argument) : Fault :=
  .argumentType [letter] (Text.ofString a.typeName)

/-- The integer of an argument, a number being cut off towards zero. -/
def integerOf (letter : UInt16) (a : Argument) : Except Fault Int :=
  match a with
  | .integer n => .ok n
  | .number x =>
    match x.trunc? with
    | some n => .ok n
    | none => .error (mismatch letter a)
  | _ => .error (mismatch letter a)

/-- The floating point number of an argument, an integer being rounded. -/
def numberOf (letter : UInt16) (a : Argument) : Except Fault Double :=
  match a with
  | .integer n => .ok (Double.ofInt n)
  | .number x => .ok x
  | _ => .error (mismatch letter a)

/-- A width or precision: as written, or the next argument cut off towards zero. An infinite one
counts as the first power of two that no finite one reaches, which is more than a text is long. -/
def sizeOf (size : Size) (s : Supply) : Except Fault (Int × Supply) :=
  match size with
  | .number n => .ok (n, s)
  | .infinite => .ok (Double.beyond, s)
  | .argument => do
    let (a, rest) ← s.take
    let n ← integerOf 0x2A a
    return (n, rest)

/-- A directive with its sizes known. -/
structure Resolved where
  /-- Flags; a negative width sets the one for filling on the right. -/
  flags : Flags
  /-- Least width. -/
  width : Nat
  /-- Precision; a negative one counts as none. -/
  precision : Option Nat
  /-- Whether integers have 64 bits. -/
  wide : Bool

/-- Sizes of a directive, taken from the arguments where they are not written. -/
def resolve (d : Directive) (s : Supply) : Except Fault (Resolved × Supply) := do
  let (width, s) ← sizeOf d.width s
  let flags := if width < 0 then { d.flags with leftJustify := true } else d.flags
  match d.precision with
  | none => return (⟨flags, width.natAbs, none, d.wide⟩, s)
  | some size =>
    let (precision, s) ← sizeOf size s
    let kept := if precision < 0 then none else some precision.toNat
    return (⟨flags, width.natAbs, kept, d.wide⟩, s)

/-- Field of a text, cut to the precision. -/
def textField (a : Argument) (precision : Option Nat) : Except Fault Field :=
  let cut (t : Text) : Field := .ofText (match precision with
    | some n => t.take n
    | none => t)
  match a with
  | .text t => .ok (cut t)
  | .null => .ok (cut (Text.ofString "null"))
  | _ => .error (mismatch 0x73 a)

/-- The first code point of a text: a surrogate pair, or one unit. -/
def firstCharacter : Text → Text
  | u :: v :: _ =>
    if Scalar.isHighSurrogate u.toNat ∧ Scalar.isLowSurrogate v.toNat then [u, v] else [u]
  | t => t

/-- Field of a character: the first of a text, or a code point, which may be a surrogate. -/
def characterField (a : Argument) : Except Fault Field :=
  match a with
  | .text (u :: rest) => .ok (.ofText (firstCharacter (u :: rest)))
  | .number x =>
    match x.toNat? with
    | some c =>
      if c ≤ Scalar.last then .ok (.ofText (Encoding.encodeUtf16 c))
      else .error (mismatch 0x63 a)
    | none => .error (mismatch 0x63 a)
  | _ => .error (mismatch 0x63 a)

/-- Precision of a scaled integer: none below 1024, where nothing is lost, else one digit when
none is given. -/
def scaledPrecision (n : Int) (precision : Option Nat) : Nat :=
  if n.natAbs < 1024 then 0 else precision.getD 1

/-- Field of a decimal integer, scaled when the flags ask for it. -/
def integerField (n : Int) (r : Resolved) (separators : Separators) : Field :=
  if 0 < r.flags.metric then
    fixedField (Double.ofInt n) ⟨r.flags, some (scaledPrecision n r.precision), false, separators⟩
  else decimalField n r.flags r.precision separators

/-- What a conversion does. -/
inductive Conversion where
  /-- Writes a text. -/
  | text
  /-- Writes a character. -/
  | character
  /-- Tells a counter how much was written. -/
  | count
  /-- Writes a decimal integer. -/
  | decimal (signed : Bool)
  /-- Writes an integer in another radix. -/
  | radix (base : Nat) (upper : Bool)
  /-- Writes a 64-bit integer in 16 hexadecimal digits. -/
  | pointer
  /-- Writes a number in fixed notation. -/
  | fixed
  /-- Writes a number in exponent notation. -/
  | exponent (upper : Bool)
  /-- Writes a number in the shorter notation. -/
  | general (upper : Bool)
  /-- Writes a number with a hexadecimal significand. -/
  | hexadecimal (upper : Bool)
  /-- Writes the unit that names the conversion, and takes no argument. -/
  | literal
  deriving DecidableEq, Repr

/-- Units that name conversions. -/
def conversions : List (Char × Conversion) :=
  [('s', .text), ('c', .character), ('n', .count), ('d', .decimal true), ('i', .decimal true),
   ('u', .decimal false), ('x', .radix 16 false), ('X', .radix 16 true), ('o', .radix 8 false),
   ('b', .radix 2 false), ('B', .radix 2 true), ('p', .pointer), ('f', .fixed),
   ('e', .exponent false), ('E', .exponent true), ('g', .general false), ('G', .general true),
   ('a', .hexadecimal false), ('A', .hexadecimal true)]

/-- The conversion that a unit names; a unit without one stands for itself. -/
def conversionOf (letter : UInt16) : Conversion :=
  ((conversions.find? fun entry => Text.unit entry.1 = letter).map (·.2)).getD .literal

/-- Field of a conversion that writes one argument. -/
def fieldOf (c : Conversion) (letter : UInt16) (r : Resolved) (separators : Separators)
    (a : Argument) : Except Fault Field :=
  let style (upper : Bool) : FloatStyle := ⟨r.flags, r.precision, upper, separators⟩
  match c with
  | .text => textField a r.precision
  | .character => characterField a
  | .decimal signed => do
    return integerField (wrap (bitsOf r.wide) signed (← integerOf letter a)) r separators
  | .radix base upper => do
    let n := (wrap (bitsOf r.wide) false (← integerOf letter a)).toNat
    return radixField n base upper r.flags r.precision separators
  | .pointer => do
    let n := (wrap 64 false (← integerOf letter a)).toNat
    return radixField n 16 false r.flags (some 16) separators
  | .fixed => do return fixedField (← numberOf letter a) (style false)
  | .exponent upper => do return exponentField (← numberOf letter a) (style upper)
  | .general upper => do return generalField (← numberOf letter a) (style upper)
  | .hexadecimal upper => do return hexField (← numberOf letter a) (style upper)
  | .count | .literal => .ok (.ofText [letter])

/-- What a directive writes. -/
inductive Piece where
  /-- Text to write. -/
  | text (t : Text)
  /-- A counter to tell how many units were written before; it is named by its place among
  the arguments. -/
  | count (argument position : Nat)
  deriving DecidableEq, Repr

/-- The piece of one directive and the arguments behind it. -/
def pieceOf (d : Directive) (letter : UInt16) (separators : Separators) (position : Nat)
    (s : Supply) : Except Fault (Piece × Supply) := do
  let (r, s) ← resolve d s
  match conversionOf letter with
  | .literal => return (.text ((Field.ofText [letter]).layout r.width r.flags), s)
  | .count =>
    let (a, rest) ← s.take
    match a with
    | .counter _ => return (.count s.taken position, rest)
    | _ => .error (mismatch letter a)
  | .pointer =>
    let (a, rest) ← s.take
    let field ← fieldOf .pointer letter r separators a
    return (.text (field.layout r.width { r.flags with zeroPad := false }), rest)
  | c =>
    let (a, rest) ← s.take
    let field ← fieldOf c letter r separators a
    return (.text (field.layout r.width r.flags), rest)

/-- The text in front of the first `%`, and the text behind that `%`, if there is one. -/
def literalRun (t : Text) : Text × Option Text :=
  match Text.cut? 0x25 t with
  | none => (t, none)
  | some (before, behind) => (before, some behind)

/-- What stands behind the first `%` is shorter. -/
theorem length_of_literalRun {t before behind : Text} (h : literalRun t = (before, some behind)) :
    behind.length < t.length := by
  unfold literalRun at h
  split at h
  · simp at h
  · rename_i found
    simp only [Prod.mk.injEq, Option.some.injEq] at h
    rw [← h.2]
    exact Text.length_of_cut? found

end TextUnits.Format
