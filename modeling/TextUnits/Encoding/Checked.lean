import TextUnits.Encoding.Decode
import TextUnits.Encoding.Encode
import TextUnits.Fault.Basic

/-!
# Single values

Encoding of a value that need not be a scalar value: the values that are none are refused. A
value is decoded at a place that need not be one of the text: none stands where no byte does.
-/

namespace TextUnits.Encoding

/-- Units of a scalar value; any other integer is refused. -/
def encode? (e : Encoding) (n : Int) : Except Fault (List e.Unit) :=
  match Scalar.ofInt? n with
  | some c => .ok (e.encode c)
  | none => .error (.invalidCodePoint n)

/-- Units that a scalar value takes; any other integer is refused. -/
def width? (e : Encoding) (n : Int) : Except Fault Nat :=
  match Scalar.ofInt? n with
  | some c => .ok (e.width c)
  | none => .error (.invalidCodePoint n)

/-- Units held by a buffer after a scalar value was written at an offset, and how many units
were written. -/
def writeAt (e : Encoding) (n : Int) (offset : Nat) (held : List e.Unit) :
    Except Fault (Nat × List e.Unit) :=
  match e.encode? n with
  | .error fault => .error fault
  | .ok units => .ok (units.length, held.take offset ++ overlay units (held.drop offset))

/-- The scalar value that UTF-8 text shows at an offset, read up to an end, and its size. There
is none at the end and where the text is malformed or cut off. Numbers that are not whole, or lie
outside the text, are no offset of a byte but may be an end. -/
def scalarAt? (offset finish : Double) (bytes : List UInt8) : Option (Nat × Nat) := do
  let start ← offset.toNat?
  match decodeUtf8 (bytes.drop start) with
  | .scalar code size =>
    let isCut := finish.below (start + size) && (1 < size || !finish.above start)
    if isCut then none else return (code, size)
  | _ => none

end TextUnits.Encoding
