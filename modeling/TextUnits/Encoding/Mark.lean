import TextUnits.Encoding.Basic
import TextUnits.Scalar

/-!
# Byte order marks

The code point U+FEFF at the very start of a text marks its encoding and byte order. In UTF-8
it is the three bytes `EF BB BF`; in the wider encodings it is one unit, which shows the order
of the host when it reads as U+FEFF and the other order when its swapped bytes do.
-/

namespace TextUnits.Encoding

/-- Whether UTF-8 text starts with the three bytes of the mark. -/
def startsWithMark : List UInt8 → Bool
  | a :: b :: c :: _ => a == 0xEF && b == 0xBB && c == 0xBF
  | _ => false

/-- Whether a unit is the mark stored in `order`. -/
def isMark (e : Encoding) (order : Order) (u : e.Unit) : Bool :=
  e.value (e.reorder order u) == Scalar.mark

/-- Order that a unit shows as a mark, if it is one. -/
def orderShown (e : Encoding) (u : e.Unit) : Option Order :=
  if e.isMark .le u then some .le else if e.isMark .be u then some .be else none

/-- A mark at the start of a source. -/
structure Found where
  /-- Units the mark takes. -/
  size : Nat
  /-- Order the mark shows; UTF-8 has no order to show. -/
  order : Option Order
  deriving DecidableEq, Repr

/-- The mark at the start of a source, if there is one. -/
def markOf? : (e : Encoding) → List e.Unit → Option Found
  | utf8, units => if startsWithMark units then some ⟨3, none⟩ else none
  | utf16, units => units.head?.bind fun u => (orderShown utf16 u).map fun o => ⟨1, some o⟩
  | utf32, units => units.head?.bind fun u => (orderShown utf32 u).map fun o => ⟨1, some o⟩

/-- Whether a source starts with a mark in either order. -/
def hasMark (e : Encoding) (units : List e.Unit) : Bool := (e.markOf? units).isSome

end TextUnits.Encoding
