import TextUnits.Format.Directive

/-!
# Layout of a field

A converted value has three parts: a lead with sign and radix mark, a body and a tail. Filling
up with zeros goes between lead and body; filling up on the right wins over zeros.
-/

namespace TextUnits.Format

/-- A converted value before it is filled up to its width. -/
structure Field where
  /-- Sign and radix mark. -/
  lead : Text
  /-- Digits or text. -/
  body : Text
  /-- Exponent or suffix. -/
  tail : Text
  deriving DecidableEq, Repr

/-- A field that is only a text. -/
def Field.ofText (t : Text) : Field := ⟨[], t, []⟩

/-- Text of a field without filling. -/
def Field.content (f : Field) : Text := f.lead ++ f.body ++ f.tail

/-- Text of a field, filled up to `width` units. -/
def Field.layout (f : Field) (width : Nat) (flags : Flags) : Text :=
  let padding := width - f.content.length
  if flags.leftJustify then f.content ++ Text.fill padding 0x20
  else if flags.zeroPad then f.lead ++ Text.fill padding 0x30 ++ f.body ++ f.tail
  else Text.fill padding 0x20 ++ f.content

/-- Sign in front of a number. -/
def signOf (negative : Bool) (flags : Flags) : Text :=
  if negative then [0x2D] else if flags.plus then [0x2B] else if flags.space then [0x20] else []

/-- Digits with a separator between groups of `size`, counted from the right. -/
def grouped (size : Nat) (separator digits : Text) : Text :=
  if _short : size = 0 ∨ digits.length ≤ size then digits
  else
    grouped size separator (digits.take (digits.length - size)) ++ separator ++
      digits.drop (digits.length - size)
termination_by digits.length
decreasing_by simp only [List.length_take]; omega

end TextUnits.Format
