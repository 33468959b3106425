import TextUnits.Encoding.Basic
import TextUnits.Scalar

/-!
# Encoding code points

`Encoding.encode` gives the units of a scalar value in the order of the host, and
`Encoding.width` their number without building them. `Encoding.encodeAll` is the standard
encoding of a sequence of scalar values.
-/

namespace TextUnits.Encoding

/-- Units that a scalar value takes. -/
def width : Encoding → Nat → Nat
  | utf8, c => if c ≤ 0x7F then 1 else if c ≤ 0x7FF then 2 else if c ≤ 0xFFFF then 3 else 4
  | utf16, c => if c ≤ 0xFFFF then 1 else 2
  | utf32, _ => 1

/-- Bytes of a scalar value in UTF-8. -/
def encodeUtf8 (c : Nat) : List UInt8 :=
  let continuation (n : Nat) : UInt8 := UInt8.ofNat (0x80 + n % 0x40)
  if c ≤ 0x7F then [UInt8.ofNat c]
  else if c ≤ 0x7FF then [UInt8.ofNat (0xC0 + c / 0x40), continuation c]
  else if c ≤ 0xFFFF then
    [UInt8.ofNat (0xE0 + c / 0x1000), continuation (c / 0x40), continuation c]
  else
    [UInt8.ofNat (0xF0 + c / 0x40000), continuation (c / 0x1000), continuation (c / 0x40),
      continuation c]

/-- Units of a scalar value in UTF-16. -/
def encodeUtf16 (c : Nat) : List UInt16 :=
  if c ≤ 0xFFFF then [UInt16.ofNat c]
  else [UInt16.ofNat (Scalar.highOf c), UInt16.ofNat (Scalar.lowOf c)]

/-- Units of a scalar value, in the order of the host. -/
def encode : (e : Encoding) → Nat → List e.Unit
  | utf8, c => encodeUtf8 c
  | utf16, c => encodeUtf16 c
  | utf32, c => [UInt32.ofNat c]

/-- Units of a sequence of scalar values, in the order of the host. -/
def encodeAll (e : Encoding) (codes : List Nat) : List e.Unit := codes.flatMap e.encode

/-- Units that a sequence of scalar values takes. -/
def widthAll (e : Encoding) : List Nat → Nat
  | [] => 0
  | c :: rest => e.width c + e.widthAll rest

/-- A scalar value takes as many units as its encoding has. -/
theorem length_encode (e : Encoding) (c : Nat) : (e.encode c).length = e.width c := by
  cases e
  · simp only [encode, encodeUtf8, width]
    split
    · rfl
    · split
      · rfl
      · split <;> rfl
  · simp only [encode, encodeUtf16, width]
    split <;> rfl
  · rfl

/-- A sequence takes as many units as its encoding has. -/
theorem length_encodeAll (e : Encoding) (codes : List Nat) :
    (e.encodeAll codes).length = e.widthAll codes := by
  induction codes with
  | nil => rfl
  | cons c rest ih =>
    simp only [encodeAll, widthAll, List.flatMap_cons, List.length_append, length_encode] at *
    rw [ih]

/-- Every scalar value takes at least one unit. -/
theorem width_pos (e : Encoding) (c : Nat) : 0 < e.width c := by
  cases e
  · simp only [width]
    split
    · omega
    · split
      · omega
      · split <;> omega
  · simp only [width]
    split <;> omega
  · simp [width]

end TextUnits.Encoding
