import TextUnits.Encoding.Basic
import TextUnits.Text.Basic

/-!
# Encodings of byte streams

A `Wire` encoding is an encoding together with the byte order of its units, so that a list of
bytes has one reading. `Wire.unitsOf` groups bytes into units of the host and `Wire.bytesOf`
lays units out again.
-/

namespace TextUnits

/-- An encoding with the order its units are stored in. -/
inductive Wire where
  /-- UTF-8. -/
  | utf8
  /-- UTF-16, low byte first. -/
  | utf16le
  /-- UTF-16, high byte first. -/
  | utf16be
  /-- UTF-32, low byte first. -/
  | utf32le
  /-- UTF-32, high byte first. -/
  | utf32be
  deriving DecidableEq, Repr, Inhabited

namespace Encoding

/-- Name of an encoding. -/
def name : Encoding → String
  | utf8 => "utf8"
  | utf16 => "utf16"
  | utf32 => "utf32"

/-- Units of the host that lie in memory as the given bytes. Bytes that do not fill a unit are
left out. -/
def unitsOf : (e : Encoding) → List UInt8 → List e.Unit
  | utf8, bytes => bytes
  | utf16, bytes => pairs bytes
  | utf32, bytes => quads bytes
where
  /-- Words of two bytes, low byte first. -/
  pairs : List UInt8 → List UInt16
    | a :: b :: rest => UInt16.ofNat (a.toNat + b.toNat * 0x100) :: pairs rest
    | _ => []
  /-- Words of four bytes, low byte first. -/
  quads : List UInt8 → List UInt32
    | a :: b :: c :: d :: rest =>
      UInt32.ofNat (a.toNat + b.toNat * 0x100 + c.toNat * 0x10000 + d.toNat * 0x1000000) ::
        quads rest
    | _ => []

/-- Bytes as which units of the host lie in memory. -/
def bytesOf : (e : Encoding) → List e.Unit → List UInt8
  | utf8, units => units
  | utf16, units => units.flatMap fun (u : UInt16) =>
      [UInt8.ofNat u.toNat, UInt8.ofNat (u.toNat / 0x100)]
  | utf32, units => units.flatMap fun (u : UInt32) =>
      [UInt8.ofNat u.toNat, UInt8.ofNat (u.toNat / 0x100), UInt8.ofNat (u.toNat / 0x10000),
        UInt8.ofNat (u.toNat / 0x1000000)]

end Encoding

namespace Wire

/-- All encodings of byte streams, in the order they are listed to the user. -/
def all : List Wire := [utf8, utf16le, utf16be, utf32le, utf32be]

/-- Name of an encoding of byte streams. -/
def name : Wire → String
  | utf8 => "utf8"
  | utf16le => "utf16le"
  | utf16be => "utf16be"
  | utf32le => "utf32le"
  | utf32be => "utf32be"

/-- The encoding of byte streams with a name. -/
def ofName? (t : Text) : Option Wire := all.find? fun w => Text.ofString w.name = t

/-- The encoding of the units. -/
def base : Wire → Encoding
  | utf8 => .utf8
  | utf16le | utf16be => .utf16
  | utf32le | utf32be => .utf32

/-- The order of the bytes of a unit. -/
def order : Wire → Order
  | utf8 | utf16le | utf32le => .le
  | utf16be | utf32be => .be

end Wire

end TextUnits
