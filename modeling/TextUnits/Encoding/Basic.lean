/-!
# Encodings, their units and byte orders

An `Encoding` is one of the three Unicode encodings and `Encoding.Unit` is the machine word
it is stored in. A byte order says how the bytes of a word lie in memory; `Encoding.reorder`
turns a word stored in some order into the word with the host's order, and back, since
swapping twice changes nothing. The host of this library stores the low byte first.
-/

namespace TextUnits

/-- The Unicode encodings. -/
inductive Encoding where
  /-- Units of 8 bits, one to four of them for a code point. -/
  | utf8
  /-- Units of 16 bits, one or two of them for a code point. -/
  | utf16
  /-- Units of 32 bits, one for a code point. -/
  | utf32
  deriving DecidableEq, Repr, Inhabited

/-- Order of the bytes of a word in memory. -/
inductive Order where
  /-- Low byte first. -/
  | le
  /-- High byte first. -/
  | be
  deriving DecidableEq, Repr, Inhabited

/-- The order of the host. -/
def Order.host : Order := .le

/-- Order asked for at the destination. -/
inductive TargetOrder where
  /-- The order of the host. -/
  | native
  /-- A stated order. -/
  | fixed (order : Order)
  deriving DecidableEq, Repr, Inhabited

/-- Order asked for at the source. -/
inductive SourceOrder where
  /-- The order that a byte order mark shows, else the order of the host. -/
  | detect
  /-- The order of the host. -/
  | native
  /-- A stated order. -/
  | fixed (order : Order)
  deriving DecidableEq, Repr, Inhabited

/-- The order that a wish at the destination stands for. -/
def TargetOrder.resolve : TargetOrder → Order
  | .native => Order.host
  | .fixed order => order

/-- The order a source is read in, given the order its byte order mark shows, if any. A stated
order is kept whatever the mark shows. -/
def SourceOrder.resolve (wish : SourceOrder) (shown : Option Order) : Order :=
  match wish with
  | .detect => shown.getD Order.host
  | .native => Order.host
  | .fixed order => order

/-- The 16-bit word with its two bytes exchanged. -/
def swap16 (u : UInt16) : UInt16 :=
  UInt16.ofNat (u.toNat % 0x100 * 0x100 + u.toNat / 0x100)

/-- The 32-bit word with its four bytes in reverse. -/
def swap32 (u : UInt32) : UInt32 :=
  let second := u.toNat / 0x100
  let third := second / 0x100
  UInt32.ofNat (((u.toNat % 0x100 * 0x100 + second % 0x100) * 0x100 + third % 0x100) * 0x100 +
    third / 0x100)

/-- Number that a 16-bit word holds after the swap. -/
theorem toNat_swap16 (u : UInt16) :
    (swap16 u).toNat = u.toNat % 0x100 * 0x100 + u.toNat / 0x100 := by
  have h := u.toNat_lt
  rw [swap16, UInt16.toNat_ofNat', Nat.mod_eq_of_lt (by omega)]

/-- Number that a 32-bit word of known bytes holds after the swap. -/
theorem toNat_swap32 {u : UInt32} {a b c d : Nat} (ha : a < 0x100) (hb : b < 0x100)
    (hc : c < 0x100) (hd : d < 0x100)
    (h : u.toNat = ((d * 0x100 + c) * 0x100 + b) * 0x100 + a) :
    (swap32 u).toNat = ((a * 0x100 + b) * 0x100 + c) * 0x100 + d := by
  have first : u.toNat % 0x100 = a := by omega
  have second : u.toNat / 0x100 % 0x100 = b := by omega
  have third : u.toNat / 0x100 / 0x100 % 0x100 = c := by omega
  have fourth : u.toNat / 0x100 / 0x100 / 0x100 = d := by omega
  unfold swap32
  dsimp only
  rw [first, second, third, fourth, UInt32.toNat_ofNat', Nat.mod_eq_of_lt (by omega)]

/-- Swapping the bytes of a 16-bit word twice gives it back. -/
theorem swap16_swap16 (u : UInt16) : swap16 (swap16 u) = u := by
  apply UInt16.toNat_inj.1
  have h := u.toNat_lt
  rw [toNat_swap16, toNat_swap16]
  omega

/-- Swapping the bytes of a 32-bit word twice gives it back. -/
theorem swap32_swap32 (u : UInt32) : swap32 (swap32 u) = u := by
  apply UInt32.toNat_inj.1
  have h := u.toNat_lt
  have bytes : u.toNat = ((u.toNat / 0x100 / 0x100 / 0x100 * 0x100 +
      u.toNat / 0x100 / 0x100 % 0x100) * 0x100 + u.toNat / 0x100 % 0x100) * 0x100 +
      u.toNat % 0x100 := by omega
  have swapped := toNat_swap32 (Nat.mod_lt _ (by decide)) (Nat.mod_lt _ (by decide))
    (Nat.mod_lt _ (by decide)) (by omega) bytes
  exact (toNat_swap32 (by omega) (Nat.mod_lt _ (by decide)) (Nat.mod_lt _ (by decide))
    (Nat.mod_lt _ (by decide)) swapped).trans bytes.symm

namespace Encoding

/-- The machine word that a text in an encoding consists of. -/
abbrev Unit : Encoding → Type
  | utf8 => UInt8
  | utf16 => UInt16
  | utf32 => UInt32

/-- Bytes of one unit. -/
def unitBytes : Encoding → Nat
  | utf8 => 1
  | utf16 => 2
  | utf32 => 4

/-- The natural number that a unit holds. -/
def value : (e : Encoding) → e.Unit → Nat
  | utf8, u => UInt8.toNat u
  | utf16, u => UInt16.toNat u
  | utf32, u => UInt32.toNat u

/-- The unit that holds a natural number, which is cut to the width of the unit. -/
def unit : (e : Encoding) → Nat → e.Unit
  | utf8, n => UInt8.ofNat n
  | utf16, n => UInt16.ofNat n
  | utf32, n => UInt32.ofNat n

/-- The unit with its bytes in reverse. -/
def swap : (e : Encoding) → e.Unit → e.Unit
  | utf8, u => u
  | utf16, u => swap16 u
  | utf32, u => swap32 u

/-- Between a unit stored in `order` and the unit with the order of the host, either way. -/
def reorder (e : Encoding) (order : Order) (u : e.Unit) : e.Unit :=
  if order = Order.host then u else e.swap u

/-- Swapping the bytes of a unit twice gives it back. -/
theorem swap_swap (e : Encoding) (u : e.Unit) : e.swap (e.swap u) = u := by
  cases e
  · rfl
  · exact swap16_swap16 u
  · exact swap32_swap32 u

/-- Reordering a unit twice gives it back. -/
theorem reorder_reorder (e : Encoding) (order : Order) (u : e.Unit) :
    e.reorder order (e.reorder order u) = u := by
  unfold reorder
  split
  · rfl
  · exact swap_swap e u

/-- Units with the bytes of the first `count` of them in reverse. -/
def swapFirst (e : Encoding) (count : Nat) (units : List e.Unit) : List e.Unit :=
  (units.take count).map e.swap ++ units.drop count

end Encoding

end TextUnits
