import TextUnits.Encoding.Encode
import TextUnits.Encoding.Wire
import Mathlib.Tactic.Common

/-!
# Characters as byte streams

`Wire.standard` is the standard encoding of characters as bytes: the bytes of UTF-8, or the
units of UTF-16 and UTF-32 laid out one after the other in the order of the stream. It is stated
without the words of a host. The main statements say that encoding characters, storing the
units in the order of the stream and taking their bytes gives it, and that its bytes group into
those units again.
-/

namespace TextUnits

/-- The lowest `count` bytes of a number, low byte first. -/
def lowBytes : Nat → Nat → List UInt8
  | 0, _ => []
  | count + 1, n => UInt8.ofNat n :: lowBytes count (n / 0x100)

/-- The lowest `count` bytes of a number as a word of that size lies in memory. -/
def Order.layOut : Order → Nat → Nat → List UInt8
  | le, count, n => lowBytes count n
  | be, count, n => (lowBytes count n).reverse

namespace Wire

/-- Standard encoding of characters as a byte stream. -/
def standard (w : Wire) (chars : List Char) : List UInt8 :=
  match w.base with
  | .utf8 => chars.flatMap String.utf8EncodeChar
  | .utf16 => (chars.flatMap Text.unitsOfChar).flatMap fun u => w.order.layOut 2 u.toNat
  | .utf32 => chars.flatMap fun c => w.order.layOut 4 c.toNat

end Wire

namespace Encoding

/-- A character is a scalar value. -/
theorem isScalar_toNat (c : Char) : Scalar.isScalar c.toNat = true := by
  rw [Scalar.isScalar_iff]
  have hv := c.valid
  simp only [UInt32.isValidChar, Nat.isValidChar] at hv
  change c.toNat < 0xD800 ∨ 0xDFFF < c.toNat ∧ c.toNat < 0x110000 at hv
  omega

/-- Every code point of characters is a scalar value. -/
theorem isScalar_of_mem_map {chars : List Char} {code : Nat}
    (h : code ∈ chars.map Char.toNat) : Scalar.isScalar code = true := by
  obtain ⟨c, _, rfl⟩ := List.mem_map.mp h
  exact isScalar_toNat c

theorem head?_map_toNat_ne {chars : List Char} {c : Char} (h : chars.head? ≠ some c) :
    (chars.map Char.toNat).head? ≠ some c.toNat := by
  rw [List.head?_map]
  intro hm
  obtain ⟨first, hfirst, hv⟩ := Option.map_eq_some_iff.mp hm
  exact h (hfirst.trans (congrArg some (Char.toNat_inj.mp hv)))

/-- UTF-8 bytes of a character. -/
theorem encodeUtf8_toNat (c : Char) : encodeUtf8 c.toNat = String.utf8EncodeChar c := by
  have hrange := Scalar.isScalar_iff.mp (isScalar_toNat c)
  have hv : c.val.toNat = c.toNat := rfl
  unfold encodeUtf8 String.utf8EncodeChar
  dsimp only
  rw [hv]
  generalize c.toNat = n at hrange ⊢
  split_ifs with hone htwo hthree
  · rfl
  · have hlead : n / 64 % 0x20 + 0xC0 = 0xC0 + n / 0x40 := by omega
    rw [hlead, Nat.add_comm (n % 0x40)]
  · have hlead : n / 4096 % 0x10 + 0xE0 = 0xE0 + n / 0x1000 := by omega
    rw [hlead, Nat.add_comm (n % 0x40), Nat.add_comm (n / 64 % 0x40)]
  · have hlead : n / 262144 % 0x08 + 0xF0 = 0xF0 + n / 0x40000 := by omega
    rw [hlead, Nat.add_comm (n % 0x40), Nat.add_comm (n / 64 % 0x40),
      Nat.add_comm (n / 4096 % 0x40)]

/-- UTF-16 units of a character. -/
theorem encodeUtf16_toNat (c : Char) : encodeUtf16 c.toNat = Text.unitsOfChar c := by
  unfold encodeUtf16 Text.unitsOfChar Scalar.highOf Scalar.lowOf
  dsimp only
  generalize c.toNat = n
  by_cases hone : n ≤ 0xFFFF
  · rw [if_pos hone, if_pos (by omega)]
  · have hlow : (n - 0x10000) % 0x400 = n % 0x400 := by omega
    rw [if_neg hone, if_neg (by omega), hlow]

/-- The bytes of a list of units are those of each of them in turn. -/
theorem bytesOf_eq_flatMap (e : Encoding) (units : List e.Unit) :
    e.bytesOf units = units.flatMap fun u => e.bytesOf [u] := by
  cases e with
  | utf8 => exact (List.flatMap_singleton' units).symm
  | utf16 => simp only [bytesOf, List.flatMap_cons, List.flatMap_nil, List.append_nil]
  | utf32 => simp only [bytesOf, List.flatMap_cons, List.flatMap_nil, List.append_nil]

/-- Two numbers that agree in their lowest byte give the same byte. -/
theorem ofNat_eq_ofNat {m n : Nat} (h : m % 0x100 = n % 0x100) :
    UInt8.ofNat m = UInt8.ofNat n := by
  apply UInt8.toNat_inj.mp
  rw [UInt8.toNat_ofNat', UInt8.toNat_ofNat']
  exact h

/-- A 16-bit word stored in an order lies in memory as its bytes in that order. -/
theorem bytesOf_reorder16 (o : Order) (u : UInt16) :
    utf16.bytesOf [utf16.reorder o u] = o.layOut 2 u.toNat := by
  have hu := u.toNat_lt
  cases o with
  | le => rfl
  | be =>
    have hv := toNat_swap16 u
    have hfirst : UInt8.ofNat (swap16 u).toNat = UInt8.ofNat (u.toNat / 0x100) :=
      ofNat_eq_ofNat (by omega)
    have hhigh : (swap16 u).toNat / 0x100 = u.toNat % 0x100 := by omega
    have hsecond : UInt8.ofNat ((swap16 u).toNat / 0x100) = UInt8.ofNat u.toNat :=
      ofNat_eq_ofNat (by rw [hhigh, Nat.mod_mod])
    change [UInt8.ofNat (swap16 u).toNat, UInt8.ofNat ((swap16 u).toNat / 0x100)] =
      [UInt8.ofNat (u.toNat / 0x100), UInt8.ofNat u.toNat]
    rw [hfirst, hsecond]

/-- The bytes of a number made of four bytes, one behind the other. -/
theorem ofNat_places {a b c d : Nat} (ha : a < 0x100) (hb : b < 0x100) (hc : c < 0x100)
    {n : Nat} (hn : n = ((d * 0x100 + c) * 0x100 + b) * 0x100 + a) :
    UInt8.ofNat n = UInt8.ofNat a ∧ UInt8.ofNat (n / 0x100) = UInt8.ofNat b ∧
      UInt8.ofNat (n / 0x10000) = UInt8.ofNat c ∧ UInt8.ofNat (n / 0x1000000) = UInt8.ofNat d := by
  have hsecond : n / 0x100 = (d * 0x100 + c) * 0x100 + b := by omega
  have hthird : n / 0x10000 = d * 0x100 + c := by omega
  have hfourth : n / 0x1000000 = d := by omega
  rw [hsecond, hthird, hfourth]
  exact ⟨ofNat_eq_ofNat (by omega), ofNat_eq_ofNat (by omega), ofNat_eq_ofNat (by omega), rfl⟩

/-- A 32-bit word stored in an order lies in memory as its bytes in that order. -/
theorem bytesOf_reorder32 (o : Order) (u : UInt32) :
    utf32.bytesOf [utf32.reorder o u] = o.layOut 4 u.toNat := by
  have hu := u.toNat_lt
  obtain ⟨a, b, c, d, ha, hb, hc, hd, hn⟩ : ∃ a b c d, a < 0x100 ∧ b < 0x100 ∧ c < 0x100 ∧
      d < 0x100 ∧ u.toNat = ((d * 0x100 + c) * 0x100 + b) * 0x100 + a :=
    ⟨u.toNat % 0x100, u.toNat / 0x100 % 0x100, u.toNat / 0x10000 % 0x100, u.toNat / 0x1000000,
      by omega, by omega, by omega, by omega, by omega⟩
  obtain ⟨hfirst, hsecond, hthird, hfourth⟩ := ofNat_places ha hb hc hn
  have hlow : lowBytes 4 u.toNat =
      [UInt8.ofNat a, UInt8.ofNat b, UInt8.ofNat c, UInt8.ofNat d] := by
    have htwo : u.toNat / 0x100 / 0x100 = u.toNat / 0x10000 := by omega
    have hthree : u.toNat / 0x10000 / 0x100 = u.toNat / 0x1000000 := by omega
    simp only [lowBytes, htwo, hthree, hfirst, hsecond, hthird, hfourth]
  cases o with
  | le =>
    change [UInt8.ofNat u.toNat, UInt8.ofNat (u.toNat / 0x100), UInt8.ofNat (u.toNat / 0x10000),
      UInt8.ofNat (u.toNat / 0x1000000)] = lowBytes 4 u.toNat
    rw [hfirst, hsecond, hthird, hfourth, hlow]
  | be =>
    obtain ⟨hfirst, hsecond, hthird, hfourth⟩ :=
      ofNat_places hd hc hb (toNat_swap32 ha hb hc hd hn)
    change [UInt8.ofNat (swap32 u).toNat, UInt8.ofNat ((swap32 u).toNat / 0x100),
      UInt8.ofNat ((swap32 u).toNat / 0x10000), UInt8.ofNat ((swap32 u).toNat / 0x1000000)] =
      (lowBytes 4 u.toNat).reverse
    rw [hfirst, hsecond, hthird, hfourth, hlow]
    rfl

/-- Bytes of units group into the units again. -/
theorem unitsOf_bytesOf (e : Encoding) (units : List e.Unit) :
    e.unitsOf (e.bytesOf units) = units := by
  cases e with
  | utf8 => rfl
  | utf16 =>
    induction units with
    | nil => rfl
    | cons u rest ih =>
      have hu := u.toNat_lt
      have hword : UInt16.ofNat ((UInt8.ofNat u.toNat).toNat +
          (UInt8.ofNat (u.toNat / 0x100)).toNat * 0x100) = u := by
        apply UInt16.toNat_inj.mp
        rw [UInt16.toNat_ofNat', UInt8.toNat_ofNat', UInt8.toNat_ofNat']
        omega
      rw [bytesOf_eq_flatMap, List.flatMap_cons, ← bytesOf_eq_flatMap]
      change UInt16.ofNat _ :: utf16.unitsOf (utf16.bytesOf rest) = u :: rest
      rw [hword, ih]
  | utf32 =>
    induction units with
    | nil => rfl
    | cons u rest ih =>
      have hu := u.toNat_lt
      have hword : UInt32.ofNat ((UInt8.ofNat u.toNat).toNat +
          (UInt8.ofNat (u.toNat / 0x100)).toNat * 0x100 +
          (UInt8.ofNat (u.toNat / 0x10000)).toNat * 0x10000 +
          (UInt8.ofNat (u.toNat / 0x1000000)).toNat * 0x1000000) = u := by
        apply UInt32.toNat_inj.mp
        rw [UInt32.toNat_ofNat', UInt8.toNat_ofNat', UInt8.toNat_ofNat', UInt8.toNat_ofNat',
          UInt8.toNat_ofNat']
        omega
      rw [bytesOf_eq_flatMap, List.flatMap_cons, ← bytesOf_eq_flatMap]
      change UInt32.ofNat _ :: utf32.unitsOf (utf32.bytesOf rest) = u :: rest
      rw [hword, ih]

/-- Units take as many bytes as their width says. -/
theorem length_bytesOf (e : Encoding) (units : List e.Unit) :
    (e.bytesOf units).length = units.length * e.unitBytes := by
  induction units with
  | nil => cases e <;> rfl
  | cons u rest ih =>
    have hone : (e.bytesOf [u]).length = e.unitBytes := by cases e <;> rfl
    rw [bytesOf_eq_flatMap, List.flatMap_cons, ← bytesOf_eq_flatMap, List.length_append, hone, ih,
      List.length_cons, Nat.succ_mul, Nat.add_comm]

end Encoding

namespace Wire

open Encoding

/-- Encoding characters, storing the units in the order of a stream and taking their bytes is
the standard encoding. -/
theorem bytesOf_encodeAll (w : Wire) (chars : List Char) :
    w.base.bytesOf ((w.base.encodeAll (chars.map Char.toNat)).map (w.base.reorder w.order)) =
      w.standard chars := by
  rw [bytesOf_eq_flatMap, List.flatMap_map]
  unfold standard encodeAll
  rw [List.flatMap_map]
  cases w.base with
  | utf8 =>
    have hchar : (fun c : Char => Encoding.utf8.encode c.toNat) = String.utf8EncodeChar :=
      funext encodeUtf8_toNat
    have hunit : (fun u : UInt8 => Encoding.utf8.bytesOf [Encoding.utf8.reorder w.order u]) =
        fun u => [u] := by
      funext u
      cases w.order <;> rfl
    exact (congrArg₂ List.flatMap hunit (congrArg chars.flatMap hchar)).trans
      (List.flatMap_singleton' _)
  | utf16 =>
    have hchar : (fun c : Char => Encoding.utf16.encode c.toNat) = Text.unitsOfChar :=
      funext encodeUtf16_toNat
    have hunit : (fun u : UInt16 => Encoding.utf16.bytesOf [Encoding.utf16.reorder w.order u]) =
        fun u => w.order.layOut 2 u.toNat := funext (bytesOf_reorder16 w.order)
    exact congrArg₂ List.flatMap hunit (congrArg chars.flatMap hchar)
  | utf32 =>
    have hunit : ∀ c : Char, ([UInt32.ofNat c.toNat].flatMap fun u =>
        Encoding.utf32.bytesOf [Encoding.utf32.reorder w.order u]) =
        w.order.layOut 4 c.toNat := by
      intro c
      have hlt : c.toNat < 2 ^ 32 := c.val.toNat_lt
      rw [List.flatMap_cons, List.flatMap_nil, List.append_nil, bytesOf_reorder32,
        UInt32.toNat_ofNat', Nat.mod_eq_of_lt hlt]
    exact List.flatMap_assoc.trans (congrArg chars.flatMap (funext hunit))

end Wire

end TextUnits
