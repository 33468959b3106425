import TextUnits.Text.Basic
import TextUnits.Encoding.Encode

/-!
# Text of arbitrary bytes

`Text.ofBytes` reads bytes as UTF-8 for display and never fails: the longest beginning of a
well-formed sequence that stands at a malformed place becomes one replacement character, and
reading goes on behind it. Longer forms than needed, surrogates and values beyond the last code
point are malformed at their second byte. A mark at the start is kept.
-/

namespace TextUnits

/-- What a lead byte announces: how many bytes follow, and between which bounds the first of
them lies. The others are plain continuation bytes. -/
structure Lead where
  /-- Bytes that follow. -/
  more : Nat
  /-- Least first byte that follows. -/
  least : Nat
  /-- Greatest first byte that follows. -/
  greatest : Nat
  deriving DecidableEq, Repr

namespace Lead

/-- What a byte from 80 on announces, if it is a lead of a well-formed sequence. -/
def ofByte? (b : Nat) : Option Lead :=
  if b < 0xC2 then none
  else if b < 0xE0 then some ⟨1, 0x80, 0xBF⟩
  else if b = 0xE0 then some ⟨2, 0xA0, 0xBF⟩
  else if b = 0xED then some ⟨2, 0x80, 0x9F⟩
  else if b < 0xF0 then some ⟨2, 0x80, 0xBF⟩
  else if b = 0xF0 then some ⟨3, 0x90, 0xBF⟩
  else if b < 0xF4 then some ⟨3, 0x80, 0xBF⟩
  else if b = 0xF4 then some ⟨3, 0x80, 0x8F⟩
  else none

/-- Payload bits of a lead byte with the given number of bytes behind it. -/
def payload (b more : Nat) : Nat :=
  if more = 1 then b % 0x20 else if more = 2 then b % 0x10 else b % 0x08

/-- The bytes at the front that go on with the sequence a lead announces. -/
def tail (l : Lead) (bytes : List UInt8) : List UInt8 :=
  match bytes with
  | [] => []
  | b :: rest =>
    if l.least ≤ b.toNat ∧ b.toNat ≤ l.greatest then
      b :: (rest.take (l.more - 1)).takeWhile fun c => 0x80 ≤ c.toNat && c.toNat ≤ 0xBF
    else []

end Lead

namespace Text

/-- Units of the replacement character. -/
def replacement : Text := [0xFFFD]

/-- Text of bytes in UTF-8, with replacements for what is malformed. -/
def ofBytes : List UInt8 → Text
  | [] => []
  | b :: rest =>
    if b.toNat < 0x80 then UInt16.ofNat b.toNat :: ofBytes rest
    else
      match Lead.ofByte? b.toNat with
      | none => replacement ++ ofBytes rest
      | some l =>
        let tail := l.tail rest
        let shown :=
          if tail.length = l.more then
            Encoding.encodeUtf16
              (tail.foldl (fun n c => n * 0x40 + c.toNat % 0x40) (Lead.payload b.toNat l.more))
          else replacement
        shown ++ ofBytes (rest.drop tail.length)
termination_by bytes => bytes.length
decreasing_by
  · simp
  · simp
  · simp only [List.length_drop, List.length_cons]; omega

/-- Text in which every unpaired surrogate is replaced, as it comes out when it is written to a
stream of UTF-8. -/
def mended : Text → Text
  | [] => []
  | u :: rest =>
    if u.toNat < 0xD800 ∨ 0xDFFF < u.toNat then u :: mended rest
    else
      match rest with
      | [] => replacement
      | v :: tail =>
        if u.toNat < 0xDC00 ∧ 0xDC00 ≤ v.toNat ∧ v.toNat ≤ 0xDFFF then u :: v :: mended tail
        else replacement ++ mended (v :: tail)

end Text

end TextUnits
