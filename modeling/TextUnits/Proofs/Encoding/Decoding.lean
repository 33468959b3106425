import TextUnits.Encoding.Decode
import Mathlib.Tactic.Common

/-!
# What decoding steps guarantee

One step never leaves its source: it takes at least one unit and at most all of them, unless
the source is cut off there, and what it reads is a scalar value. A walk over a source is then
known by its equation at a front that is not cut off, and all code points of a walk are scalar
values.
-/

namespace TextUnits

/-- What a step owes to a source of `room` units: a scalar value or malformed input that lies
within the source and is not empty. A cut owes nothing. -/
def Step.Within (room : Nat) : Step → Prop
  | .scalar code size => Scalar.isScalar code = true ∧ 0 < size ∧ size ≤ room
  | .invalid size => 0 < size ∧ size ≤ room
  | .truncated => True

namespace Encoding

/-- A value of at most 16 bits that is no surrogate is a scalar value. -/
theorem isScalar_of_not_surrogate {code : Nat} (hw : code < 0x10000)
    (hs : ¬ Scalar.isSurrogate code = true) : Scalar.isScalar code = true := by
  rw [Scalar.isSurrogate_iff] at hs
  rw [Scalar.isScalar_iff]
  omega

/-- A lead byte announces a sequence of two to four bytes. -/
theorem size_of_leadSize? {lead size : Nat} (h : leadSize? lead = some size) :
    2 ≤ size ∧ size ≤ 4 := by
  unfold leadSize? at h
  split_ifs at h <;> cases h <;> omega

/-- A step over UTF-8 text stays within it. -/
theorem decodeUtf8_within (bytes : List UInt8) : (decodeUtf8 bytes).Within bytes.length := by
  cases bytes with
  | nil => trivial
  | cons b rest =>
    have hone : 1 ≤ (b :: rest).length := Nat.succ_le_succ (Nat.zero_le _)
    unfold decodeUtf8
    dsimp only
    by_cases hascii : b.toNat < 0x80
    · rw [if_pos hascii]
      have hs : ¬ Scalar.isSurrogate b.toNat = true := by
        rw [Scalar.isSurrogate_iff]
        omega
      exact ⟨isScalar_of_not_surrogate (by omega) hs, Nat.one_pos, hone⟩
    · rw [if_neg hascii]
      by_cases hoctet : Scalar.isForbiddenOctet b.toNat = true
      · rw [if_pos hoctet]
        exact ⟨Nat.one_pos, hone⟩
      · rw [if_neg hoctet]
        cases hl : leadSize? b.toNat with
        | none => exact ⟨Nat.one_pos, hone⟩
        | some size =>
          have hsize := size_of_leadSize? hl
          dsimp only
          by_cases hcut : (rest.take (size - 1)).length < size - 1
          · rw [if_pos hcut]
            trivial
          · rw [if_neg hcut]
            have hroom : size ≤ (b :: rest).length := by
              rw [List.length_take] at hcut
              rw [List.length_cons]
              omega
            split_ifs with hall hcode
            · exact ⟨hcode, by omega, hroom⟩
            · exact ⟨by omega, hroom⟩
            · exact ⟨Nat.one_pos, hone⟩

/-- A step over UTF-16 text stays within it. -/
theorem decodeUtf16_within (units : List UInt16) :
    (decodeUtf16 units).Within units.length := by
  cases units with
  | nil => trivial
  | cons u rest =>
    have hone : 1 ≤ (u :: rest).length := Nat.succ_le_succ (Nat.zero_le _)
    unfold decodeUtf16
    dsimp only
    split_ifs with hfirst hlow
    · rw [Bool.not_eq_true', ← Bool.not_eq_true] at hfirst
      exact ⟨isScalar_of_not_surrogate u.toNat_lt hfirst, Nat.one_pos, hone⟩
    · exact ⟨Nat.one_pos, hone⟩
    · cases rest with
      | nil => trivial
      | cons v tail =>
        dsimp only
        split_ifs with hsecond
        · have htwo : 2 ≤ (u :: v :: tail).length := by
            simp only [List.length_cons]
            omega
          exact ⟨Scalar.isScalar_joinPair _ _, Nat.two_pos, htwo⟩
        · exact ⟨Nat.one_pos, hone⟩

/-- A step over UTF-32 text stays within it. -/
theorem decodeUtf32_within (units : List UInt32) :
    (decodeUtf32 units).Within units.length := by
  cases units with
  | nil => trivial
  | cons u rest =>
    have hone : 1 ≤ (u :: rest).length := Nat.succ_le_succ (Nat.zero_le _)
    unfold decodeUtf32
    dsimp only
    split_ifs with hcode
    · exact ⟨hcode, Nat.one_pos, hone⟩
    · exact ⟨Nat.one_pos, hone⟩

/-- A step stays within its source and reads only scalar values, in every encoding. -/
theorem decode_within (e : Encoding) (units : List e.Unit) :
    (e.decode units).Within units.length := by
  cases e with
  | utf8 => exact decodeUtf8_within units
  | utf16 => exact decodeUtf16_within units
  | utf32 => exact decodeUtf32_within units

/-- The code point that a step stands for is a scalar value, a replacement included. -/
theorem isScalar_of_code? {room : Nat} {step : Step} {code : Nat} (hw : step.Within room)
    (hc : step.code? = some code) : Scalar.isScalar code = true := by
  cases step with
  | scalar c size =>
    cases hc
    exact hw.1
  | invalid size =>
    cases hc
    exact Scalar.isScalar_replacement
  | truncated => cases hc

/-- A step that is no cut takes at least one unit. -/
theorem size_pos {room : Nat} {step : Step} (hw : step.Within room) (hs : step ≠ .truncated) :
    0 < step.size := by
  cases step with
  | scalar code size => exact hw.2.1
  | invalid size => exact hw.1
  | truncated => exact absurd rfl hs

/-- A step takes no more units than there are. -/
theorem size_le {room : Nat} {step : Step} (hw : step.Within room) : step.size ≤ room := by
  cases step with
  | scalar code size => exact hw.2.2
  | invalid size => exact hw.2
  | truncated => exact Nat.zero_le room

/-- Dropping the units of a step from a source that is not cut off at its front drops the first
unit and the others of the step. -/
theorem drop_size {e : Encoding} {u : e.Unit} {rest : List e.Unit}
    (hs : e.decode (u :: rest) ≠ .truncated) :
    (u :: rest).drop (e.decode (u :: rest)).size =
      rest.drop ((e.decode (u :: rest)).size - 1) := by
  have hpos := size_pos (e.decode_within (u :: rest)) hs
  obtain ⟨n, hn⟩ := Nat.exists_eq_succ_of_ne_zero (Nat.pos_iff_ne_zero.mp hpos)
  rw [hn]
  rfl

/-- The walk over a source starts with the step at its front, unless the source is cut off
there, and goes on behind the units of that step. -/
theorem steps_of_decode {e : Encoding} {units : List e.Unit} (hu : units ≠ [])
    (hs : e.decode units ≠ .truncated) :
    e.steps units = e.decode units :: e.steps (units.drop (e.decode units).size) := by
  cases units with
  | nil => exact absurd rfl hu
  | cons u rest =>
    rw [drop_size hs, steps]
    split
    · rename_i hd
      exact absurd hd hs
    · rfl

/-- The walk over a source that is cut off at its front is that cut. -/
theorem steps_of_truncated {e : Encoding} {units : List e.Unit} (hu : units ≠ [])
    (hs : e.decode units = .truncated) : e.steps units = [.truncated] := by
  cases units with
  | nil => exact absurd rfl hu
  | cons u rest => rw [steps, hs]

/-- Induction along the walk over a source: a source is empty, or cut off at its front, or goes
on behind the step at its front. -/
@[elab_as_elim]
theorem walk_induction {e : Encoding} {motive : List e.Unit → Prop} (nil : motive [])
    (cut : ∀ units, units ≠ [] → e.decode units = .truncated → motive units)
    (step : ∀ units, units ≠ [] → e.decode units ≠ .truncated →
      motive (units.drop (e.decode units).size) → motive units)
    (units : List e.Unit) : motive units := by
  induction units using steps.induct e with
  | case1 => exact nil
  | case2 u rest hd => exact cut _ (List.cons_ne_nil u rest) hd
  | case3 u rest hd ih =>
    rw [← drop_size hd] at ih
    exact step _ (List.cons_ne_nil u rest) hd ih

/-- Every code point of a walk over a source is a scalar value. -/
theorem isScalar_of_mem_steps {e : Encoding} {units : List e.Unit} {step : Step} {code : Nat}
    (hm : step ∈ e.steps units) (hc : step.code? = some code) :
    Scalar.isScalar code = true := by
  induction units using walk_induction with
  | nil =>
    rw [steps] at hm
    exact absurd hm List.not_mem_nil
  | cut units hu hs =>
    rw [steps_of_truncated hu hs, List.mem_singleton] at hm
    rw [hm] at hc
    cases hc
  | step units hu hs ih =>
    rw [steps_of_decode hu hs, List.mem_cons] at hm
    rcases hm with rfl | hm
    · exact isScalar_of_code? (e.decode_within units) hc
    · exact ih hm

end Encoding

end TextUnits
