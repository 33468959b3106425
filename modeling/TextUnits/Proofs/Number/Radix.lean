import TextUnits.Proofs.Number.Reading

/-!
# Numerals in a radix

Digits in a radix from 2 to 36 with letters of either case from ten on, and the natural that they
write. It stays the same behind further zeros, and when the case of the letters is changed.
-/

namespace TextUnits

namespace Ascii

/-- A unit that is not between the digits is none. -/
theorem isDigit_eq_false {u : UInt16} (h : 0x39 < u.toNat) : isDigit u = false := by
  rw [isDigit, Bool.and_eq_false_iff]
  refine .inr (decide_eq_false fun hle => ?_)
  have hval : u.toNat ≤ 0x39 := hle
  omega

/-- A letter has the same value in lower and in upper case, and other units are left. -/
theorem digitValue?_upperUnit (u : UInt16) : digitValue? (upperUnit u) = digitValue? u := by
  unfold upperUnit
  split_ifs with hletter
  · have hle : (0x20 : UInt16) ≤ u := by
      change 0x20 ≤ u.toNat
      omega
    have hval : (u - 0x20).toNat = u.toNat - 0x20 := UInt16.toNat_sub_of_le _ _ hle
    have hback : lowerUnit (u - 0x20) = u := by
      rw [lowerUnit, if_pos (by omega), UInt16.sub_add_cancel]
    have hsame : lowerUnit u = u := if_neg (by omega)
    unfold digitValue?
    dsimp only
    rw [isDigit_eq_false (u := u - 0x20) (by omega), isDigit_eq_false (u := u) (by omega), hback,
      hsame]
    rfl
  · rfl

end Ascii

namespace Numeral

/-- The natural that digits in a radix write, the most significant one first. -/
def readIn (radix : Nat) (t : Text) : Nat := value radix (t.filterMap Ascii.digitValue?)

/-- Digits in a radix, one or more and no fewer than asked for, that write a natural. -/
structure Spells (radix least n : Nat) (t : Text) : Prop where
  /-- Each unit is a digit. -/
  digits : ∀ u ∈ t, Ascii.isDigitIn radix u = true
  /-- Together they write the natural. -/
  read_eq : readIn radix t = n
  /-- They are as many as asked for. -/
  length_ge : max 1 least ≤ t.length

variable {radix least n : Nat} {t : Text}

/-- The unit that writes a digit has its value. -/
theorem digitValue?_digitUnit {d : Nat} (h : d < 36) :
    Ascii.digitValue? (digitUnit d) = some d := by
  have hall : ∀ d < 36, Ascii.digitValue? (digitUnit d) = some d := by decide
  exact hall d h

/-- The digits of a natural spell it. -/
theorem spells_text (hlow : 2 ≤ radix) (hhigh : radix ≤ 36) (n : Nat) :
    Spells radix 1 n (text radix n) := by
  have hlt := lt_of_mem_digits hlow n
  have hvalue : ∀ d ∈ digits radix n, Ascii.digitValue? (digitUnit d) = some d :=
    fun d hd => digitValue?_digitUnit (by have := hlt d hd; omega)
  refine ⟨?_, ?_, ?_⟩
  · intro u hu
    obtain ⟨d, hd, rfl⟩ := List.mem_map.mp hu
    rw [Ascii.isDigitIn, hvalue d hd]
    exact decide_eq_true (hlt d hd)
  · have hdigits : (text radix n).filterMap Ascii.digitValue? = digits radix n := by
      rw [text, List.filterMap_map]
      exact (List.filterMap_congr hvalue).trans List.filterMap_some
    rw [readIn, hdigits, value_digits]
  · have hpos := List.length_pos_iff.mpr (digits_ne_nil radix n)
    rw [text, List.length_map]
    omega

/-- Zeros in front of a numeral leave what it writes. -/
theorem readIn_fill (radix count : Nat) (t : Text) :
    readIn radix (Text.fill count 0x30 ++ t) = readIn radix t := by
  induction count with
  | zero => rfl
  | succ count ih =>
    have hcons : readIn radix (0x30 :: (Text.fill count 0x30 ++ t)) =
        readIn radix (Text.fill count 0x30 ++ t) := by
      change value radix (0 :: _) = value radix _
      rw [value, List.foldl_cons, Nat.zero_mul]
      rfl
    exact hcons.trans ih

/-- Each zero behind a numeral makes it as many times more as there are digits. -/
theorem readIn_append_fill (radix count : Nat) (t : Text) :
    readIn radix (t ++ Text.fill count 0x30) = readIn radix t * radix ^ count := by
  induction count with
  | zero => rw [Nat.pow_zero, Nat.mul_one, Text.fill, List.replicate_zero, List.append_nil]
  | succ count ih =>
    have hlast : ∀ front, readIn radix (front ++ [0x30]) = readIn radix front * radix := by
      intro front
      rw [readIn, List.filterMap_append, value, List.foldl_append]
      rfl
    rw [Text.fill, List.replicate_succ', ← List.append_assoc, hlast, ← Text.fill, ih, Nat.pow_succ,
      Nat.mul_assoc]

/-- Zero is a digit wherever there is one. -/
theorem Spells.isDigitIn_zero (h : Spells radix least n t) : Ascii.isDigitIn radix 0x30 = true := by
  have hlength := h.length_ge
  obtain ⟨u, hu⟩ := List.exists_mem_of_length_pos (l := t) (by omega)
  have hdigit := h.digits u hu
  unfold Ascii.isDigitIn at hdigit
  split at hdigit
  · have hlt := of_decide_eq_true hdigit
    exact decide_eq_true (p := 0 < radix) (by omega)
  · cases hdigit

theorem Spells.forall_mem_fill (h : Spells radix least n t) (count : Nat) :
    ∀ u ∈ Text.fill count 0x30, Ascii.isDigitIn radix u = true := by
  intro u hu
  rw [List.eq_of_mem_replicate hu]
  exact h.isDigitIn_zero

/-- With zeros in front, digits are as many more and spell the same. -/
theorem Spells.fill (h : Spells radix least n t) (count : Nat) :
    Spells radix (max least (count + t.length)) n (Text.fill count 0x30 ++ t) := by
  have hlength := h.length_ge
  refine ⟨List.forall_mem_append.mpr ⟨h.forall_mem_fill count, h.digits⟩, ?_, ?_⟩
  · rw [readIn_fill, h.read_eq]
  · rw [List.length_append, Text.fill, List.length_replicate]
    omega

/-- With zeros behind them digits spell as many times more. -/
theorem Spells.append_fill (h : Spells radix least n t) (count : Nat) :
    Spells radix least (n * radix ^ count) (t ++ Text.fill count 0x30) := by
  have hlength := h.length_ge
  refine ⟨List.forall_mem_append.mpr ⟨h.digits, h.forall_mem_fill count⟩, ?_, ?_⟩
  · rw [readIn_append_fill, h.read_eq]
  · rw [List.length_append]
    omega

/-- A numeral may be asked for fewer digits. -/
theorem Spells.mono (h : Spells radix least n t) {wanted : Nat} (hle : wanted ≤ least) :
    Spells radix wanted n t :=
  ⟨h.digits, h.read_eq, (max_le_max_left 1 hle).trans h.length_ge⟩

/-- Filled up with zeros it has as many digits as asked for. -/
theorem Spells.padLeft (h : Spells radix least n t) (wanted : Nat) :
    Spells radix wanted n (padLeft wanted t) :=
  (h.fill (wanted - t.length)).mono (by omega)

/-- Its letters may be in upper case. -/
theorem Spells.upper (h : Spells radix least n t) : Spells radix least n (Ascii.toUpper t) := by
  refine ⟨?_, ?_, ?_⟩
  · intro u hu
    obtain ⟨v, hv, rfl⟩ := List.mem_map.mp hu
    rw [Ascii.isDigitIn, Ascii.digitValue?_upperUnit]
    exact h.digits v hv
  · rw [readIn, Ascii.toUpper, List.filterMap_map]
    have hcase : Ascii.digitValue? ∘ Ascii.upperUnit = Ascii.digitValue? :=
      funext Ascii.digitValue?_upperUnit
    rw [hcase]
    exact h.read_eq
  · rw [Ascii.toUpper, List.length_map]
    exact h.length_ge

end Numeral

end TextUnits
