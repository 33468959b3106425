import TextUnits.Proofs.Number.Radix

/-!
# The last digits of a numeral

A numeral with zeros in front falls into the numeral of what stands in front of a place and the
digits behind the place, which are those of the remainder. The digits behind a place can be taken
from either end, one at a time.
-/

namespace TextUnits.Numeral

/-- The last digits of a natural, with zeros in front if it has fewer. -/
def lastDigits (radix : Nat) : Nat → Nat → Text
  | 0, _ => []
  | count + 1, n => lastDigits radix count (n / radix) ++ [digitUnit (n % radix)]

variable {radix count n : Nat}

theorem length_lastDigits (radix count n : Nat) : (lastDigits radix count n).length = count := by
  induction count generalizing n with
  | zero => rfl
  | succ count ih => rw [lastDigits, List.length_append, ih, List.length_singleton]

theorem text_of_lt (h : n < radix) : text radix n = [digitUnit n] := by
  rw [text, digits, if_pos (.inr h)]
  rfl

theorem text_of_le (hr : 2 ≤ radix) (h : radix ≤ n) :
    text radix n = text radix (n / radix) ++ [digitUnit (n % radix)] := by
  rw [text, digits, if_neg (by omega), List.map_append]
  rfl

/-- Behind a zero or more the last digit of a numeral comes off, even if it is the only one. -/
theorem padLeft_text_succ (hr : 2 ≤ radix) (hc : 0 < count) (n : Nat) :
    padLeft (count + 1) (text radix n) =
      padLeft count (text radix (n / radix)) ++ [digitUnit (n % radix)] := by
  rcases Nat.lt_or_ge n radix with hlt | hle
  · have hzero : text radix 0 = [0x30] := text_of_lt (by omega)
    have hfill : ∀ more, Text.fill (more + 1) 0x30 = Text.fill more 0x30 ++ [0x30] :=
      fun more => List.replicate_succ'
    obtain ⟨more, rfl⟩ := Nat.exists_eq_succ_of_ne_zero hc.ne'
    rw [text_of_lt hlt, Nat.div_eq_of_lt hlt, Nat.mod_eq_of_lt hlt, hzero]
    exact congrArg (· ++ [digitUnit n]) (hfill more)
  · rw [text_of_le hr hle, padLeft, padLeft, List.length_append, List.length_singleton,
      Nat.add_sub_add_right, List.append_assoc]

/-- A numeral with zeros in front of it, parted in front of its last digits. -/
theorem padLeft_text (hr : 2 ≤ radix) (count n : Nat) :
    padLeft (count + 1) (text radix n) =
      text radix (n / radix ^ count) ++ lastDigits radix count n := by
  induction count generalizing n with
  | zero =>
    have hpos : 1 ≤ (text radix n).length := by
      rw [text, List.length_map]
      exact List.length_pos_iff.mpr (digits_ne_nil radix n)
    rw [padLeft, Nat.sub_eq_zero_of_le hpos, Nat.pow_zero, Nat.div_one, lastDigits,
      List.append_nil]
    rfl
  | succ count ih =>
    rw [padLeft_text_succ hr (Nat.succ_pos count), ih, Nat.div_div_eq_div_mul, Nat.pow_succ',
      List.append_assoc]
    rfl

/-- A numeral with zeros in front of it that has no digits but the last ones. -/
theorem padLeft_text_of_lt (hr : 2 ≤ radix) (hc : 0 < count) (h : n < radix ^ count) :
    padLeft count (text radix n) = lastDigits radix count n := by
  induction count, hc using Nat.le_induction generalizing n with
  | base =>
    rw [Nat.pow_one] at h
    rw [text_of_lt h, lastDigits, lastDigits, Nat.mod_eq_of_lt h]
    rfl
  | succ count hc ih =>
    have hfront : n / radix < radix ^ count := Nat.div_lt_of_lt_mul (by rwa [← Nat.pow_succ'])
    rw [padLeft_text_succ hr hc, ih hfront]
    rfl

/-- The last digits are those of the remainder. -/
theorem lastDigits_mod (radix count n : Nat) :
    lastDigits radix count (n % radix ^ count) = lastDigits radix count n := by
  induction count generalizing n with
  | zero => rfl
  | succ count ih =>
    rw [lastDigits, lastDigits, Nat.pow_succ', Nat.mod_mul_right_div_self, ih,
      Nat.mod_mul_right_mod]

/-- The last digits of a multiple are zeros. -/
theorem lastDigits_mul (radix count n : Nat) :
    lastDigits radix count (n * radix ^ count) = Text.fill count 0x30 := by
  rw [← lastDigits_mod, Nat.mul_mod_left]
  induction count with
  | zero => rfl
  | succ count ih =>
    rw [lastDigits, Nat.zero_div, Nat.zero_mod, ih]
    exact List.replicate_succ'.symm

/-- The first of the last digits. -/
theorem lastDigits_succ (radix count n : Nat) :
    lastDigits radix (count + 1) n =
      digitUnit (n / radix ^ count % radix) :: lastDigits radix count n := by
  induction count generalizing n with
  | zero =>
    rw [Nat.pow_zero, Nat.div_one]
    rfl
  | succ count ih =>
    rw [lastDigits, ih, Nat.div_div_eq_div_mul, ← Nat.pow_succ']
    rfl

/-- The two parts of a numeral spell it together. -/
theorem spells_parts (hlow : 2 ≤ radix) (hhigh : radix ≤ 36) (count n : Nat) :
    Spells radix (count + 1) n (text radix (n / radix ^ count) ++ lastDigits radix count n) := by
  rw [← padLeft_text hlow]
  exact (spells_text hlow hhigh n).padLeft (count + 1)

end TextUnits.Numeral
