import TextUnits.Number.Double
import Mathlib.Algebra.Order.Round
import Mathlib.Data.Rat.Floor
import Mathlib.Tactic.FieldSimp
import Mathlib.Tactic.Linarith
import Mathlib.Tactic.Ring

/-!
# Nearest multiples

A quotient that is rounded with a half going up is the multiple of a unit that is nearest to a
magnitude, and the larger one of two that are equally near. Such a multiple is at most half a unit
away, and it is below another multiple exactly if the magnitude is more than half a unit below that
one.
-/

namespace TextUnits

/-- The multiple of a unit that is nearest to a magnitude, the larger one if two are. -/
structure Nearest (unit q d : ℚ) : Prop where
  /-- It is a multiple of the unit. -/
  multiple : ∃ k : ℤ, d = k * unit
  /-- No other multiple is nearer. -/
  near : ∀ k : ℤ, |d - q| ≤ |k * unit - q|
  /-- Of those that are as near it is the largest. -/
  larger : ∀ k : ℤ, |k * unit - q| = |d - q| → k * unit ≤ d

variable {unit q d : ℚ} {num den half : ℕ}

/-- Rounding with a half going up cuts off what is left behind half a unit more. -/
theorem roundDiv_up (num : ℕ) (hd : 0 < den) :
    roundDiv .up num den = (2 * num + den) / (2 * den) := by
  have hsplit := Nat.div_add_mod num den
  have hrest := Nat.mod_lt num hd
  have hcut : ∀ whole rest, rest < 2 * den → 2 * num + den = 2 * (den * whole) + rest →
      whole = (2 * num + den) / (2 * den) := by
    intro whole rest hlt heq
    rw [heq, ← Nat.mul_assoc, Nat.mul_add_div (by omega), Nat.div_eq_of_lt hlt, Nat.add_zero]
  unfold roundDiv
  dsimp only
  split_ifs
  · exact hcut _ (2 * (num % den) + den) (by omega) (by omega)
  · exact hcut _ (2 * (num % den) - den) (by omega) (by rw [Nat.mul_add]; omega)
  · exact hcut _ 0 (by omega) (by rw [Nat.mul_add]; omega)

/-- Over an even divisor the half is a whole number. -/
theorem roundDiv_up_even (num : ℕ) (hh : 0 < half) :
    roundDiv .up num (2 * half) = (num + half) / (2 * half) := by
  rw [roundDiv_up num (by omega), ← Nat.mul_add, Nat.mul_div_mul_left _ _ Nat.two_pos]

theorem roundDiv_up_eq_round (num : ℕ) (hd : 0 < den) :
    (roundDiv .up num den : ℤ) = round ((num : ℚ) / den) := by
  have hden : (den : ℚ) ≠ 0 := by exact_mod_cast hd.ne'
  have hhalf : (num : ℚ) / den + 1 / 2 = ((2 * num + den : ℕ) : ℚ) / (2 * den : ℕ) := by
    push_cast
    field_simp
  rw [round_eq, hhalf, roundDiv_up num hd, Rat.floor_natCast_div_natCast, Int.natCast_ediv]

/-- A quotient in units, rounded with a half going up. -/
theorem nearest_roundDiv (hu : 0 < unit) (num : ℕ) (hd : 0 < den) :
    Nearest unit (num / den * unit) (roundDiv .up num den * unit) := by
  have hcast : (roundDiv .up num den : ℚ) = (round ((num : ℚ) / den) : ℤ) := by
    rw [← roundDiv_up_eq_round num hd]
    rfl
  have hscale : ∀ k : ℤ, |k * unit - num / den * unit| = |(num : ℚ) / den - k| * unit := by
    intro k
    rw [← sub_mul, abs_mul, abs_of_pos hu, abs_sub_comm]
  rw [hcast]
  generalize (num : ℚ) / den = t at hscale ⊢
  refine ⟨⟨_, rfl⟩, fun k => ?_, fun k hk => ?_⟩
  · rw [hscale, hscale]
    exact mul_le_mul_of_nonneg_right (round_le t k) hu.le
  · rw [hscale, hscale, mul_left_inj' hu.ne'] at hk
    refine mul_le_mul_of_nonneg_right ?_ hu.le
    by_contra hless
    -- A larger whole number is more than a half away, and the rounded one is not.
    have hnext : (round t : ℚ) + 1 ≤ k := by
      rw [not_le] at hless
      exact_mod_cast hless
    have hbelow := Int.lt_floor_add_one (t + 1 / 2)
    rw [← round_eq] at hbelow
    have hfar : 1 / 2 < |t - k| := lt_abs.mpr (.inr (by linarith))
    rw [hk] at hfar
    exact absurd (abs_sub_round t) (not_le.mpr hfar)

/-- A nearest multiple is at most half a unit away. -/
theorem Nearest.abs_sub_le (h : Nearest unit q d) (hu : 0 < unit) : |d - q| ≤ unit / 2 := by
  have hscale : (round (q / unit) : ℚ) * unit - q = -((q / unit - round (q / unit)) * unit) := by
    rw [sub_mul, div_mul_cancel₀ q hu.ne']
    ring
  calc |d - q| ≤ |(round (q / unit) : ℚ) * unit - q| := h.near _
    _ = |q / unit - round (q / unit)| * unit := by rw [hscale, abs_neg, abs_mul, abs_of_pos hu]
    _ ≤ 1 / 2 * unit := by gcongr; exact abs_sub_round _
    _ = unit / 2 := by ring

/-- A nearest multiple is below another one exactly if the magnitude is more than half a unit below
that one. -/
theorem Nearest.lt_iff (h : Nearest unit q d) (hu : 0 < unit) {bound : ℚ}
    (hb : ∃ k : ℤ, bound = k * unit) : d < bound ↔ q < bound - unit / 2 := by
  obtain ⟨m, rfl⟩ := hb
  obtain ⟨k, rfl⟩ := h.multiple
  have hhalf := abs_le.mp (h.abs_sub_le hu)
  constructor
  · intro hless
    have hnext : (k + 1 : ℚ) ≤ m := by exact_mod_cast lt_of_mul_lt_mul_right hless hu.le
    have hroom := mul_le_mul_of_nonneg_right hnext hu.le
    by_contra hreached
    -- The magnitude is then as near to the bound, which is larger.
    have hsame : |m * unit - q| = |k * unit - q| := by
      refine le_antisymm ?_ (h.near m)
      rw [abs_of_nonneg (by linarith), abs_of_nonpos (by linarith)]
      linarith
    exact absurd (h.larger m hsame) (not_le.mpr hless)
  · intro hbelow
    linarith

end TextUnits
