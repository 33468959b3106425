import TextUnits.Buffer.Basic
import Mathlib.Tactic.Ring

/-!
# Whole numbers that are kept

A number of the 64-bit format has 53 bits for its significand, so a natural of at most 53 bits is
one: making it a number rounds nothing, and reading the number gives the natural again. Sizes and
offsets are such naturals.
-/

namespace TextUnits

namespace Double

variable {n power fraction : Nat}

/-- The number of a pattern whose exponent bits are not the least or the greatest ones. -/
theorem form_ofSignAndRest (hp : power < 2046) (hf : fraction < 2 ^ 52) :
    (ofSignAndRest false (power * 2 ^ 52 + (2 ^ 52 + fraction))).form =
      .finite false (2 ^ 52 + fraction) power := by
  have hbits : (ofSignAndRest false (power * 2 ^ 52 + (2 ^ 52 + fraction))).bits.toNat =
      power * 2 ^ 52 + (2 ^ 52 + fraction) := by
    change (UInt64.ofNat (0 + _)).toNat = _
    rw [Nat.zero_add, UInt64.toNat_ofNat']
    exact Nat.mod_eq_of_lt (by omega)
  have hsign : (power * 2 ^ 52 + (2 ^ 52 + fraction)) / 2 ^ 63 = 0 := Nat.div_eq_of_lt (by omega)
  have hexponent : (power * 2 ^ 52 + (2 ^ 52 + fraction)) / 2 ^ 52 % 2048 = power + 1 := by omega
  have hfraction : (power * 2 ^ 52 + (2 ^ 52 + fraction)) % 2 ^ 52 = fraction := by omega
  unfold form
  dsimp only
  rw [hbits]
  change (if _ / 2 ^ 52 % 2048 = 2047 then _ else if _ / 2 ^ 52 % 2048 = 0 then _ else
    Form.finite (_ / 2 ^ 63 == 1) (2 ^ 52 + _ % 2 ^ 52) (_ / 2 ^ 52 % 2048 - 1)) = _
  rw [hexponent, hfraction, hsign, if_neg (by omega), if_neg (Nat.succ_ne_zero power),
    Nat.add_sub_cancel]
  rfl

/-- A natural is scaled by its own length. -/
theorem scaleOf_one (h : n ≠ 0) : scaleOf n 1 = n.log2 + 1126 := by
  have hle : ∀ k, 1 * Nat.pow 2 (n.log2 + k) ≤ n * Nat.pow 2 k := by
    intro k
    rw [Nat.one_mul, Nat.pow_eq, Nat.pow_eq, Nat.pow_add]
    exact Nat.mul_le_mul_right _ (Nat.log2_self_le h)
  have hguess : n.log2 + 1126 - Nat.log2 1 = n.log2 + 1126 := by
    rw [show Nat.log2 1 = 0 by rfl, Nat.sub_zero]
  unfold scaleOf
  dsimp only
  rw [hguess]
  exact if_neg (Nat.not_lt.mpr (hle 1126))

/-- A quotient that shifts a natural to the front of 53 bits is whole. -/
theorem roundDiv_shift (n : Nat) {low : Nat} (high : Nat) (h : low ≤ high) :
    roundDiv .toEven (n * Nat.pow 2 high) (1 * Nat.pow 2 low) = n * 2 ^ (high - low) := by
  rw [Nat.pow_eq, Nat.pow_eq, ← Nat.sub_add_cancel h, Nat.pow_add, ← Nat.mul_assoc, Nat.one_mul,
    Nat.add_sub_cancel]
  exact roundDiv_mul .toEven _ _ (Nat.two_pow_pos low)

/-- The significand of a natural of at most 53 bits is the natural itself, shifted to the front. -/
theorem form_ofNat (h : n ≠ 0) (hn : n < 2 ^ 53) :
    (ofNat n).form = .finite false (n * 2 ^ (52 - n.log2)) (n.log2 + 1022) := by
  have hlog : n.log2 < 53 := (Nat.log2_lt h).mpr hn
  have hone : 2 ^ n.log2 * 2 ^ (52 - n.log2) = 2 ^ 52 := by
    rw [← Nat.pow_add]
    congr 1
    omega
  have hmin : 2 ^ 52 ≤ n * 2 ^ (52 - n.log2) :=
    hone ▸ Nat.mul_le_mul_right _ (Nat.log2_self_le h)
  have hmax : n * 2 ^ (52 - n.log2) < 2 ^ 53 := by
    have hhigh : n < 2 ^ (n.log2 + 1) := Nat.lt_log2_self
    have hlt := Nat.mul_lt_mul_of_pos_right hhigh (Nat.two_pow_pos (52 - n.log2))
    rw [Nat.pow_succ, Nat.mul_right_comm, hone] at hlt
    exact hlt
  obtain ⟨fraction, hfraction⟩ := Nat.exists_eq_add_of_le hmin
  have hpower : n.log2 + 1126 - 104 = n.log2 + 1022 := by omega
  have hshift : 1074 - (n.log2 + 1022) = 52 - n.log2 := by omega
  have hle : n.log2 + 1022 ≤ 1074 := by omega
  have hround := roundDiv_shift n 1074 hle
  unfold ofNat ofRatio
  dsimp only
  rw [if_neg h, scaleOf_one h, hpower, hround, hshift, hfraction, Nat.pow_eq,
    if_neg (by omega)]
  exact form_ofSignAndRest (by omega) (by omega)

/-- A natural of at most 53 bits is kept. -/
theorem toInt?_ofNat (h : n ≤ maxSafe) : (ofNat n).toInt? = some (n : Int) := by
  have hn : n < 2 ^ 53 := by
    change n ≤ 2 ^ 53 - 1 at h
    omega
  by_cases hzero : n = 0
  · rw [hzero]
    decide +kernel
  · have hlog : n.log2 < 53 := (Nat.log2_lt hzero).mpr hn
    have hvalue : ∀ num den, num % den = 0 → num / den = n →
        (if num % den = 0 then some (if false = true then -((num / den : Nat) : Int)
          else ((num / den : Nat) : Int)) else none) = some (n : Int) := by
      intro num den hmod hdiv
      rw [if_pos hmod, if_neg Bool.false_ne_true, hdiv]
    unfold toInt?
    rw [form_ofNat hzero hn]
    dsimp only [ratio]
    by_cases hfull : 1074 ≤ n.log2 + 1022
    · have hshift : n.log2 + 1022 - 1074 = 0 := by omega
      have hlast : 52 - n.log2 = 0 := by omega
      rw [if_pos hfull, hshift, hlast]
      refine hvalue _ _ (Nat.mod_one _) ?_
      rw [Nat.pow_eq, Nat.pow_zero, Nat.mul_one, Nat.mul_one, Nat.div_one]
    · have hshift : 1074 - (n.log2 + 1022) = 52 - n.log2 := by omega
      rw [if_neg hfull, hshift]
      exact hvalue _ _ (Nat.mul_mod_left _ _) (Nat.mul_div_cancel _ (Nat.two_pow_pos _))

theorem natAbs_le_of_toSafeInt? {x : Double} {i : Int} (h : x.toSafeInt? = some i) :
    i.natAbs ≤ maxSafe := by
  unfold toSafeInt? at h
  cases hx : x.toInt? with
  | none =>
    rw [hx] at h
    cases h
  | some k =>
    rw [hx] at h
    dsimp only at h
    split_ifs at h with hsafe
    cases h
    exact hsafe

end Double

/-- A size that is made a number is read as that size. -/
theorem sizeOf?_ofNat {n : Nat} (h : n ≤ Double.maxSafe) : sizeOf? (Double.ofNat n) = some n := by
  unfold sizeOf? Double.toSafeInt?
  rw [Double.toInt?_ofNat h]
  dsimp only
  rw [Int.natAbs_natCast, if_pos h]
  dsimp only
  rw [if_pos (Int.natCast_nonneg n), Int.toNat_natCast]

/-- What is read as a size is a safe integer. -/
theorem le_of_sizeOf? {x : Double} {n : Nat} (h : sizeOf? x = some n) : n ≤ Double.maxSafe := by
  unfold sizeOf? at h
  cases hx : x.toSafeInt? with
  | none =>
    rw [hx] at h
    cases h
  | some i =>
    have hsafe := Double.natAbs_le_of_toSafeInt? hx
    rw [hx] at h
    dsimp only at h
    split_ifs at h
    cases h
    omega

end TextUnits
