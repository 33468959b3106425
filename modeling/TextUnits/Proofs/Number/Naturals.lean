import TextUnits.Number.Sum
import TextUnits.Proofs.Number.Exact
import TextUnits.Proofs.Number.Magnitude

/-!
# Sums of safe naturals

Places and lengths are naturals of at most 53 bits, and such a number is counted in the least
positive one without loss. So sums and differences of them are those of the naturals, they compare
as the naturals do, and a number that is raised by one again and again counts on. A greater natural
is rounded, but to none of the safe ones.
-/

namespace TextUnits.Double

variable {x : Double} {m n : ℕ}

theorem log2_mul_pow (h : n ≠ 0) (k : ℕ) : (n * 2 ^ k).log2 = n.log2 + k := by
  induction k with
  | zero => rw [Nat.pow_zero, Nat.mul_one, Nat.add_zero]
  | succ k ih =>
    have hne : n * 2 ^ k ≠ 0 := Nat.mul_ne_zero h (Nat.two_pow_pos k).ne'
    rw [Nat.pow_succ', Nat.mul_left_comm, Nat.log2_two_mul hne, ih, Nat.add_assoc]

/-- Twos that numerator and denominator have in common do not change their scale. -/
theorem scaleOf_mul_pow {num den : ℕ} (hn : num ≠ 0) (hd : den ≠ 0) (k : ℕ) :
    scaleOf (num * 2 ^ k) (den * 2 ^ k) = scaleOf num den := by
  have hguess : (num * 2 ^ k).log2 + 1126 - (den * 2 ^ k).log2 = num.log2 + 1126 - den.log2 := by
    rw [log2_mul_pow hn, log2_mul_pow hd, Nat.add_right_comm, Nat.add_sub_add_right]
  have hless : ∀ guess, num * 2 ^ k * Nat.pow 2 1126 < den * 2 ^ k * Nat.pow 2 guess ↔
      num * Nat.pow 2 1126 < den * Nat.pow 2 guess := by
    intro guess
    rw [Nat.mul_right_comm, Nat.mul_right_comm den]
    exact Nat.mul_lt_mul_right (Nat.two_pow_pos k)
  unfold scaleOf
  dsimp only
  rw [hguess]
  exact if_congr (hless _) rfl rfl

/-- A factor that numerator and denominator have in common does not change where they round. -/
theorem roundDiv_mul_mul (tie : Tie) (num den : ℕ) {k : ℕ} (hk : 0 < k) :
    roundDiv tie (num * k) (den * k) = roundDiv tie num den := by
  unfold roundDiv
  dsimp only
  rw [Nat.mul_div_mul_right _ _ hk, Nat.mul_mod_mul_right, ← Nat.mul_assoc]
  simp only [Nat.mul_lt_mul_right hk]

/-- Twos that numerator and denominator have in common do not change the nearest number. -/
theorem ofRatio_mul_pow (negative : Bool) (num : ℕ) {den : ℕ} (hd : den ≠ 0) (k : ℕ) :
    ofRatio negative (num * 2 ^ k) (den * 2 ^ k) = ofRatio negative num den := by
  by_cases hn : num = 0
  · rw [hn, Nat.zero_mul, ofRatio, ofRatio, if_pos rfl, if_pos rfl]
  · have hne : num * 2 ^ k ≠ 0 := Nat.mul_ne_zero hn (Nat.two_pow_pos k).ne'
    unfold ofRatio
    dsimp only
    rw [if_neg hn, if_neg hne, scaleOf_mul_pow hn hd, Nat.mul_right_comm, Nat.mul_right_comm den,
      roundDiv_mul_mul _ _ _ (Nat.two_pow_pos k)]

/-- A safe natural has a form without sign that amounts to it. -/
theorem exists_form_ofNat (h : n ≤ maxSafe) :
    ∃ significand power, (ofNat n).form = .finite false significand power ∧
      significand * 2 ^ power = n * 2 ^ 1074 ∧
      (ratio significand power).1 = n * (ratio significand power).2 := by
  by_cases hzero : n = 0
  · subst hzero
    exact ⟨0, 0, by decide, (Nat.zero_mul _).trans (Nat.zero_mul _).symm, (Nat.zero_mul _).symm⟩
  · have hn : n < 2 ^ 53 := by
      change n ≤ 2 ^ 53 - 1 at h
      omega
    have hlog : n.log2 < 53 := (Nat.log2_lt hzero).mpr hn
    refine ⟨_, _, form_ofNat hzero hn, ?_, ?_⟩
    · have hsum : 52 - n.log2 + (n.log2 + 1022) = 1074 := by omega
      rw [Nat.mul_assoc, ← Nat.pow_add]
      exact congrArg (n * 2 ^ ·) hsum
    · unfold ratio
      split_ifs with hlarge
      · have hshift : 52 - n.log2 = 0 ∧ n.log2 + 1022 - 1074 = 0 := by omega
        rw [hshift.1, hshift.2, Nat.pow_zero, Nat.mul_one]
      · have hshift : 1074 - (n.log2 + 1022) = 52 - n.log2 := by omega
        rw [hshift]
        rfl

theorem multiple?_ofNat (h : n ≤ maxSafe) :
    (ofNat n).multiple? = some ((n * 2 ^ 1074 : ℕ) : ℤ) := by
  obtain ⟨significand, power, hform, hvalue, -⟩ := exists_form_ofNat h
  rw [multiple?, hform]
  dsimp only
  rw [Nat.pow_eq, hvalue]
  rfl

theorem compareInt?_ofNat (h : n ≤ maxSafe) (k : ℤ) :
    (ofNat n).compareInt? k = some (compare (n : ℤ) k) := by
  obtain ⟨significand, power, hform, -, hratio⟩ := exists_form_ofNat h
  have hden := ratio_den_pos significand power
  have hcast : (0 : ℤ) < (ratio significand power).2 := by exact_mod_cast hden
  rw [compareInt?_eq hform, if_neg Bool.false_ne_true, hratio]
  push_cast
  rw [← cmp_eq_compare, ← cmp_eq_compare, cmp_mul_pos_right hcast]

/-- A safe natural is below an integer exactly if the natural is. -/
theorem below_ofNat (h : n ≤ maxSafe) (k : ℤ) : (ofNat n).below k = decide ((n : ℤ) < k) := by
  rw [below, compareInt?_ofNat h, decide_eq_decide, Option.some.injEq, Int.compare_eq_lt]

theorem above_ofNat (h : n ≤ maxSafe) (k : ℤ) : (ofNat n).above k = decide (k < (n : ℤ)) := by
  rw [above, compareInt?_ofNat h, decide_eq_decide, Option.some.injEq, Int.compare_eq_gt]

theorem isWhole_ofNat (h : n ≤ maxSafe) (k : ℤ) : (ofNat n).isWhole k = decide ((n : ℤ) = k) := by
  rw [isWhole, compareInt?_ofNat h, decide_eq_decide, Option.some.injEq, compare_eq_iff_eq]

theorem isNaN_ofNat (h : n ≤ maxSafe) : (ofNat n).isNaN = false := by
  obtain ⟨significand, power, hform, -, -⟩ := exists_form_ofNat h
  rw [isNaN, hform]
  rfl

theorem trunc?_ofNat (h : n ≤ maxSafe) : (ofNat n).trunc? = some (n : ℤ) := by
  obtain ⟨significand, power, hform, -, hratio⟩ := exists_form_ofNat h
  rw [trunc?, hform]
  dsimp only
  rw [if_neg Bool.false_ne_true, hratio, Nat.mul_div_cancel _ (ratio_den_pos significand power)]

theorem toNat?_ofNat (h : n ≤ maxSafe) : (ofNat n).toNat? = some n := by
  rw [toNat?, toInt?_ofNat h]
  exact if_pos (Int.natCast_nonneg n)

/-- As many naturals are below a number that is one as it says. -/
theorem naturalsBelow?_of_toNat? (h : x.toNat? = some n) : x.naturalsBelow? = some n := by
  unfold toNat? toInt? at h
  cases hform : x.form with
  | finite negative significand power =>
    have hden := ratio_den_pos significand power
    rw [hform] at h
    rw [naturalsBelow?, hform]
    dsimp only at h ⊢
    generalize ratio significand power = parts at hden h ⊢
    obtain ⟨num, den⟩ := parts
    by_cases hwhole : num % den = 0
    · obtain ⟨k, rfl⟩ := Nat.dvd_of_mod_eq_zero hwhole
      have hup : (den * k + den - 1) / den = k := by
        rw [Nat.add_sub_assoc hden, Nat.mul_add_div hden,
          Nat.div_eq_of_lt (Nat.sub_lt hden Nat.one_pos), Nat.add_zero]
      rw [if_pos hwhole, Nat.mul_div_cancel_left k hden] at h
      rw [hup]
      -- Of the numbers with a sign only zero is a natural.
      cases negative with
      | true =>
        simp only [reduceIte] at h ⊢
        split_ifs at h
        cases h
        rw [Option.some.injEq]
        omega
      | false =>
        simp only [Bool.false_eq_true, reduceIte] at h ⊢
        rw [if_pos (Int.natCast_nonneg k), Int.toNat_natCast] at h
        exact h
    · rw [if_neg hwhole] at h
      cases h
  | nan =>
    rw [hform] at h
    cases h
  | infinite negative =>
    rw [hform] at h
    cases h

/-- As many naturals are below a safe natural as it says. -/
theorem naturalsBelow?_ofNat (h : n ≤ maxSafe) : (ofNat n).naturalsBelow? = some n :=
  naturalsBelow?_of_toNat? (toNat?_ofNat h)

/-- The number with its sign changed has the other sign in its form. -/
theorem form_neg {negative : Bool} {significand power : ℕ}
    (h : x.form = .finite negative significand power) :
    x.neg.form = .finite (!negative) significand power := by
  have hword := x.bits.toNat_lt
  have hbits : x.neg.bits.toNat = (x.bits.toNat + 2 ^ 63) % 2 ^ 64 := by
    rw [neg, UInt64.toNat_ofNat', Nat.pow_eq, Nat.pow_eq, Nat.mod_mod]
  have hsign :
      ((x.bits.toNat + 2 ^ 63) % 2 ^ 64 / 2 ^ 63 == 1) = !(x.bits.toNat / 2 ^ 63 == 1) := by
    have hflip : (x.bits.toNat + 2 ^ 63) % 2 ^ 64 / 2 ^ 63 = 1 - x.bits.toNat / 2 ^ 63 := by omega
    rcases (by omega : x.bits.toNat / 2 ^ 63 = 0 ∨ x.bits.toNat / 2 ^ 63 = 1) with hbit | hbit <;>
      rw [hflip, hbit] <;> rfl
  have hexponent : (x.bits.toNat + 2 ^ 63) % 2 ^ 64 / 2 ^ 52 % 2048 =
      x.bits.toNat / 2 ^ 52 % 2048 := by omega
  have hfraction : (x.bits.toNat + 2 ^ 63) % 2 ^ 64 % 2 ^ 52 = x.bits.toNat % 2 ^ 52 := by omega
  unfold form at h ⊢
  dsimp only at h ⊢
  simp only [Nat.pow_eq] at h ⊢
  rw [hbits, hsign, hexponent, hfraction]
  split_ifs at h ⊢ <;> cases h <;> rfl

/-- A number with its sign changed equals the integer with its sign changed. -/
theorem toInt?_neg {k : ℤ} (h : x.toInt? = some k) : x.neg.toInt? = some (-k) := by
  cases hx : x.form with
  | finite negative significand power =>
    rw [toInt?, hx] at h
    rw [toInt?, form_neg hx]
    dsimp only at h ⊢
    by_cases hwhole : (ratio significand power).1 % (ratio significand power).2 = 0
    · rw [if_pos hwhole, Option.some.injEq] at h
      rw [if_pos hwhole, Option.some.injEq, ← h]
      cases negative
      · rfl
      · exact (neg_neg _).symm
    · rw [if_neg hwhole] at h
      cases h
  | nan =>
    rw [toInt?, hx] at h
    cases h
  | infinite negative =>
    rw [toInt?, hx] at h
    cases h

/-- A number with its sign changed is as many times the least positive one, the other way. -/
theorem multiple?_neg {k : ℤ} (h : x.multiple? = some k) : x.neg.multiple? = some (-k) := by
  cases hx : x.form with
  | finite negative significand power =>
    rw [multiple?, hx, Option.some.injEq] at h
    rw [multiple?, form_neg hx, ← h]
    cases negative
    · rfl
    · exact congrArg some (neg_neg _).symm
  | nan =>
    rw [multiple?, hx] at h
    cases h
  | infinite negative =>
    rw [multiple?, hx] at h
    cases h

theorem isNegative_ofNat (h : n ≤ maxSafe) : (ofNat n).isNegative = false := by
  obtain ⟨significand, power, hform, -, -⟩ := exists_form_ofNat h
  rw [isNegative, hform]

/-- A sum that counts a natural is the nearest number to it. -/
theorem add_of_multiple {y : Double} {j k : ℤ} (hsign : x.isNegative = false)
    (hx : x.multiple? = some j) (hy : y.multiple? = some k)
    (hsum : j + k = ((n * 2 ^ 1074 : ℕ) : ℤ)) : x.add y = ofNat n := by
  rw [add, hx, hy]
  dsimp only
  rw [hsum, hsign, Int.natAbs_natCast]
  generalize 1074 = scale
  rw [Nat.pow_eq]
  by_cases hn : n = 0
  · rw [hn, Nat.zero_mul]
    rfl
  · have hpos : (0 : ℤ) < (n * 2 ^ scale : ℕ) :=
      Int.natCast_pos.mpr (Nat.mul_pos (Nat.pos_of_ne_zero hn) (Nat.two_pow_pos _))
    have hratio := ofRatio_mul_pow false n Nat.one_ne_zero scale
    rw [Nat.one_mul] at hratio
    rw [if_neg hpos.ne', decide_eq_false (Int.not_lt.mpr hpos.le), hratio]
    rfl

/-- The sum of safe naturals is the nearest number to their sum. -/
theorem add_ofNat (hm : m ≤ maxSafe) (hn : n ≤ maxSafe) :
    (ofNat m).add (ofNat n) = ofNat (m + n) := by
  refine add_of_multiple (isNegative_ofNat hm) (multiple?_ofNat hm) (multiple?_ofNat hn) ?_
  rw [← Int.natCast_add, ← Nat.add_mul]

/-- The difference of safe naturals is their difference. -/
theorem sub_ofNat (hm : m ≤ maxSafe) (h : n ≤ m) : (ofNat m).sub (ofNat n) = ofNat (m - n) := by
  refine add_of_multiple (isNegative_ofNat hm) (multiple?_ofNat hm)
    (multiple?_neg (multiple?_ofNat (h.trans hm))) ?_
  rw [← sub_eq_add_neg, Nat.sub_mul, Nat.cast_sub (Nat.mul_le_mul_right _ h)]

/-- A natural that is raised by one within the safe ones counts on. -/
theorem raised_ofNat {count : ℕ} (h : n + count ≤ maxSafe + 1) :
    (ofNat n).raised count = ofNat (n + count) := by
  have hone : 1 ≤ maxSafe := by decide
  induction count generalizing n with
  | zero => rfl
  | succ count ih =>
    rw [raised, add_ofNat (by omega) hone, ih (by omega), Nat.add_assoc, Nat.add_comm 1 count]

/-- A quotient is not rounded below its whole part. -/
theorem div_le_roundDiv (tie : Tie) (num den : ℕ) : num / den ≤ roundDiv tie num den := by
  unfold roundDiv
  dsimp only
  split_ifs
  · exact Nat.le_refl _
  · exact Nat.le_succ _
  · cases tie with
    | toEven => exact Nat.le_add_right _ _
    | up => exact Nat.le_succ _

/-- A natural beyond the safe ones is rounded to one beyond them. -/
theorem lt_nearestNat (h : maxSafe < n) : maxSafe < nearestNat n := by
  change 2 ^ 53 ≤ n at h
  have hlog : 53 ≤ n.log2 := (Nat.le_log2 (by omega)).mpr h
  have hself : 2 ^ 52 * 2 ^ (n.log2 - 52) ≤ n := by
    rw [← Nat.pow_add, show 52 + (n.log2 - 52) = n.log2 by omega]
    exact Nat.log2_self_le (by omega)
  have hquotient : 2 ^ 52 ≤ roundDiv .toEven n (2 ^ (n.log2 - 52)) :=
    ((Nat.le_div_iff_mul_le (Nat.two_pow_pos _)).mpr hself).trans (div_le_roundDiv _ _ _)
  change 2 ^ 53 ≤ roundDiv .toEven n (2 ^ (n.log2 - 52)) * 2 ^ (n.log2 - 52)
  calc 2 ^ 53 = 2 ^ 52 * 2 ^ 1 := rfl
    _ ≤ roundDiv .toEven n (2 ^ (n.log2 - 52)) * 2 ^ (n.log2 - 52) :=
        Nat.mul_le_mul hquotient (Nat.pow_le_pow_right Nat.two_pos (by omega))

theorem nearestNat_of_le (h : n ≤ maxSafe) : nearestNat n = n := by
  change n ≤ 2 ^ 53 - 1 at h
  exact nearestNat_of_lt (show n < 2 ^ 53 by omega)

/-- A natural that is read digit by digit is rounded after every product and sum. With one more
digit it stays what it is exactly or, as that does, beyond the safe naturals. -/
theorem nearestNat_digit {radix : ℕ} (hr : 0 < radix) (h : n = m ∨ maxSafe < n ∧ maxSafe < m)
    (digit : ℕ) :
    nearestNat (nearestNat (n * radix) + digit) = m * radix + digit ∨
      maxSafe < nearestNat (nearestNat (n * radix) + digit) ∧ maxSafe < m * radix + digit := by
  have hbeyond : ∀ k, maxSafe < k + digit → maxSafe < nearestNat k + digit := by
    intro k hk
    rcases Nat.lt_or_ge maxSafe k with hlt | hle
    · exact Nat.lt_add_right digit (lt_nearestNat hlt)
    · rwa [nearestNat_of_le hle]
  rcases h with rfl | ⟨hn, hm⟩
  · rcases Nat.lt_or_ge maxSafe (n * radix + digit) with hlt | hle
    · exact .inr ⟨lt_nearestNat (hbeyond _ hlt), hlt⟩
    · rw [nearestNat_of_le (Nat.le_of_add_right_le hle), nearestNat_of_le hle]
      exact .inl rfl
  · have hgrow := Nat.le_mul_of_pos_right n hr
    have hmore := Nat.le_mul_of_pos_right m hr
    exact .inr ⟨lt_nearestNat (hbeyond _ (by omega)), by omega⟩

end TextUnits.Double
