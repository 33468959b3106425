import TextUnits.Proofs.Number.Magnitude

/-!
# Quotients as floating point numbers

A quotient of naturals is scaled until its significand has 53 bits. Below 2^1023 it is made a finite
number, so that a finite number stays one when it is divided by two or more. A number without sign
is below a natural exactly if its amount is, and one with a sign is below zero or the negative zero.
-/

namespace TextUnits.Double

variable {x : Double} {negative : Bool} {significand power num den : ℕ}

/-- The lengths of two naturals bound their quotient from above. -/
theorem lt_of_log2 (num : ℕ) (hd : 0 < den) (shift : ℕ) :
    num * 2 ^ shift < den * 2 ^ (num.log2 + shift - den.log2 + 1) :=
  calc num * 2 ^ shift < 2 ^ (num.log2 + 1) * 2 ^ shift :=
        Nat.mul_lt_mul_of_pos_right Nat.lt_log2_self (Nat.two_pow_pos _)
    _ = 2 ^ (num.log2 + 1 + shift) := (Nat.pow_add ..).symm
    _ ≤ 2 ^ (den.log2 + (num.log2 + shift - den.log2 + 1)) :=
        Nat.pow_le_pow_right Nat.two_pos (by omega)
    _ = 2 ^ den.log2 * 2 ^ (num.log2 + shift - den.log2 + 1) := Nat.pow_add ..
    _ ≤ den * 2 ^ (num.log2 + shift - den.log2 + 1) :=
        Nat.mul_le_mul_right _ (Nat.log2_self_le hd.ne')

/-- And they bound it from below. -/
theorem log2_lt_of_lt (hn : num ≠ 0) {shift bound : ℕ} (h : num * 2 ^ shift < den * 2 ^ bound) :
    num.log2 + shift < den.log2 + 1 + bound := by
  refine (Nat.pow_lt_pow_iff_right (by norm_num : 1 < 2)).mp ?_
  calc 2 ^ (num.log2 + shift) = 2 ^ num.log2 * 2 ^ shift := Nat.pow_add ..
    _ ≤ num * 2 ^ shift := Nat.mul_le_mul_right _ (Nat.log2_self_le hn)
    _ < den * 2 ^ bound := h
    _ ≤ 2 ^ (den.log2 + 1) * 2 ^ bound := Nat.mul_le_mul_right _ Nat.lt_log2_self.le
    _ = 2 ^ (den.log2 + 1 + bound) := (Nat.pow_add ..).symm

/-- The scale of a quotient is great enough for it. -/
theorem lt_scaleOf (num : ℕ) (hd : 0 < den) :
    num * 2 ^ 1126 < den * 2 ^ (scaleOf num den + 1) := by
  unfold scaleOf
  generalize 1126 = shift
  have hguess := lt_of_log2 num hd shift
  simp only [Nat.pow_eq]
  split_ifs with hless
  · exact hless.trans_le (Nat.mul_le_mul_left _ (Nat.pow_le_pow_right Nat.two_pos (by omega)))
  · exact hguess

/-- The scale of a quotient is no greater than needed. -/
theorem scaleOf_lt (hn : num ≠ 0) {bound : ℕ} (hb : 0 < bound)
    (h : num * 2 ^ 1126 < den * 2 ^ bound) : scaleOf num den < bound := by
  unfold scaleOf
  generalize 1126 = shift at h ⊢
  have hlog := log2_lt_of_lt hn h
  simp only [Nat.pow_eq]
  split_ifs with hless
  · omega
  · have hbetween := lt_of_mul_lt_mul_left' ((not_lt.mp hless).trans_lt h)
    exact (Nat.pow_lt_pow_iff_right (by norm_num : 1 < 2)).mp hbetween

/-- A pattern whose exponent bits are not the greatest ones is a finite number. -/
theorem exists_form_ofSignAndRest (negative : Bool) {rest : ℕ} (h : rest < 2047 * 2 ^ 52) :
    ∃ significand power, (ofSignAndRest negative rest).form =
      .finite negative significand power := by
  have hbits : (ofSignAndRest negative rest).bits.toNat =
      (if negative then 2 ^ 63 else 0) + rest := by
    change (UInt64.ofNat ((if negative then 2 ^ 63 else 0) + rest)).toNat = _
    rw [UInt64.toNat_ofNat', Nat.mod_eq_of_lt]
    split_ifs <;> omega
  have hsign : ((if negative then 2 ^ 63 else 0) + rest) / 2 ^ 63 = if negative then 1 else 0 := by
    split_ifs <;> omega
  have hexponent : ((if negative then 2 ^ 63 else 0) + rest) / 2 ^ 52 % 2048 = rest / 2 ^ 52 := by
    split_ifs <;> omega
  have hnegative : ((if negative then 1 else 0) == 1) = negative := by cases negative <;> rfl
  unfold form
  simp only [Nat.pow_eq]
  rw [hbits, hsign, hexponent, hnegative, if_neg (by omega)]
  by_cases hsmall : rest / 2 ^ 52 = 0
  · exact ⟨_, _, if_pos hsmall⟩
  · exact ⟨_, _, if_neg hsmall⟩

/-- A quotient that is scaled has a significand of at most 53 bits. -/
theorem roundDiv_le_of_scaled (hd : 0 < den) (power : ℕ) {low scale : ℕ} (hp : scale ≤ power + 104)
    (h : num * 2 ^ (low + 52) < den * 2 ^ (scale + 1)) :
    roundDiv .toEven (num * 2 ^ low) (den * 2 ^ power) ≤ 2 ^ 53 := by
  have hlt : num * 2 ^ low < den * 2 ^ power * 2 ^ 53 := by
    refine Nat.lt_of_mul_lt_mul_right (a := 2 ^ 52) ?_
    calc num * 2 ^ low * 2 ^ 52 = num * 2 ^ (low + 52) := by rw [Nat.pow_add, Nat.mul_assoc]
      _ < den * 2 ^ (scale + 1) := h
      _ ≤ den * 2 ^ (power + 53 + 52) :=
          Nat.mul_le_mul_left _ (Nat.pow_le_pow_right Nat.two_pos (by omega))
      _ = den * 2 ^ power * 2 ^ 53 * 2 ^ 52 := by
          rw [Nat.pow_add, Nat.pow_add, Nat.mul_assoc, Nat.mul_assoc, Nat.mul_assoc]
  have hpos : 0 < den * 2 ^ power := Nat.mul_pos hd (Nat.two_pow_pos _)
  have hnear := (roundDiv_near .toEven (num * 2 ^ low) _ hpos).2
  generalize roundDiv .toEven (num * 2 ^ low) (den * 2 ^ power) = rounded at hnear
  generalize den * 2 ^ power = unit at *
  by_contra hmore
  have hover := Nat.mul_le_mul_right unit (not_le.mp hmore)
  rw [Nat.succ_mul] at hover
  omega

/-- A quotient below 2^1023 is made a finite number. -/
theorem exists_form_ofRatio (negative : Bool) (hd : 0 < den) {bound : ℕ} (hb : bound ≤ 1023)
    (h : num < den * 2 ^ bound) :
    ∃ significand power, (ofRatio negative num den).form =
      .finite negative significand power := by
  by_cases hzero : num = 0
  · rw [ofRatio, if_pos hzero]
    exact exists_form_ofSignAndRest negative (by norm_num)
  · have hshift : ∀ shift, num * 2 ^ shift < den * 2 ^ (bound + shift) := by
      intro shift
      rw [Nat.pow_add, ← Nat.mul_assoc]
      exact Nat.mul_lt_mul_of_pos_right h (Nat.two_pow_pos _)
    have hscale := scaleOf_lt hzero (by omega) (hshift 1126)
    have hscaled := lt_scaleOf num hd
    rw [show 1126 = 1074 + 52 by norm_num] at hscaled
    have hsignificand := roundDiv_le_of_scaled hd (scaleOf num den - 104) (by omega) hscaled
    rw [ofRatio, if_neg hzero]
    generalize 1074 = low at hsignificand ⊢
    dsimp only [Nat.pow_eq] at hsignificand ⊢
    rw [if_neg (by omega)]
    exact exists_form_ofSignAndRest negative (by omega)

/-- An integer below 2^1023 is made a finite number with its sign. -/
theorem exists_form_ofInt {n : ℤ} {bound : ℕ} (hb : bound ≤ 1023) (h : n.natAbs < 2 ^ bound) :
    ∃ significand power, (ofInt n).form = .finite (n < 0) significand power :=
  exists_form_ofRatio _ Nat.one_pos hb (by rwa [Nat.one_mul])

/-- The amount of a significand below a power of two. -/
theorem ratio_lt (hs : significand < 2 ^ 53) (power : ℕ) :
    (ratio significand power).1 < (ratio significand power).2 * 2 ^ (53 + (power - 1074)) := by
  unfold ratio
  dsimp only [Nat.pow_eq]
  split_ifs with hwhole
  · rw [Nat.one_mul, Nat.pow_add]
    exact Nat.mul_lt_mul_of_pos_right hs (Nat.two_pow_pos _)
  · have hnone : power - 1074 = 0 := by omega
    rw [hnone, Nat.add_zero]
    exact hs.trans_le (Nat.le_mul_of_pos_left _ (Nat.two_pow_pos _))

/-- A finite number that is divided by two or more stays finite. -/
theorem exists_form_divNat (hx : x.form = .finite negative significand power) {d : ℕ} (hd : 2 ≤ d) :
    ∃ significand power, (x.divNat d).form = .finite negative significand power := by
  have hden := ratio_den_pos significand power
  have hpower := power_lt hx
  have hbound : 52 + (power - 1074) ≤ 1023 := by omega
  rw [divNat, hx]
  refine exists_form_ofRatio negative (Nat.mul_pos hden (Nat.zero_lt_of_lt hd)) hbound ?_
  calc (ratio significand power).1
      < (ratio significand power).2 * 2 ^ (53 + (power - 1074)) :=
        ratio_lt (significand_lt hx) power
    _ = (ratio significand power).2 * 2 * 2 ^ (52 + (power - 1074)) := by
        rw [Nat.mul_assoc, ← Nat.pow_succ', Nat.succ_eq_add_one, Nat.add_right_comm]
    _ ≤ (ratio significand power).2 * d * 2 ^ (52 + (power - 1074)) :=
        Nat.mul_le_mul_right _ (Nat.mul_le_mul_left _ hd)

/-- A number without sign is below a natural exactly if its amount is. -/
theorem below_iff (hx : x.form = .finite false significand power) (n : ℕ) :
    x.below n = true ↔ x.amount < n := by
  have hden : (0 : ℚ) < (ratio significand power).2 := by
    exact_mod_cast ratio_den_pos significand power
  rw [amount_eq hx, ← ratio_eq, div_lt_iff₀ hden, below, decide_eq_true_eq, compareInt?_eq hx,
    if_neg Bool.false_ne_true, Option.some.injEq, Int.compare_eq_lt]
  exact_mod_cast Iff.rfl

/-- A finite number is below zero exactly if it is negative and not a zero. -/
theorem below_zero_iff (hx : x.form = .finite negative significand power) :
    x.below 0 = true ↔ negative = true ∧ significand ≠ 0 := by
  have hzero : (ratio significand power).1 = 0 ↔ significand = 0 := by
    unfold ratio
    split_ifs
    · exact Nat.mul_eq_zero.trans (or_iff_left (Nat.two_pow_pos _).ne')
    · rfl
  rw [below, decide_eq_true_eq, compareInt?_eq hx, Option.some.injEq, Int.compare_eq_lt, zero_mul,
    ne_eq, ← hzero]
  cases negative with
  | false =>
    rw [if_neg Bool.false_ne_true]
    exact iff_of_false (by omega) fun h => Bool.false_ne_true h.1
  | true =>
    rw [if_pos rfl, and_iff_right rfl]
    omega

/-- A zero with a sign is the negative zero. -/
theorem eq_zero_of_form (hx : x.form = .finite true 0 power) : x = zero true := by
  have hbits : x.bits.toNat = 2 ^ 63 := by
    have hword := x.bits.toNat_lt
    obtain ⟨hset, ⟨hexponent, hfraction, -⟩ | ⟨-, -, hfraction⟩⟩ := fields_of_form hx
    · have hhigh := eq_of_beq hset.symm
      omega
    · omega
  cases x
  exact congrArg Double.mk (UInt64.toNat_inj.mp hbits)

/-- A finite number has its sign bit set exactly if it is below zero or the negative zero. -/
theorem isNegative_iff (hx : x.form = .finite negative significand power) :
    x.isNegative = true ↔ x.below 0 = true ∨ x = zero true := by
  have hsign : x.isNegative = negative := by rw [isNegative, hx]
  constructor
  · intro hnegative
    obtain rfl : negative = true := hsign.symm.trans hnegative
    by_cases hnone : significand = 0
    · rw [hnone] at hx
      exact .inr (eq_zero_of_form hx)
    · exact .inl ((below_zero_iff hx).mpr ⟨rfl, hnone⟩)
  · rintro (hbelow | rfl)
    · exact hsign.trans ((below_zero_iff hx).mp hbelow).1
    · decide

end TextUnits.Double
