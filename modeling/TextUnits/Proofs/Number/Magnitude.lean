import TextUnits.Proofs.Number.Reading

/-!
# Decimal forms by their amounts

The decimal forms of a magnitude, a quotient of naturals, compared as rational numbers. Rounding to
significant digits and rounding to as many fraction digits as these reach to give the same amount,
also where the rounding carries into one more digit. Where the last of the digits lies behind the
last one of the magnitude itself, both give the magnitude.
-/

namespace TextUnits

/-- What a decimal amounts to when its point is counted in a row of `count` digits. -/
def Decimal.amount (d : Decimal) (count : ℕ) : ℚ := d.digits * 10 ^ (d.point - count)

/-- What a finite number amounts to without its sign. -/
def Double.amount (x : Double) : ℚ :=
  match x.form with
  | .finite _ significand power => significand * 2 ^ ((power : ℤ) - 1074)
  | _ => 0

/-- A quotient just below a whole number whose tenfold rounds to the tenfold of that number. -/
theorem roundDiv_of_tenfold {n d whole : ℕ} (hd : 0 < d) (hlt : n < whole * d)
    (h : roundDiv .up (10 * n) d = 10 * whole) : roundDiv .up n d = whole := by
  obtain ⟨-, hten⟩ := roundDiv_near .up (10 * n) d hd
  obtain ⟨hlow, hhigh⟩ := roundDiv_near .up n d hd
  rw [h, Nat.mul_assoc] at hten
  rcases Nat.lt_trichotomy (roundDiv .up n d) whole with hless | heq | hmore
  · have hmul := Nat.mul_le_mul_right d hless
    rw [Nat.succ_mul] at hmul
    omega
  · exact heq
  · have hmul := Nat.mul_le_mul_right d hmore
    rw [Nat.succ_mul] at hmul
    omega

namespace Double

variable {x : Double} {negative : Bool} {significand power : ℕ}

/-- The fields of the pattern of a finite number. -/
theorem fields_of_form (h : x.form = .finite negative significand power) :
    negative = (x.bits.toNat / 2 ^ 63 == 1) ∧
      (x.bits.toNat / 2 ^ 52 % 2048 = 0 ∧ significand = x.bits.toNat % 2 ^ 52 ∧ power = 0 ∨
        x.bits.toNat / 2 ^ 52 % 2048 = power + 1 ∧ power < 2046 ∧
          significand = 2 ^ 52 + x.bits.toNat % 2 ^ 52) := by
  unfold form at h
  dsimp only [Nat.pow_eq] at h
  split_ifs at h with hspecial hnan hsmall
  · cases h
    exact ⟨rfl, .inl ⟨hsmall, rfl, rfl⟩⟩
  · cases h
    exact ⟨rfl, .inr ⟨by omega, by omega, rfl⟩⟩

/-- A significand has at most 53 bits. -/
theorem significand_lt (h : x.form = .finite negative significand power) :
    significand < 2 ^ 53 := by
  have hfraction : x.bits.toNat % 2 ^ 52 < 2 ^ 52 := Nat.mod_lt _ (by norm_num)
  obtain ⟨-, ⟨-, rfl, -⟩ | ⟨-, -, rfl⟩⟩ := fields_of_form h <;> omega

/-- The power of a finite number leaves out the greatest exponent. -/
theorem power_lt (h : x.form = .finite negative significand power) : power < 2046 := by
  obtain ⟨-, ⟨-, -, rfl⟩ | ⟨-, hpower, -⟩⟩ := fields_of_form h
  · norm_num
  · exact hpower

/-- A finite number has a significand and a power. -/
theorem exists_form (h : x.isFinite = true) :
    ∃ negative significand power, x.form = .finite negative significand power := by
  unfold isFinite at h
  split at h
  · exact ⟨_, _, _, ‹_›⟩
  · cases h

/-- The number without its sign has the same significand and power. -/
theorem form_abs (h : x.form = .finite negative significand power) :
    x.abs.form = .finite false significand power := by
  have hbits : x.abs.bits.toNat = x.bits.toNat % 2 ^ 63 := by
    change (UInt64.ofNat (x.bits.toNat % 2 ^ 63)).toNat = _
    rw [UInt64.toNat_ofNat', Nat.mod_eq_of_lt]
    exact Nat.lt_trans (Nat.mod_lt _ (by norm_num)) (by norm_num)
  have hsign : x.bits.toNat % 2 ^ 63 / 2 ^ 63 = 0 :=
    Nat.div_eq_of_lt (Nat.mod_lt _ (by norm_num))
  have hexponent : x.bits.toNat % 2 ^ 63 / 2 ^ 52 % 2048 = x.bits.toNat / 2 ^ 52 % 2048 := by omega
  have hfraction : x.bits.toNat % 2 ^ 63 % 2 ^ 52 = x.bits.toNat % 2 ^ 52 := by omega
  unfold form at h ⊢
  dsimp only at h ⊢
  simp only [Nat.pow_eq] at h ⊢
  rw [hbits, hsign, hexponent, hfraction]
  split_ifs at h ⊢ <;> cases h <;> rfl

/-- The text of the number without its sign is that of its shortest decimal, unless it is zero. -/
theorem text_abs (h : x.form = .finite negative significand power)
    (hpos : 0 < (ratio significand power).1) :
    x.abs.text = (Decimal.shortest significand power).text := by
  have hne : significand ≠ 0 := by
    rintro rfl
    unfold ratio at hpos
    split_ifs at hpos
    · rw [Nat.zero_mul] at hpos
      exact Nat.lt_irrefl 0 hpos
    · exact Nat.lt_irrefl 0 hpos
  rw [text, form_abs h]
  dsimp only
  rw [if_neg hne]
  rfl

/-- The denominator of a magnitude is positive. -/
theorem ratio_den_pos (significand power : ℕ) : 0 < (ratio significand power).2 := by
  unfold ratio
  split_ifs
  · exact Nat.one_pos
  · exact Nat.two_pow_pos _

/-- A finite number is compared with an integer by its parts. -/
theorem compareInt?_eq (h : x.form = .finite negative significand power) (n : ℤ) :
    x.compareInt? n = some (compare
      (if negative then -((ratio significand power).1 : ℤ) else (ratio significand power).1)
      (n * (ratio significand power).2)) := by
  rw [compareInt?, h]

theorem amount_eq (h : x.form = .finite negative significand power) :
    x.amount = significand * 2 ^ ((power : ℤ) - 1074) := by
  rw [amount, h]

/-- The amount of a number as a quotient of naturals. -/
theorem ratio_eq (significand power : ℕ) :
    ((ratio significand power).1 : ℚ) / (ratio significand power).2 =
      significand * 2 ^ ((power : ℤ) - 1074) := by
  unfold ratio
  split_ifs with hpower
  · have hexponent : (power : ℤ) - 1074 = (power - 1074 : ℕ) := by omega
    rw [hexponent, zpow_natCast]
    push_cast [Nat.pow_eq]
    rw [div_one]
  · have hexponent : (power : ℤ) - 1074 = -(1074 - power : ℕ) := by omega
    rw [hexponent, zpow_neg, zpow_natCast, ← div_eq_mul_inv]
    push_cast [Nat.pow_eq]
    rfl

/-- A magnitude of 21 digits or more in front of the point is whole. -/
theorem ratio_den_of_large (hs : significand < 2 ^ 53)
    (h : 10 ^ 21 * (ratio significand power).2 ≤ (ratio significand power).1) :
    (ratio significand power).2 = 1 := by
  have hpos := ratio_den_pos significand power
  unfold ratio at h hpos ⊢
  split_ifs at h hpos ⊢
  · rfl
  · dsimp only at h hpos
    omega

/-- A magnitude that is no smaller than 10^-5 has at most 100 fraction digits. -/
theorem ratio_den_dvd (hs : significand < 2 ^ 53)
    (h : (ratio significand power).2 ≤ (ratio significand power).1 * 10 ^ 5) :
    (ratio significand power).2 ∣ 10 ^ 100 := by
  unfold ratio at h ⊢
  split_ifs at h ⊢ with hwhole
  · exact one_dvd _
  · dsimp only at h ⊢
    rw [Nat.pow_eq] at h ⊢
    have hlt : 2 ^ (1074 - power) < 2 ^ 70 := by
      refine Nat.lt_of_le_of_lt h ?_
      have hten : 10 ^ 5 ≤ 2 ^ 17 := by norm_num
      calc significand * 10 ^ 5 ≤ significand * 2 ^ 17 := Nat.mul_le_mul_left _ hten
        _ < 2 ^ 53 * 2 ^ 17 := Nat.mul_lt_mul_of_pos_right hs (Nat.two_pow_pos 17)
        _ = 2 ^ 70 := by norm_num
    have hle : 1074 - power ≤ 100 := by
      have hexponent := (Nat.pow_lt_pow_iff_right (by norm_num : 1 < 2)).mp hlt
      omega
    exact (pow_dvd_pow 2 hle).trans (pow_dvd_pow_of_dvd (by norm_num) 100)

end Double

namespace Decimal

open Numeral

variable {num den count places k : ℕ}

/-- The count of its digits bounds a positive natural from both sides. -/
theorem pow_length_bounds {n : ℕ} (h : 0 < n) :
    (10 : ℚ) ^ (((Numeral.digits 10 n).length : ℤ) - 1) ≤ n ∧
      (n : ℚ) < 10 ^ ((Numeral.digits 10 n).length : ℤ) := by
  have hlength : (decimal n).length = (Numeral.digits 10 n).length := List.length_map _
  have hpositive : 0 < (decimal n).length := List.length_pos_iff.mpr (decimal_ne_nil n)
  have hlow := pow_le_of_digits h.ne'
  have hhigh := read_lt (digits_decimal n)
  rw [read_decimal] at hhigh
  rw [← hlength]
  constructor
  · have hcast : ((decimal n).length : ℤ) - 1 = (((decimal n).length - 1 : ℕ) : ℤ) := by omega
    rw [hcast, zpow_natCast]
    exact_mod_cast hlow
  · rw [zpow_natCast]
    exact_mod_cast hhigh

/-- The comparison that `magnitude` makes, of a quotient with a power of ten. -/
theorem reaches_iff (num : ℕ) (hd : 0 < den) (g : ℤ) :
    (if 0 ≤ g then decide (den * Nat.pow 10 g.toNat ≤ num)
      else decide (den ≤ num * Nat.pow 10 (-g).toNat)) = true ↔
      (10 : ℚ) ^ g ≤ (num : ℚ) / den := by
  have hden : (0 : ℚ) < den := by exact_mod_cast hd
  simp only [Nat.pow_eq]
  rw [le_div_iff₀ hden]
  split_ifs with hg
  · obtain ⟨m, rfl⟩ := Int.eq_ofNat_of_zero_le hg
    simp only [Int.toNat_natCast, decide_eq_true_eq, zpow_natCast]
    rw [Nat.mul_comm]
    exact_mod_cast Iff.rfl
  · obtain ⟨m, hm⟩ := Int.eq_ofNat_of_zero_le (show 0 ≤ -g by omega)
    obtain rfl : g = -m := by omega
    have hpower : (0 : ℚ) < 10 ^ m := by positivity
    simp only [neg_neg, Int.toNat_natCast, decide_eq_true_eq, zpow_neg, zpow_natCast]
    rw [← div_eq_inv_mul, div_le_iff₀ hpower]
    exact_mod_cast Iff.rfl

/-- A magnitude lies between its power of ten and the next one. -/
theorem magnitude_spec (hn : 0 < num) (hd : 0 < den) :
    (10 : ℚ) ^ magnitude num den ≤ (num : ℚ) / den ∧
      (num : ℚ) / den < 10 ^ (magnitude num den + 1) := by
  have hden : (0 : ℚ) < den := by exact_mod_cast hd
  obtain ⟨hnumlow, hnumhigh⟩ := pow_length_bounds hn
  obtain ⟨hdenlow, hdenhigh⟩ := pow_length_bounds hd
  have hreaches := reaches_iff num hd
    (((Numeral.digits 10 num).length : ℤ) - (Numeral.digits 10 den).length)
  unfold magnitude
  dsimp only
  generalize ((Numeral.digits 10 num).length : ℤ) = numlength at *
  generalize ((Numeral.digits 10 den).length : ℤ) = denlength at *
  -- The counts of digits leave two powers to choose from.
  have hlow : (10 : ℚ) ^ (numlength - denlength - 1) ≤ (num : ℚ) / den := by
    rw [le_div_iff₀ hden]
    calc (10 : ℚ) ^ (numlength - denlength - 1) * den
        ≤ 10 ^ (numlength - denlength - 1) * 10 ^ denlength := by gcongr
      _ = 10 ^ (numlength - 1) := by
          rw [← zpow_add₀ (by norm_num)]
          congr 1
          ring
      _ ≤ num := hnumlow
  have hhigh : (num : ℚ) / den < 10 ^ (numlength - denlength + 1) := by
    rw [div_lt_iff₀ hden]
    calc (num : ℚ) < 10 ^ numlength := hnumhigh
      _ = 10 ^ (numlength - denlength + 1) * 10 ^ (denlength - 1) := by
          rw [← zpow_add₀ (by norm_num)]
          congr 1
          ring
      _ ≤ 10 ^ (numlength - denlength + 1) * den := by gcongr
  by_cases hreached : (10 : ℚ) ^ (numlength - denlength) ≤ (num : ℚ) / den
  · rw [if_pos (hreaches.mpr hreached)]
    exact ⟨hreached, hhigh⟩
  · rw [if_neg (mt hreaches.mp hreached), Int.sub_add_cancel]
    exact ⟨hlow, not_le.mp hreached⟩

/-- The digits that `significant` rounds to before it looks for a carry. -/
def rounded (num den count : ℕ) : ℕ :=
  roundDiv .up (shifted num den ((count : ℤ) - 1 - magnitude num den)).1
    (shifted num den ((count : ℤ) - 1 - magnitude num den)).2

/-- The digits are the rounded ones, unless these carry into one digit more. -/
theorem significant_eq (hn : 0 < num) :
    significant num den count =
      if rounded num den count = 10 ^ count then ⟨10 ^ (count - 1), magnitude num den + 2⟩
      else ⟨rounded num den count, magnitude num den + 1⟩ :=
  if_neg hn.ne'

/-- The point stands one or two places behind the magnitude. -/
theorem significant_point (hn : 0 < num) (den count : ℕ) :
    (significant num den count).point = magnitude num den + 1 ∨
      (significant num den count).point = magnitude num den + 2 := by
  rw [significant_eq hn]
  split_ifs
  · exact .inr rfl
  · exact .inl rfl

/-- A carry does not change the amount. -/
theorem amount_significant (hn : 0 < num) (hc : 0 < count) :
    (significant num den count).amount count =
      rounded num den count * 10 ^ (magnitude num den + 1 - count) := by
  rw [significant_eq hn]
  split_ifs with hcarry
  · obtain ⟨more, rfl⟩ := Nat.exists_eq_succ_of_ne_zero hc.ne'
    rw [amount, hcarry, Nat.succ_eq_add_one, Nat.add_sub_cancel]
    have hexponent : magnitude num den + 2 - ((more + 1 : ℕ) : ℤ) =
        magnitude num den + 1 - ((more + 1 : ℕ) : ℤ) + 1 := by ring
    rw [hexponent, zpow_add₀ (by norm_num), zpow_one]
    push_cast
    ring
  · rfl

/-- With as many fraction digits as the significant ones reach to, the same digits are fixed. -/
theorem fixed_eq_significant (hd : 0 < den) (hc : 0 < count)
    (hp : (significant num den count).point + places = count) :
    fixed num den places = (significant num den count).digits := by
  rcases Nat.eq_zero_or_pos num with rfl | hn
  · rw [fixed, Nat.zero_mul]
    have hzero := roundDiv_mul .up 0 den hd
    rwa [Nat.zero_mul] at hzero
  · have hden : (0 : ℚ) < den := by exact_mod_cast hd
    rw [significant_eq hn] at hp ⊢
    split_ifs at hp ⊢ with hcarry
    · -- One place more gives ten times the power of ten, so the places here give that power.
      obtain ⟨more, rfl⟩ := Nat.exists_eq_succ_of_ne_zero hc.ne'
      dsimp only at hp ⊢
      have hshift : ((more.succ : ℕ) : ℤ) - 1 - magnitude num den = ((places + 1 : ℕ) : ℤ) := by
        push_cast
        omega
      have hmagnitude : magnitude num den + 1 = (more : ℤ) - places := by
        push_cast at hp
        omega
      rw [rounded, hshift, shifted, if_pos (Int.natCast_nonneg _)] at hcarry
      dsimp only at hcarry
      rw [Int.toNat_natCast, Nat.pow_eq] at hcarry
      have hlt : num * 10 ^ places < 10 ^ more * den := by
        have hbelow := (magnitude_spec hn hd).2
        rw [hmagnitude, zpow_sub₀ (by norm_num), zpow_natCast, zpow_natCast,
          div_lt_div_iff₀ hden (by positivity)] at hbelow
        exact_mod_cast hbelow
      have hten : roundDiv .up (10 * (num * 10 ^ places)) den = 10 * 10 ^ more :=
        calc roundDiv .up (10 * (num * 10 ^ places)) den
            = roundDiv .up (num * 10 ^ (places + 1)) den := by
              congr 1
              ring
          _ = 10 ^ (more + 1) := hcarry
          _ = 10 * 10 ^ more := pow_succ' 10 more
      exact roundDiv_of_tenfold hd hlt hten
    · dsimp only at hp ⊢
      have hshift : (count : ℤ) - 1 - magnitude num den = (places : ℤ) := by omega
      rw [rounded, hshift, shifted, if_pos (Int.natCast_nonneg _)]
      rfl

/-- Fraction digits that reach to the last one of the number leave it as it is. -/
theorem fixed_of_dvd (hd : 0 < den) (h : den ∣ 10 ^ places) :
    (fixed num den places : ℚ) / 10 ^ places = num / den := by
  obtain ⟨whole, hwhole⟩ := h
  have hden : (den : ℚ) ≠ 0 := by exact_mod_cast hd.ne'
  have hpower : (10 : ℚ) ^ places = den * whole := by exact_mod_cast hwhole
  have hne : (whole : ℚ) ≠ 0 := by
    rintro hzero
    rw [hzero, mul_zero] at hpower
    exact pow_ne_zero places (by norm_num : (10 : ℚ) ≠ 0) hpower
  have hfixed : fixed num den places = num * whole := by
    rw [fixed, Nat.pow_eq, hwhole, ← roundDiv_mul .up (num * whole) den hd]
    congr 1
    ring
  rw [hfixed, hpower, Nat.cast_mul]
  exact mul_div_mul_right _ _ hne

/-- Significant digits that reach to the last one of the number leave it as it is. -/
theorem amount_of_dvd (hn : 0 < num) (hd : 0 < den) (hc : 0 < count) (h : den ∣ 10 ^ k)
    (hk : (significant num den count).point + k ≤ count) :
    (significant num den count).amount count = num / den := by
  have hpoint := significant_point hn den count
  obtain ⟨shift, hshift⟩ := Int.eq_ofNat_of_zero_le
    (show 0 ≤ (count : ℤ) - 1 - magnitude num den by omega)
  have hdvd : den ∣ 10 ^ shift := h.trans (pow_dvd_pow 10 (by omega))
  have hrounded : rounded num den count = fixed num den shift := by
    rw [rounded, hshift, shifted, if_pos (Int.natCast_nonneg _)]
    rfl
  have hexponent : magnitude num den + 1 - (count : ℤ) = -(shift : ℤ) := by omega
  rw [amount_significant hn hc, hrounded, hexponent, zpow_neg, zpow_natCast, ← div_eq_mul_inv]
  exact fixed_of_dvd hd hdvd

/-- The point of the shortest decimal stands one or two places behind the magnitude. -/
theorem shortest_point {significand power : ℕ} (hn : 0 < (Double.ratio significand power).1) :
    (shortest significand power).point =
        magnitude (Double.ratio significand power).1 (Double.ratio significand power).2 + 1 ∨
      (shortest significand power).point =
        magnitude (Double.ratio significand power).1 (Double.ratio significand power).2 + 2 := by
  have hsignificant := significant_point hn (Double.ratio significand power).2
  rw [shortest]
  dsimp only
  generalize magnitude (Double.ratio significand power).1 (Double.ratio significand power).2 = e
    at hsignificant ⊢
  have hreads : ∀ (count : ℕ) (d : Decimal),
      readsBackWith? significand power e count = some d → d.point = e + 1 ∨ d.point = e + 2 := by
    intro count d hd
    unfold readsBackWith? at hd
    dsimp only at hd
    split_ifs at hd <;> cases hd <;> simp
  have hfrom : ∀ more count, (shortestFrom significand power e count more).point = e + 1 ∨
      (shortestFrom significand power e count more).point = e + 2 := by
    intro more
    induction more with
    | zero => exact hsignificant
    | succ more ih =>
      intro count
      rw [shortestFrom]
      split
      · exact hreads _ _ ‹_›
      · exact ih _
  exact hfrom 17 1

/-- A decimal with more than 21 digits in front of its point is written as a mantissa below ten and
the power of ten behind it. -/
theorem exists_text {d : Decimal} (h : 21 < d.point) :
    ∃ mantissa v, d.text = mantissa ++ 0x65 :: 0x2B :: decimal (d.point - 1).natAbs ∧
      Pointed mantissa v ∧ v < 10 := by
  have hdigits := digits_decimal d.digits
  have hne := decimal_ne_nil d.digits
  have hlength := List.length_pos_iff.mpr hne
  unfold text
  dsimp only
  rw [if_neg (by omega), if_neg (by omega), if_neg (by omega),
    if_neg (show ¬ d.point - 1 < 0 by omega)]
  generalize decimal d.digits = digits at hdigits hne hlength ⊢
  have hlt := read_lt hdigits
  by_cases hone : digits.length = 1
  · rw [if_pos hone, List.append_nil, List.take_of_length_le hone.le]
    refine ⟨digits, read digits, rfl, .whole hdigits hne, ?_⟩
    rw [hone] at hlt
    exact_mod_cast hlt
  · have hparts := List.take_append_drop 1 digits
    have hsplit := hdigits
    rw [← hparts] at hsplit
    obtain ⟨hfirst, hothers⟩ := digits_append.mp hsplit
    have htake : digits.take 1 ≠ [] := by
      rw [← List.length_pos_iff, List.length_take]
      omega
    have hpointed := Pointed.fraction hfirst htake hothers
    rw [hparts] at hpointed
    rw [if_neg hone]
    refine ⟨_, _, rfl, hpointed, ?_⟩
    have hpower : digits.length = (digits.drop 1).length + 1 := by
      rw [List.length_drop]
      omega
    rw [div_lt_iff₀ (by positivity), ← pow_succ', ← hpower]
    exact_mod_cast hlt

end Decimal

end TextUnits
