import TextUnits.Proofs.Number.Naturals
import TextUnits.Proofs.Number.Magnitude
import TextUnits.Proofs.Number.Places

/-!
# Texts of natural numbers

The text of a number beyond the safe naturals is that of its shortest decimal. Such a decimal has no
digit behind its point, since the number itself is found as soon as there are as many digits as it
has. So the text is made of digits alone, up to 10^21. A number below 10^21 is at least one unit of
its last binary place below it, and its decimal does not reach 10^21.
-/

namespace TextUnits

open Numeral

/-- A quotient below a whole number is not rounded beyond it. -/
theorem roundDiv_le (tie : Tie) {num den bound : ℕ} (h : num < bound * den) :
    roundDiv tie num den ≤ bound := by
  have hd : 0 < den := Nat.pos_of_mul_pos_left (Nat.lt_of_le_of_lt (Nat.zero_le _) h)
  obtain ⟨-, hnear⟩ := roundDiv_near tie num den hd
  by_contra hlt
  have hmul := Nat.mul_le_mul_right den (Nat.succ_le_of_lt (not_le.mp hlt))
  rw [Nat.succ_mul] at hmul
  omega

namespace Decimal

/-- A candidate with `count` digits in front of a power of ten, where one more digit that a carry
makes is taken off again. -/
def placed (count : ℕ) (e : ℤ) (candidate : ℕ) : Decimal :=
  if candidate = 10 ^ count then ⟨10 ^ (count - 1), e + 2⟩ else ⟨candidate, e + 1⟩

variable {count candidate : ℕ} {e : ℤ}

theorem length_decimal_le {n : ℕ} (hc : 0 < count) (h : n < 10 ^ count) :
    (decimal n).length ≤ count := by
  rcases Nat.eq_zero_or_pos n with rfl | hn
  · rw [decimal, text_of_lt (by norm_num)]
    exact hc
  · have hpow := pow_le_of_digits hn.ne'
    have hlt := (Nat.pow_lt_pow_iff_right (by norm_num)).mp (Nat.lt_of_le_of_lt hpow h)
    omega

/-- A candidate of no more than `count` digits keeps them, and only a carry moves the point. -/
theorem placed_spec (hc : 0 < count) (h : candidate ≤ 10 ^ count) :
    (decimal (placed count e candidate).digits).length ≤ count ∧
      ((placed count e candidate).point = e + 1 ∨
        candidate = 10 ^ count ∧ (placed count e candidate).point = e + 2) := by
  unfold placed
  split_ifs with hcarry
  · refine ⟨length_decimal_le hc ?_, .inr ⟨hcarry, rfl⟩⟩
    exact Nat.pow_lt_pow_right (by norm_num) (Nat.sub_lt hc Nat.one_pos)
  · exact ⟨length_decimal_le hc (lt_of_le_of_ne h hcarry), .inl rfl⟩

/-- A natural that loses places is divided by a power of ten. -/
theorem shifted_neg (n k : ℕ) : shifted n 1 (-(k : ℤ)) = (n, 10 ^ k) := by
  unfold shifted
  rcases Nat.eq_zero_or_pos k with rfl | hpos
  · simp
  · rw [if_neg (by omega), neg_neg, Int.toNat_natCast, Nat.one_mul]
    rfl

/-- A decimal has no digit behind its point, and that stands behind the 21st digit at most when the
number is below 10^21. -/
def Fits (n : ℕ) (d : Decimal) : Prop :=
  (decimal d.digits).length ≤ d.point ∧ (n < 10 ^ 21 → d.point ≤ 21)

/-- A candidate with no more digits than the number fits unless it is carried to 10^21. -/
theorem fits_placed {n exponent : ℕ} (hn : 10 ^ exponent ≤ n) (hc : 0 < count)
    (hle : count ≤ exponent + 1) (h : candidate ≤ 10 ^ count)
    (hcarry : n < 10 ^ 21 → exponent = 20 → candidate ≠ 10 ^ count) :
    Fits n (placed count exponent candidate) := by
  obtain ⟨hlength, hpoint⟩ := placed_spec (e := exponent) hc h
  refine ⟨by omega, fun hlt => ?_⟩
  have hless := (Nat.pow_lt_pow_iff_right (by norm_num)).mp (Nat.lt_of_le_of_lt hn hlt)
  rcases hpoint with hpoint | ⟨hsame, hpoint⟩
  · omega
  · have hne : exponent ≠ 20 := fun htwenty => hcarry hlt htwenty hsame
    omega

/-- The magnitude of a natural is the one by its powers of ten. -/
theorem exists_magnitude {n : ℕ} (h : 0 < n) :
    ∃ exponent : ℕ, magnitude n 1 = exponent ∧ 10 ^ exponent ≤ n ∧ n < 10 ^ (exponent + 1) := by
  obtain ⟨hlow, hhigh⟩ := magnitude_spec h Nat.one_pos
  rw [Nat.cast_one, div_one] at hlow hhigh
  have hone : (1 : ℚ) ≤ n := by exact_mod_cast h
  have hpos : 0 < magnitude n 1 + 1 :=
    (one_lt_zpow_iff_right₀ (by norm_num)).mp (lt_of_le_of_lt hone hhigh)
  obtain ⟨exponent, hexponent⟩ := Int.eq_ofNat_of_zero_le (show 0 ≤ magnitude n 1 by omega)
  refine ⟨exponent, hexponent, ?_, ?_⟩
  · rw [hexponent] at hlow
    exact_mod_cast hlow
  · rw [hexponent] at hhigh
    exact_mod_cast hhigh

/-- A natural whose significand has all 53 bits and that is written with a power of two. -/
structure IsWhole (significand power n : ℕ) : Prop where
  /-- The significand has its first bit. -/
  low : 2 ^ 52 ≤ significand
  /-- And no more than 53. -/
  high : significand < 2 ^ 53
  /-- No place is behind the binary point. -/
  whole : 1074 ≤ power
  /-- The number. -/
  eq : n = significand * 2 ^ (power - 1074)

variable {significand power n k : ℕ}

namespace IsWhole

theorem ratio_eq (h : IsWhole significand power n) : Double.ratio significand power = (n, 1) := by
  rw [Double.ratio, if_pos h.whole, h.eq]
  rfl

theorem pos (h : IsWhole significand power n) : 0 < n := by
  rw [h.eq]
  exact Nat.mul_pos (Nat.lt_of_lt_of_le (by norm_num) h.low) (Nat.two_pow_pos _)

/-- The interval of a natural reaches less than one unit of the last place beyond it, and holds
it. -/
theorem contains_spec (h : IsWhole significand power n) :
    (∀ c, (reach significand power).contains 1 c 1 = true →
        4 * c ≤ 4 * n + 2 * 2 ^ (power - 1074)) ∧
      (reach significand power).contains 1 n 1 = true := by
  have hstep : Double.ratio 1 power = (2 ^ (power - 1074), 1) := by
    rw [Double.ratio, if_pos h.whole, Nat.one_mul]
    rfl
  have hunit := Nat.two_pow_pos (power - 1074)
  have hn := h.eq
  have hlow := h.low
  unfold reach Reach.contains
  rw [hstep]
  dsimp only
  generalize 2 ^ (power - 1074) = unit at *
  have hhigh : (4 * significand + 2) * unit = 4 * n + 2 * unit := by
    rw [hn]
    ring
  constructor
  · intro c hc
    rw [Nat.mul_one, Nat.mul_one, Nat.mul_one, hhigh] at hc
    split_ifs at hc <;>
      simp only [Bool.and_eq_true, decide_eq_true_eq] at hc <;> omega
  · have hbelow : ∀ below, 0 < below → (4 * significand - below) * unit < 4 * n := by
      intro below hbelow
      rw [hn, ← Nat.mul_assoc]
      exact Nat.mul_lt_mul_of_pos_right (by omega) hunit
    have hless := hbelow (if significand = Nat.pow 2 52 ∧ 0 < power then 1 else 2)
      (by split_ifs <;> norm_num)
    rw [Nat.mul_one, Nat.mul_one, Nat.mul_one, hhigh]
    generalize (4 * significand - if significand = Nat.pow 2 52 ∧ 0 < power then 1 else 2) * unit =
      bound at hless ⊢
    split_ifs <;> simp only [Bool.and_eq_true, decide_eq_true_eq] <;> omega

/-- Two candidates are tried with `count` digits, where `k` is the number of places left out. The
first one is the number itself when none is. -/
theorem readsBackWith?_spec (h : IsWhole significand power n)
    (hk : (count : ℤ) - 1 - e = -(k : ℤ)) (hn : n < 10 ^ count * 10 ^ k) :
    ∃ near other, near ≤ 10 ^ count ∧ other ≤ 10 ^ count ∧ (k = 0 → near = n) ∧
      readsBackWith? significand power e count =
        if (reach significand power).contains 1 (near * 10 ^ k) 1 = true then
          some (placed count e near)
        else if (reach significand power).contains 1 (other * 10 ^ k) 1 = true then
          some (placed count e other)
        else none := by
  have hinside : ∀ c : ℕ, (if 0 ≤ -(k : ℤ) then
      (reach significand power).contains 1 c (Nat.pow 10 (-(k : ℤ)).toNat)
      else (reach significand power).contains 1 (c * Nat.pow 10 (-(-(k : ℤ))).toNat) 1) =
        (reach significand power).contains 1 (c * 10 ^ k) 1 := by
    intro c
    rcases Nat.eq_zero_or_pos k with rfl | hpos
    · simp
    · rw [if_neg (by omega), neg_neg, Int.toNat_natCast]
      rfl
  have hnear : roundDiv .toEven n (10 ^ k) ≤ 10 ^ count := roundDiv_le _ hn
  refine ⟨roundDiv .toEven n (10 ^ k), if roundDiv .toEven n (10 ^ k) * 10 ^ k ≤ n then
    roundDiv .toEven n (10 ^ k) + 1 else roundDiv .toEven n (10 ^ k) - 1, hnear, ?_, ?_, ?_⟩
  · split_ifs with hle
    · exact Nat.lt_of_mul_lt_mul_right (Nat.lt_of_le_of_lt hle hn)
    · exact (Nat.sub_le _ _).trans hnear
  · rintro rfl
    have hexact := roundDiv_mul .toEven n 1 Nat.one_pos
    rwa [Nat.mul_one] at hexact
  · unfold readsBackWith?
    rw [h.ratio_eq, hk]
    dsimp only
    rw [shifted_neg]
    simp only [hinside]
    rfl

/-- A number of 21 digits is at least a unit of its last place below 10^21, and that unit is more
than 1000. -/
theorem unit_spec (h : IsWhole significand power n) (hn : n < 10 ^ 21) (hlow : 10 ^ 20 ≤ n) :
    n + 2 ^ (power - 1074) ≤ 10 ^ 21 ∧ 2 * 500 < 2 ^ (power - 1074) := by
  have hunit := Nat.two_pow_pos (power - 1074)
  have hexponent : power - 1074 < 18 := by
    have hlt : 2 ^ 52 * 2 ^ (power - 1074) < 2 ^ 52 * 2 ^ 18 :=
      calc 2 ^ 52 * 2 ^ (power - 1074) ≤ significand * 2 ^ (power - 1074) :=
            Nat.mul_le_mul_right _ h.low
        _ = n := h.eq.symm
        _ < 10 ^ 21 := hn
        _ ≤ 2 ^ 52 * 2 ^ 18 := by norm_num
    exact (Nat.pow_lt_pow_iff_right (by norm_num)).mp (Nat.lt_of_mul_lt_mul_left hlt)
  obtain ⟨whole, hwhole⟩ : 2 ^ (power - 1074) ∣ 10 ^ 21 :=
    (pow_dvd_pow 2 hexponent.le).trans (by norm_num)
  have hn' := h.eq
  have hhigh := h.high
  generalize 2 ^ (power - 1074) = unit at *
  constructor
  · -- both are multiples of the unit, so the next one is in between
    rw [hn', hwhole, Nat.mul_comm unit] at hn ⊢
    rw [← Nat.succ_mul]
    exact Nat.mul_le_mul_right unit (Nat.lt_of_mul_lt_mul_right hn)
  · by_contra hsmall
    have hle : n ≤ significand * 1000 := by
      rw [hn']
      exact Nat.mul_le_mul_left _ (by omega)
    omega

/-- The decimals that are found when digits are added one at a time fit. -/
theorem fits_shortestFrom (h : IsWhole significand power n) {exponent : ℕ}
    (he : magnitude n 1 = exponent) (hlow : 10 ^ exponent ≤ n) (hhigh : n < 10 ^ (exponent + 1))
    (more : ℕ) : ∀ count, count + more = 18 → 0 < count → count ≤ exponent + 1 →
      Fits n (shortestFrom significand power exponent count more) := by
  induction more with
  | zero =>
    intro count hsum hc hle
    obtain rfl : count = 18 := hsum
    obtain ⟨k, hk⟩ := Nat.exists_eq_add_of_le' hle
    have hshift : ((18 : ℕ) : ℤ) - 1 - exponent = -(k : ℤ) := by omega
    have hrounded : rounded n 1 18 = roundDiv .up n (10 ^ k) := by
      rw [rounded, he, hshift, shifted_neg]
    have hdigits : n < 10 ^ 18 * 10 ^ k := by rwa [← pow_add, Nat.add_comm 18, ← hk]
    rw [shortestFrom, h.ratio_eq]
    dsimp only
    rw [significant_eq h.pos, hrounded, he]
    refine fits_placed hlow hc hle (roundDiv_le _ hdigits) fun hlt htwenty hcarry => ?_
    obtain rfl : k = 3 := by omega
    rw [htwenty] at hlow
    have hunit := h.unit_spec hlt hlow
    have hnear := (roundDiv_near .up n (10 ^ 3) (by norm_num)).2
    rw [hcarry] at hnear
    omega
  | succ more ih =>
    intro count hsum hc hle
    obtain ⟨k, hk⟩ := Nat.exists_eq_add_of_le' hle
    have hshift : (count : ℤ) - 1 - exponent = -(k : ℤ) := by omega
    have hdigits : n < 10 ^ count * 10 ^ k := by rwa [← pow_add, Nat.add_comm count, ← hk]
    obtain ⟨near, other, hnear, hother, hexact, hreads⟩ := h.readsBackWith?_spec hshift hdigits
    -- a candidate that reads back is no further than half a unit from the number
    have hcarry : ∀ candidate,
        (reach significand power).contains 1 (candidate * 10 ^ k) 1 = true →
          n < 10 ^ 21 → exponent = 20 → candidate ≠ 10 ^ count := by
      rintro candidate hreaches hlt htwenty rfl
      have hle := h.contains_spec.1 _ hreaches
      rw [← pow_add, Nat.add_comm count, ← hk, htwenty] at hle
      rw [htwenty] at hlow
      have hunit := h.unit_spec hlt hlow
      omega
    rw [shortestFrom, hreads]
    split_ifs with hfirst hsecond
    · exact fits_placed hlow hc hle hnear (hcarry near hfirst)
    · exact fits_placed hlow hc hle hother (hcarry other hsecond)
    · refine ih (count + 1) (by omega) (Nat.succ_pos _) ?_
      have hpos : k ≠ 0 := by
        rintro rfl
        rw [hexact rfl, Nat.pow_zero, Nat.mul_one] at hfirst
        exact hfirst h.contains_spec.2
      omega

/-- The text of the shortest decimal of a natural is made of digits exactly below 10^21. -/
theorem digits_text_iff (h : IsWhole significand power n) :
    (shortest significand power).text ≠ [] ∧ Digits (shortest significand power).text ↔
      n < 10 ^ 21 := by
  obtain ⟨exponent, hexponent, hlow, hhigh⟩ := exists_magnitude h.pos
  constructor
  · rintro ⟨-, hdigits⟩
    by_contra hlarge
    have hratio : 0 < (Double.ratio significand power).1 := by
      rw [h.ratio_eq]
      exact h.pos
    have hpoint := shortest_point hratio
    rw [h.ratio_eq, hexponent] at hpoint
    have hmore := (Nat.pow_lt_pow_iff_right (by norm_num)).mp
      (Nat.lt_of_le_of_lt (not_lt.mp hlarge) hhigh)
    obtain ⟨mantissa, v, htext, -⟩ :=
      exists_text (show 21 < (shortest significand power).point by omega)
    rw [htext] at hdigits
    exact hdigits.not_mem (u := 0x65) (by decide)
      (List.mem_append_right _ List.mem_cons_self)
  · intro hlt
    have hfits := h.fits_shortestFrom hexponent hlow hhigh 17 1 rfl Nat.one_pos
      (Nat.succ_le_succ (Nat.zero_le _))
    have hshortest : shortest significand power =
        shortestFrom significand power exponent 1 17 := by
      rw [shortest, h.ratio_eq]
      dsimp only
      rw [hexponent]
    rw [← hshortest] at hfits
    rw [text, if_pos ⟨hfits.1, hfits.2 hlt⟩]
    exact ⟨List.append_ne_nil_of_left_ne_nil (decimal_ne_nil _) _,
      digits_append.mpr ⟨digits_decimal _, digits_fill _⟩⟩

end IsWhole

end Decimal

namespace Double

variable {x : Double} {n : ℕ}

theorem toInt?_of_toNat? (h : x.toNat? = some n) : x.toInt? = some (n : ℤ) := by
  unfold toNat? at h
  split at h
  · rename_i k hint
    split_ifs at h with hpos
    cases h
    rw [hint, Int.toNat_of_nonneg hpos]
  · cases h

/-- The parts of a number that is an integer. -/
theorem exists_form_of_toInt? {k : ℤ} (h : x.toInt? = some k) :
    ∃ negative significand power, x.form = .finite negative significand power ∧
      (ratio significand power).1 = k.natAbs * (ratio significand power).2 ∧
      (negative = true → k ≤ 0) := by
  unfold toInt? at h
  split at h
  · rename_i negative significand power hform
    refine ⟨negative, significand, power, hform, ?_⟩
    dsimp only at h
    split_ifs at h with hwhole hnegative
    all_goals
      obtain rfl := Option.some.inj h
      have hdvd := Nat.div_mul_cancel (Nat.dvd_of_mod_eq_zero hwhole)
    · rw [Int.natAbs_neg, Int.natAbs_natCast, hdvd]
      exact ⟨rfl, fun _ => Int.neg_nonpos_of_nonneg (Int.natCast_nonneg _)⟩
    · rw [Int.natAbs_natCast, hdvd]
      exact ⟨rfl, fun hsign => absurd hsign hnegative⟩
  · cases h

/-- A natural beyond the safe ones is whole by its parts. -/
theorem exists_isWhole (h : x.toNat? = some n) (hn : maxSafe < n) :
    ∃ significand power, x.form = .finite false significand power ∧
      Decimal.IsWhole significand power n := by
  obtain ⟨negative, significand, power, hform, hratio, hsign⟩ :=
    exists_form_of_toInt? (toInt?_of_toNat? h)
  change 2 ^ 53 ≤ n at hn
  have hhigh := significand_lt hform
  have hpositive : negative = false := by
    rw [← Bool.not_eq_true]
    intro hnegative
    have := hsign hnegative
    omega
  rw [Int.natAbs_natCast, ratio] at hratio
  split_ifs at hratio with hpower
  · obtain ⟨-, ⟨-, -, hzero⟩ | ⟨-, -, hlow⟩⟩ := fields_of_form hform
    · omega
    · rw [hpositive] at hform
      rw [Nat.mul_one] at hratio
      exact ⟨significand, power, hform, by omega, hhigh, hpower, hratio.symm⟩
  · -- with places behind the point the number is no larger than its significand
    have hle := Nat.le_mul_of_pos_right n (Nat.two_pow_pos (1074 - power))
    change significand = n * 2 ^ (1074 - power) at hratio
    omega

/-- The text of a natural beyond the safe ones is made of digits exactly below 10^21. -/
theorem digits_text_iff (h : x.toNat? = some n) (hn : maxSafe < n) :
    x.text ≠ [] ∧ Digits x.text ↔ n < 10 ^ 21 := by
  obtain ⟨significand, power, hform, hwhole⟩ := exists_isWhole h hn
  have hne : significand ≠ 0 := by
    have := hwhole.low
    omega
  rw [text, hform]
  dsimp only
  rw [if_neg hne, if_neg Bool.false_ne_true, List.nil_append]
  exact hwhole.digits_text_iff

end Double

end TextUnits
