import TextUnits.Proofs.Format.Notation
import TextUnits.Proofs.Number.Magnitude

/-!
# The shorter notation against the exponent notation

A finite number is written in the shorter notation and, with as many digits, in exponent notation.
Both texts write a number. Below 10^21 and wherever the shorter notation has an exponent these are
the same. From 10^21 on the fixed notation is the shortest text, which has an exponent of its own:
its digits need not be those of the number, and zeros at the end of its exponent are left out.
-/

namespace TextUnits.Format

open Numeral

/-- The number that body and tail of a field write. -/
def Field.number? (f : Field) : Option ℚ := numberOf? (f.body ++ f.tail)

/-- The style of the exponent notation with as many digits as the shorter one has. -/
def FloatStyle.exponential (s : FloatStyle) : FloatStyle :=
  { s with precision := some (significantDigits s - 1) }

variable {x : Double} {s : FloatStyle} {negative : Bool} {significand power : ℕ}

theorem significantDigits_bounds (s : FloatStyle) :
    0 < significantDigits s ∧ significantDigits s ≤ 100 := by
  have hexact : exactPlaces = 100 := rfl
  unfold significantDigits
  omega

theorem magnitudeOf_eq (hx : x.form = .finite negative significand power) :
    magnitudeOf x = Double.ratio significand power := by
  rw [magnitudeOf, hx]

theorem wordField?_eq_none (hx : x.form = .finite negative significand power) (flags : Flags) :
    wordField? x flags = none := by
  rw [wordField?, hx]

/-- A mantissa writes the digits with all but the first behind the point. -/
theorem pointed_mantissa (x : Double) (places : ℕ) :
    Pointed (scientific x places).mantissa
      ((Decimal.significant (magnitudeOf x).1 (magnitudeOf x).2 (places + 1)).digits / 10 ^ places) :=
  pointed_decimal _ _ _

/-- A mantissa and its exponent write the amount of the digits. -/
theorem number?_scientific {text : Text} {places count : ℕ} (hc : places + 1 = count)
    (h : Pointed text
      ((Decimal.significant (magnitudeOf x).1 (magnitudeOf x).2 count).digits / 10 ^ places))
    (lead : Text) (upper : Bool) (least : ℕ) :
    (Field.mk lead text (exponentTail (if upper then 'E' else 'e')
      (scientific x places).exponent least)).number? =
      some ((Decimal.significant (magnitudeOf x).1 (magnitudeOf x).2 count).amount count) := by
  subst hc
  have hamount : ∀ (digits : ℚ) (point : ℤ),
      digits / 10 ^ places * 10 ^ (point - 1) = digits * 10 ^ (point - (places + 1 : ℕ)) := by
    intro digits point
    have hexponent : point - ((places + 1 : ℕ) : ℤ) = point - 1 - places := by
      push_cast
      ring
    rw [hexponent, zpow_sub₀ (by norm_num) (point - 1), zpow_natCast]
    ring
  rw [Field.number?, numberOf?_exponentTail h]
  exact congrArg some (hamount _ _)

/-- The exponent notation writes the amount of its digits. -/
theorem number?_exponentField (hx : x.form = .finite negative significand power)
    (hg : s.flags.group = false) (hd : s.separators.decimal = [0x2E])
    (hp : s.places ≤ exactPlaces) :
    (exponentField x s).number? =
      some ((Decimal.significant (magnitudeOf x).1 (magnitudeOf x).2 (s.places + 1)).amount
        (s.places + 1)) := by
  have hpointed := pointed_mantissa x s.places
  rw [exponentField, wordField?_eq_none hx]
  dsimp only
  rw [localized_eq hg hd, Nat.min_eq_left hp, Nat.sub_self]
  refine number?_scientific rfl ?_ _ _ _
  rwa [zeros, Text.fill, List.replicate_zero, List.append_nil]

/-- The shorter notation writes the amount of its digits where it has an exponent. -/
theorem number?_generalField_exponent (hx : x.form = .finite negative significand power)
    (hg : s.flags.group = false) (hd : s.separators.decimal = [0x2E])
    (he : (scientific x (significantDigits s - 1)).exponent < -4 ∨
      (significantDigits s : ℤ) ≤ (scientific x (significantDigits s - 1)).exponent) :
    (generalField x s).number? =
      some ((Decimal.significant (magnitudeOf x).1 (magnitudeOf x).2
        (significantDigits s)).amount (significantDigits s)) := by
  obtain ⟨hpositive, -⟩ := significantDigits_bounds s
  have hcount : significantDigits s - 1 + 1 = significantDigits s := Nat.sub_add_cancel hpositive
  have hpointed := pointed_trimZeros (pointed_mantissa x (significantDigits s - 1))
  rw [hcount] at hpointed
  rw [generalField, wordField?_eq_none hx]
  dsimp only
  rw [if_pos he, localized_eq hg hd]
  exact number?_scientific hcount hpointed _ _ _

/-- The shorter notation is the fixed one, without the zeros at its end, where it has no exponent. -/
theorem number?_generalField_fixed (hx : x.form = .finite negative significand power)
    (hg : s.flags.group = false) (hd : s.separators.decimal = [0x2E])
    (he : ¬ ((scientific x (significantDigits s - 1)).exponent < -4 ∨
      (significantDigits s : ℤ) ≤ (scientific x (significantDigits s - 1)).exponent)) :
    (generalField x s).number? =
      numberOf? (trimZeros (fixedText x (min ((significantDigits s : ℤ) - 1 -
        (scientific x (significantDigits s - 1)).exponent).toNat exactPlaces))) := by
  rw [generalField, wordField?_eq_none hx]
  dsimp only
  rw [if_neg he, localized_eq hg hd, Field.number?, List.append_nil]

/-- Fraction digits that reach as far as the significant ones give the same amount. So do a hundred
of them where more would be needed: they reach to the last digit of the number. -/
theorem fixed_eq_amount {num den count : ℕ} {exponent : ℤ} (hd : 0 < den)
    (hdvd : den ≤ num * 10 ^ 5 → den ∣ 10 ^ exactPlaces) (hc : 0 < count) (hc' : count ≤ exactPlaces)
    (hp : (Decimal.significant num den count).point - 1 = exponent)
    (he : ¬ (exponent < -4 ∨ (count : ℤ) ≤ exponent)) :
    (Decimal.fixed num den (min ((count : ℤ) - 1 - exponent).toNat exactPlaces) : ℚ) /
        10 ^ min ((count : ℤ) - 1 - exponent).toNat exactPlaces =
      (Decimal.significant num den count).amount count := by
  obtain ⟨places, hplaces⟩ := Int.eq_ofNat_of_zero_le (show 0 ≤ (count : ℤ) - 1 - exponent by omega)
  rw [hplaces, Int.toNat_natCast]
  by_cases hfew : places ≤ exactPlaces
  · have hexponent : (Decimal.significant num den count).point - (count : ℤ) = -(places : ℤ) := by
      omega
    rw [Nat.min_eq_left hfew, Decimal.amount, hexponent, zpow_neg, zpow_natCast, ← div_eq_mul_inv,
      Decimal.fixed_eq_significant hd hc (by omega)]
  · have hnum : 0 < num := by
      refine Nat.pos_of_ne_zero fun hzero => ?_
      rw [hzero, Decimal.significant, if_pos rfl] at hp
      dsimp only at hp
      omega
    have hmagnitude : -5 ≤ Decimal.magnitude num den := by
      have hpoint := Decimal.significant_point hnum den count
      omega
    have hreaches : den ≤ num * 10 ^ 5 := by
      have hle := (zpow_le_zpow_right₀ (by norm_num : (1 : ℚ) ≤ 10) hmagnitude).trans
        (Decimal.magnitude_spec hnum hd).1
      rw [le_div_iff₀ (by exact_mod_cast hd), zpow_neg, ← div_eq_inv_mul,
        div_le_iff₀ (by positivity)] at hle
      exact_mod_cast hle
    rw [Nat.min_eq_right (by omega), Decimal.fixed_of_dvd hd (hdvd hreaches),
      Decimal.amount_of_dvd hnum hd hc (hdvd hreaches) (by omega)]

/-- Below 10^21 the text in fixed notation is of the digits that are fixed. -/
theorem numberOf?_fixedText (hlimit : (magnitudeOf x).1 < fixedLimit * (magnitudeOf x).2)
    (places : ℕ) :
    numberOf? (trimZeros (fixedText x places)) =
      some ((Decimal.fixed (magnitudeOf x).1 (magnitudeOf x).2 places : ℚ) / 10 ^ places) := by
  have hpointed := pointed_pointed
    (digits_decimal (Decimal.fixed (magnitudeOf x).1 (magnitudeOf x).2 places))
    (decimal_ne_nil _) places
  rw [read_decimal] at hpointed
  rw [fixedText]
  dsimp only
  rw [if_pos hlimit]
  exact (pointed_trimZeros hpointed).numberOf?_eq

/-- A number of 10^21 or more has at least 22 digits in front of its point. -/
theorem magnitude_of_large {num den : ℕ} (hd : 0 < den) (h : fixedLimit * den ≤ num) :
    0 < num ∧ 21 ≤ Decimal.magnitude num den := by
  have hn : 0 < num := Nat.lt_of_lt_of_le (Nat.mul_pos (by decide) hd) h
  refine ⟨hn, ?_⟩
  have hlow : (10 : ℚ) ^ (21 : ℤ) ≤ num / den := by
    rw [le_div_iff₀ (by exact_mod_cast hd)]
    exact_mod_cast h
  have hlt := (zpow_lt_zpow_iff_right₀ (by norm_num : (1 : ℚ) < 10)).mp
    (hlow.trans_lt (Decimal.magnitude_spec hn hd).2)
  omega

/-- The shortest text of a number of 10^21 or more, trimmed like a fraction. If this leaves anything
out, the exponent loses its last digits and the text writes less than the number. -/
theorem exists_numberOf?_text (hx : x.form = .finite negative significand power)
    (h : fixedLimit * (magnitudeOf x).2 ≤ (magnitudeOf x).1) :
    ∃ a, numberOf? (trimZeros x.abs.text) = some a ∧
      (trimZeros x.abs.text = x.abs.text ∨ a < (magnitudeOf x).1 / (magnitudeOf x).2) := by
  rw [magnitudeOf_eq hx] at h ⊢
  have hden := Double.ratio_den_pos significand power
  obtain ⟨hnum, hmagnitude⟩ := magnitude_of_large hden h
  have hpoint := Decimal.shortest_point hnum
  obtain ⟨mantissa, v, htext, hpointed, hten⟩ :=
    Decimal.exists_text (show 21 < (Decimal.shortest significand power).point by omega)
  obtain ⟨exponent, hexponent⟩ := Int.eq_ofNat_of_zero_le
    (show 0 ≤ (Decimal.shortest significand power).point - 1 by omega)
  rw [hexponent, Int.natAbs_natCast] at htext
  obtain ⟨hne, hstrip⟩ := stripZeros_decimal (show 0 < exponent by omega)
  rw [Double.text_abs hx hnum, htext, trimZeros_exponent mantissa (digits_decimal exponent) hne]
  by_cases hmark : 0x2E ∈ mantissa
  · rw [if_pos hmark]
    refine ⟨_, numberOf?_plus hpointed (digits_stripZeros (digits_decimal exponent)) hne, ?_⟩
    rcases hstrip with hkept | hshort
    · left
      rw [hkept]
    · right
      calc v * 10 ^ read (stripZeros (decimal exponent))
          < 10 * 10 ^ read (stripZeros (decimal exponent)) := by gcongr
        _ = 10 ^ ((read (stripZeros (decimal exponent)) + 1 : ℕ) : ℤ) := by
            rw [zpow_natCast, pow_succ']
        _ ≤ 10 ^ Decimal.magnitude (Double.ratio significand power).1
              (Double.ratio significand power).2 :=
            zpow_le_zpow_right₀ (by norm_num) (by omega)
        _ ≤ _ := (Decimal.magnitude_spec hnum hden).1
  · rw [if_neg hmark]
    exact ⟨_, numberOf?_plus hpointed (digits_decimal exponent) (decimal_ne_nil exponent), .inl rfl⟩

/-- The power of ten of a mantissa is one less than the point of its digits. -/
theorem point_significant (x : Double) {count : ℕ} (hc : 0 < count) :
    (Decimal.significant (magnitudeOf x).1 (magnitudeOf x).2 count).point - 1 =
      (scientific x (count - 1)).exponent := by
  conv_lhs => rw [← Nat.sub_add_cancel hc]
  rfl

/-- From 10^21 on the digits are exact if they reach to the last one in front of the point: such a
number is whole. -/
theorem amount_of_large (hx : x.form = .finite negative significand power) {count : ℕ}
    (h : fixedLimit * (magnitudeOf x).2 ≤ (magnitudeOf x).1) (hc : 0 < count)
    (he : (scientific x (count - 1)).exponent < count) :
    (Decimal.significant (magnitudeOf x).1 (magnitudeOf x).2 count).amount count =
      (magnitudeOf x).1 / (magnitudeOf x).2 := by
  have hpoint := point_significant x hc
  rw [magnitudeOf_eq hx] at h hpoint ⊢
  have hden := Double.ratio_den_pos significand power
  have hwhole : (Double.ratio significand power).2 ∣ 10 ^ 0 := by
    rw [Double.ratio_den_of_large (Double.significand_lt hx) h]
    exact one_dvd _
  exact Decimal.amount_of_dvd (magnitude_of_large hden h).1 hden hc hwhole (by omega)

/-- Body and tail of a finite number in the shorter notation write a number, and so do those in
exponent notation with as many significant digits. The two are the same unless the number is of
10^21 or more and the shorter notation is the fixed one. There they are the same exactly if the
shortest text, which stands in for the fixed notation, writes the number itself and has no zeros at
its end that are taken for a fraction. -/
theorem generalField_number (hx : x.isFinite = true) (hg : s.flags.group = false)
    (hd : s.separators.decimal = [0x2E]) :
    ∃ a b, (generalField x s).number? = some a ∧
      (exponentField x s.exponential).number? = some b ∧
      (a = b ↔ (fixedLimit * (magnitudeOf x).2 ≤ (magnitudeOf x).1 →
        (scientific x (significantDigits s - 1)).exponent < significantDigits s →
        trimZeros x.abs.text = x.abs.text ∧
          numberOf? x.abs.text = some ((magnitudeOf x).1 / (magnitudeOf x).2 : ℚ))) := by
  obtain ⟨negative, significand, power, hform⟩ := Double.exists_form hx
  obtain ⟨hpositive, hmost⟩ := significantDigits_bounds s
  have hden : 0 < (magnitudeOf x).2 := by
    rw [magnitudeOf_eq hform]
    exact Double.ratio_den_pos _ _
  have hpoint := point_significant x hpositive
  have hexponential : s.exponential.places + 1 = significantDigits s := Nat.sub_add_cancel hpositive
  have hb := number?_exponentField (s := s.exponential) hform hg hd (by
    have hexact : exactPlaces = 100 := rfl
    omega)
  rw [hexponential] at hb
  by_cases he : (scientific x (significantDigits s - 1)).exponent < -4 ∨
      (significantDigits s : ℤ) ≤ (scientific x (significantDigits s - 1)).exponent
  · refine ⟨_, _, number?_generalField_exponent hform hg hd he, hb, iff_of_true rfl ?_⟩
    intro hlarge hfixed
    obtain ⟨hnum, hmagnitude⟩ := magnitude_of_large hden hlarge
    have hplace := Decimal.significant_point hnum (magnitudeOf x).2 (significantDigits s)
    omega
  have ha := number?_generalField_fixed hform hg hd he
  by_cases hlimit : (magnitudeOf x).1 < fixedLimit * (magnitudeOf x).2
  · rw [numberOf?_fixedText hlimit] at ha
    refine ⟨_, _, ha, hb, iff_of_true ?_ fun hlarge => absurd hlimit (not_lt.mpr hlarge)⟩
    refine fixed_eq_amount hden ?_ hpositive hmost hpoint he
    rw [magnitudeOf_eq hform]
    exact Double.ratio_den_dvd (Double.significand_lt hform)
  · have hlarge := not_lt.mp hlimit
    have hfixed := not_le.mp (not_or.mp he).2
    rw [amount_of_large hform hlarge hpositive hfixed] at hb
    obtain ⟨a, htrim, hcases⟩ := exists_numberOf?_text hform hlarge
    rw [fixedText] at ha
    dsimp only at ha
    rw [if_neg hlimit, htrim] at ha
    refine ⟨a, _, ha, hb, ?_⟩
    constructor
    · rintro rfl - -
      rcases hcases with hkept | hless
      · rw [hkept] at htrim
        exact ⟨hkept, htrim⟩
      · exact absurd hless (lt_irrefl _)
    · intro hexact
      obtain ⟨hkept, hnumber⟩ := hexact hlarge hfixed
      rw [hkept, hnumber] at htrim
      exact (Option.some.inj htrim).symm

/-- A number just below 10^-4 that six digits round up to it: `0.0001` and `1.00000e-04`. -/
theorem generalField_number_carry :
    (Double.mk 0x3F1A36E2D51EC34B).isFinite = true ∧
      (scientific ⟨0x3F1A36E2D51EC34B⟩ 5).exponent = -4 ∧
      ∃ a, (generalField ⟨0x3F1A36E2D51EC34B⟩
          ⟨Flags.none, none, false, Separators.default⟩).number? = some a ∧
        (exponentField ⟨0x3F1A36E2D51EC34B⟩ (FloatStyle.exponential
          ⟨Flags.none, none, false, Separators.default⟩)).number? = some a := by
  refine ⟨by decide, by decide +kernel, ?_⟩
  obtain ⟨a, b, ha, hb, hsame⟩ := generalField_number (x := ⟨0x3F1A36E2D51EC34B⟩)
    (s := ⟨Flags.none, none, false, Separators.default⟩) (by decide) rfl (by decide)
  have hsmall : ¬ fixedLimit * (magnitudeOf ⟨0x3F1A36E2D51EC34B⟩).2 ≤
      (magnitudeOf ⟨0x3F1A36E2D51EC34B⟩).1 := by decide +kernel
  obtain rfl := hsame.mpr fun hlarge => absurd hlarge hsmall
  exact ⟨a, ha, hb⟩

/-- At 1.5 * 10^30 with forty digits the shorter notation is `1.5e+3`: the shortest text is taken for
a fixed one and loses the zero at the end of its exponent. -/
theorem number?_ne_trimmed_exponent :
    (Double.mk 0x4632EEC2EB3869AF).isFinite = true ∧
      (generalField ⟨0x4632EEC2EB3869AF⟩
        ⟨Flags.none, some 40, false, Separators.default⟩).number? = some 1500 ∧
      (exponentField ⟨0x4632EEC2EB3869AF⟩ (FloatStyle.exponential
        ⟨Flags.none, some 40, false, Separators.default⟩)).number? =
        some 1499999999999999889089448902656 := by
  refine ⟨by decide, by decide +kernel, by decide +kernel⟩

end TextUnits.Format
