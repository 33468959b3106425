import TextUnits.Proofs.Format.Fixed
import TextUnits.Proofs.Number.Quotients
import Mathlib.Logic.Function.Iterate

/-!
# Scaled numbers

A number is divided until it is below the divisor, four times at most, and then written in fixed
notation with a suffix for the divisions. How often it is divided is settled before it is rounded to
its places. So what is written in front of a suffix that is not the last one can reach the divisor:
it does so for a number that is half of its last place or less below it.
-/

namespace TextUnits.Format

open Numeral

/-- A number that is divided by a natural so often. -/
def divided (divisor : ℕ) (x : Double) (steps : ℕ) : Double :=
  (fun y => y.divNat divisor)^[steps] x

/-- The divisions that a number needs to come below its divisor, as far as they are allowed. -/
structure IsScaled (divisor : ℕ) (x : Double) (most steps : ℕ) : Prop where
  /-- No more are made than allowed. -/
  le_most : steps ≤ most
  /-- A number that is divided is not below the divisor. -/
  reached : ∀ k < steps, divisor ≤ (divided divisor x k).amount
  /-- A number that is not divided although it might be is below it. -/
  below : steps < most → (divided divisor x steps).amount < divisor

variable {x : Double} {s : FloatStyle} {negative : Bool} {significand power divisor : ℕ}
  {flags : Flags} {d : Directive} {r : Resolved} {n : ℤ}

/-- A finite number stays finite when it is divided again and again. -/
theorem exists_form_divided (hd : 2 ≤ divisor) (hx : x.form = .finite negative significand power)
    (steps : ℕ) : ∃ significand power, (divided divisor x steps).form =
      .finite negative significand power := by
  induction steps generalizing x significand power with
  | zero => exact ⟨_, _, hx⟩
  | succ steps ih =>
    obtain ⟨_, _, hnext⟩ := Double.exists_form_divNat hx hd
    exact ih hnext

/-- Scaling divides as often as needed. -/
theorem exists_isScaled (hd : 2 ≤ divisor) (hx : x.form = .finite false significand power)
    (most : ℕ) : ∃ steps, scaleDown divisor x most = (divided divisor x steps, steps) ∧
      IsScaled divisor x most steps := by
  induction most generalizing x significand power with
  | zero => exact ⟨0, rfl, le_rfl, fun k hk => absurd hk (Nat.not_lt_zero k), nofun⟩
  | succ most ih =>
    have hbelow := Double.below_iff hx divisor
    by_cases hless : x.below divisor = true
    · refine ⟨0, ?_, Nat.zero_le _, fun k hk => absurd hk (Nat.not_lt_zero k), fun _ => ?_⟩
      · rw [scaleDown, if_pos hless]
        rfl
      · exact hbelow.mp hless
    · obtain ⟨_, _, hnext⟩ := Double.exists_form_divNat hx hd
      obtain ⟨steps, hsteps, hscaled⟩ := ih hnext
      refine ⟨steps + 1, ?_, Nat.succ_le_succ hscaled.le_most, ?_, fun hmore => ?_⟩
      · rw [scaleDown, if_neg hless, hsteps]
        rfl
      · intro k hk
        cases k with
        | zero => exact not_lt.mp (mt hbelow.mpr hless)
        | succ k => exact hscaled.reached k (Nat.lt_of_succ_lt_succ hk)
      · exact hscaled.below (Nat.lt_of_succ_lt_succ hmore)

theorem lt_metricDivisor (flags : Flags) : 512 < metricDivisor flags := by
  unfold metricDivisor
  split_ifs <;> decide

/-- After all divisions the suffix has the last letter. -/
theorem mem_metricTail (h : 0 < flags.metric) : 0x54 ∈ metricTail flags metricSteps := by
  have hlast : ((metricLetters flags).drop (metricSteps - 1)).take 1 = [0x54] := by
    unfold metricLetters
    split_ifs <;> decide
  have hsteps : metricSteps ≠ 0 := by decide
  rw [metricTail, if_neg h.ne', if_neg hsteps, hlast]
  exact List.mem_append_right _ (List.mem_append_left _ List.mem_cons_self)

/-- A number below a natural that is greater than 512 stays 2^-43 below it. -/
theorem amount_le_of_lt (hx : x.form = .finite negative significand power) {bound : ℕ}
    (hb : 512 < bound) (h : x.amount < bound) : x.amount ≤ bound - 1 / 2 ^ 43 := by
  rw [Double.amount_eq hx] at h ⊢
  by_cases hcoarse : 1031 ≤ power
  · obtain ⟨more, rfl⟩ := Nat.exists_eq_add_of_le hcoarse
    have hunits : (significand : ℚ) * 2 ^ (((1031 + more : ℕ) : ℤ) - 1074) =
        (significand * 2 ^ more : ℕ) / 2 ^ 43 := by
      have hexponent : ((1031 + more : ℕ) : ℤ) - 1074 = more - (43 : ℕ) := by
        push_cast
        ring
      rw [hexponent, zpow_sub₀ (by norm_num), zpow_natCast, zpow_natCast]
      push_cast
      ring
    rw [hunits, div_lt_iff₀ (by positivity)] at h
    have hnext : significand * 2 ^ more + 1 ≤ bound * 2 ^ 43 := by exact_mod_cast h
    have hcast : ((significand * 2 ^ more : ℕ) : ℚ) + 1 ≤ bound * 2 ^ 43 := by
      exact_mod_cast hnext
    rw [hunits, le_sub_iff_add_le, ← add_div, div_le_iff₀ (by positivity)]
    exact hcast
  · have hsignificand : (significand : ℚ) ≤ 2 ^ 53 := by
      exact_mod_cast (Double.significand_lt hx).le
    have hpower : (2 : ℚ) ^ ((power : ℤ) - 1074) ≤ 2 ^ (-44 : ℤ) :=
      zpow_le_zpow_right₀ (by norm_num) (by omega)
    have hbound : (513 : ℚ) ≤ bound := by exact_mod_cast hb
    calc (significand : ℚ) * 2 ^ ((power : ℤ) - 1074) ≤ 2 ^ 53 * 2 ^ (-44 : ℤ) := by gcongr
      _ = 512 := by norm_num
      _ ≤ 513 - 1 / 2 ^ 43 := by norm_num
      _ ≤ bound - 1 / 2 ^ 43 := by gcongr

/-- With 13 places or more half of the last place is less than that. -/
theorem half_place_lt {places : ℕ} (hp : 13 ≤ places) :
    (1 : ℚ) / 2 * (1 / 10 ^ min places 100) < 1 / 2 ^ 43 := by
  have hplaces : (10 : ℚ) ^ 13 ≤ 10 ^ min places 100 :=
    pow_le_pow_right₀ (by norm_num) (by omega)
  calc (1 : ℚ) / 2 * (1 / 10 ^ min places 100) ≤ 1 / 2 * (1 / 10 ^ 13) := by gcongr
    _ < 1 / 2 ^ 43 := by norm_num

/-- What is written of a finite number that is scaled. In front of a suffix that is not the last one
it is below the divisor exactly if the scaled number is more than half of its last place below it,
and so always with 13 places or more. -/
theorem exists_scaledField (hx : x.form = .finite negative significand power)
    (hm : 0 < s.flags.metric) :
    ∃ steps body mantissa, fixedField x s =
        ⟨signOf x.isNegative s.flags, body, metricTail s.flags steps⟩ ∧
      IsScaled (metricDivisor s.flags) x.abs 4 steps ∧
      IsFixed s.flags.group s.separators s.places mantissa body ∧
      Nearest (1 / 10 ^ min s.places 100) (divided (metricDivisor s.flags) x.abs steps).amount
        mantissa ∧
      (0x54 ∉ metricTail s.flags steps →
        (mantissa < metricDivisor s.flags ↔ (divided (metricDivisor s.flags) x.abs steps).amount <
          metricDivisor s.flags - 1 / 2 * (1 / 10 ^ min s.places 100)) ∧
        (13 ≤ s.places → mantissa < metricDivisor s.flags)) := by
  have hlow := lt_metricDivisor s.flags
  have hdivisor : 2 ≤ metricDivisor s.flags := by omega
  have habs := Double.form_abs hx
  obtain ⟨steps, hsteps, hscaled⟩ := exists_isScaled hdivisor habs 4
  obtain ⟨_, _, hform⟩ := exists_form_divided hdivisor habs steps
  have hnearest := nearest_fixedUnits hform (min s.places 100)
  refine ⟨steps, _, _, ?_, hscaled, isFixed_fixedDigits hform s, hnearest, fun hlast => ?_⟩
  · have hscale : scaleMetric x.abs s.flags =
        (divided (metricDivisor s.flags) x.abs steps, steps) := by
      rw [scaleMetric, if_neg hm.ne']
      exact hsteps
    rw [fixedField, wordField?_eq_none hx]
    dsimp only
    rw [hscale]
  · have hbelow := hscaled.below (lt_of_le_of_ne hscaled.le_most fun hall => by
      rw [hall] at hlast
      exact hlast (mem_metricTail hm))
    have hmultiple : ∃ k : ℤ,
        (metricDivisor s.flags : ℚ) = k * (1 / 10 ^ min s.places 100) := by
      refine ⟨metricDivisor s.flags * 10 ^ min s.places 100, ?_⟩
      push_cast
      field_simp
    have hiff := hnearest.lt_iff (by positivity) hmultiple
    have hhalf : (1 : ℚ) / 10 ^ min s.places 100 / 2 =
        1 / 2 * (1 / 10 ^ min s.places 100) := by
      ring
    rw [hhalf] at hiff
    refine ⟨hiff, fun hmany => hiff.mpr ?_⟩
    calc (divided (metricDivisor s.flags) x.abs steps).amount
        ≤ metricDivisor s.flags - 1 / 2 ^ 43 := amount_le_of_lt hform hlow hbelow
      _ < metricDivisor s.flags - 1 / 2 * (1 / 10 ^ min s.places 100) :=
          sub_lt_sub_left (half_place_lt hmany) _

/-- The letters that write decimal integers, and whether they have a sign. -/
def decimalLetters : List (Char × Bool) := [('d', true), ('i', true), ('u', false)]

/-- An integer that is reduced to 64 bits or fewer is made a finite number with its sign. -/
theorem exists_form_of_reduces {wide signed : Bool} {value : ℤ}
    (h : Reduces (bitsOf wide) signed n value) :
    ∃ significand power, (Double.ofInt value).form =
      .finite (value < 0) significand power := by
  have hpower : (2 : ℤ) ^ (bitsOf wide - 1) ≤ 2 ^ 64 ∧ (2 : ℤ) ^ bitsOf wide ≤ 2 ^ 64 := by
    cases wide <;> decide
  have hleast := h.least
  have hmost := h.most
  have hbound : 65 ≤ 1023 := by norm_num
  refine Double.exists_form_ofInt hbound ?_
  split_ifs at hleast hmost <;> omega

/-- The field of a decimal integer that is scaled, as that of a number. -/
theorem valuePiece_scaled {c : Char} {signed : Bool} (hletter : (c, signed) ∈ decimalLetters)
    (hmetric : 0 < r.flags.metric) {a : Argument} (ha : a.CutTo n) (separators : Separators) :
    conversionOf (Text.unit c) ≠ .literal ∧
      valuePiece (conversionOf (Text.unit c)) (Text.unit c) r separators a = .ok (.text
        ((fixedField (Double.ofInt (wrap (bitsOf r.wide) signed n)) ⟨r.flags,
          some (scaledPrecision (wrap (bitsOf r.wide) signed n) r.precision), false,
          separators⟩).layout r.width r.flags)) := by
  have hall : ∀ letter ∈ decimalLetters, conversionOf (Text.unit letter.1) = .decimal letter.2 := by
    decide
  have hconversion : conversionOf (Text.unit c) = .decimal signed := hall _ hletter
  rw [hconversion]
  refine ⟨by simp, ?_⟩
  dsimp only [valuePiece, fieldOf]
  rw [ha.integerOf_eq]
  simp only [bind, Except.bind, integerField, if_pos hmetric]
  rfl

/-- A decimal integer, reduced to 32 bits or to 64 for a wide directive, is scaled for its `$` flags
and written with a suffix. What stands in front of the suffix is the scaled number, rounded to its
places. Unless the suffix is the last one, it is below the divisor exactly if the scaled number is
more than half of the last place below it. With 13 places or more it always is. -/
theorem pieceOf_scaled {c : Char} {signed : Bool} (hletter : (c, signed) ∈ decimalLetters)
    (hmetric : 0 < d.flags.metric) {supply : Supply} {taken : ℕ} {a : Argument}
    {more : List Argument} (hresolve : resolve d supply = .ok (r, ⟨taken, a :: more⟩))
    (ha : a.CutTo n) (separators : Separators) :
    ∃ value steps body mantissa field, Reduces (if d.wide then 64 else 32) signed n value ∧
      field = Field.layout ⟨signOf (value < 0) r.flags, body, metricTail d.flags steps⟩ r.width
        r.flags ∧
      (∀ position, pieceOf d (Text.unit c) separators position supply =
        .ok (.text field, ⟨taken + 1, more⟩)) ∧
      (∀ t args, Directive.parse t = (d, []) → d.conversion = some (Text.unit c) →
        supply = ⟨0, args⟩ → format separators (0x25 :: t) args = .ok field) ∧
      IsScaled (metricDivisor d.flags) (Double.ofInt value).abs 4 steps ∧
      IsFixed d.flags.group separators (scaledPrecision value r.precision) mantissa body ∧
      Nearest (1 / 10 ^ min (scaledPrecision value r.precision) 100)
        (divided (metricDivisor d.flags) (Double.ofInt value).abs steps).amount mantissa ∧
      (0x54 ∉ metricTail d.flags steps →
        (mantissa < metricDivisor d.flags ↔
          (divided (metricDivisor d.flags) (Double.ofInt value).abs steps).amount <
            metricDivisor d.flags -
              1 / 2 * (1 / 10 ^ min (scaledPrecision value r.precision) 100)) ∧
        (13 ≤ scaledPrecision value r.precision → mantissa < metricDivisor d.flags)) := by
  obtain ⟨hwide, right, hflags⟩ := resolve_flags hresolve
  have hreduces := reduces_wrap (bitsOf_pos r.wide) signed n
  have hm : 0 < r.flags.metric := by rw [hflags]; exact hmetric
  obtain ⟨hliteral, hvalue⟩ := valuePiece_scaled hletter hm ha separators
  obtain ⟨_, _, hform⟩ := exists_form_of_reduces hreduces
  generalize wrap (bitsOf r.wide) signed n = value at hreduces hvalue hform
  obtain ⟨steps, body, mantissa, hfield, hscaled, hfixed, hnearest, hbelow⟩ :=
    exists_scaledField (s := ⟨r.flags, some (scaledPrecision value r.precision), false, separators⟩)
      hform hm
  have hpiece := pieceOf_value hresolve hliteral hvalue
  have hsign : (Double.ofInt value).isNegative = decide (value < 0) := by
    rw [Double.isNegative, hform]
  have hdivisor : metricDivisor r.flags = metricDivisor d.flags := by rw [hflags]; rfl
  have htail : metricTail r.flags steps = metricTail d.flags steps := by rw [hflags]; rfl
  have hgroup : r.flags.group = d.flags.group := by rw [hflags]
  rw [hsign, htail] at hfield
  rw [hdivisor] at hscaled hnearest hbelow
  rw [hgroup] at hfixed
  rw [htail] at hbelow
  rw [hfield] at hpiece
  refine ⟨value, steps, body, mantissa, _, ?_, rfl, hpiece, ?_, hscaled, hfixed, hnearest, hbelow⟩
  · rw [← hwide]
    exact hreduces
  · rintro t args hparse hconversion rfl
    exact format_directive hparse hconversion (hpiece 0)

/-- The integer 999999 with 13 places is `999.9990000000000 k`, which is below a thousand. -/
theorem pieceOf_scaled_places :
    format Separators.default (Text.ofString "%$.13d") [.integer 999999] =
        .ok (Text.ofString "999.9990000000000 k") ∧
      ∃ body mantissa, body <+: Text.ofString "999.9990000000000 k" ∧
        IsFixed false Separators.default 13 mantissa body ∧ mantissa < 1000 := by
  have hformat : format Separators.default (Text.ofString "%$.13d") [.integer 999999] =
      .ok (Text.ofString "999.9990000000000 k") := eq_ok_of_toOption (by decide +kernel)
  let d : Directive :=
    ⟨{ Flags.none with metric := 1 }, .number 0, some (.number 13), false, some 0x64⟩
  have hresolve : resolve d ⟨0, [.integer 999999]⟩ =
      .ok (⟨{ Flags.none with metric := 1 }, 0, some 13, false⟩, ⟨0, [.integer 999999]⟩) := rfl
  have hletter : ('d', true) ∈ decimalLetters := by decide
  obtain ⟨value, steps, body, mantissa, field, hreduces, hfield, -, hwritten, -, hfixed, -,
    hbelow⟩ := pieceOf_scaled hletter (by decide) hresolve (.integer 999999) Separators.default
  obtain rfl : value = 999999 := by
    obtain ⟨⟨k, hk⟩, hleast, hmost⟩ := hreduces
    norm_num [d] at hk hleast hmost
    omega
  have hsame := (hwritten (Text.ofString "$.13d") _ (by decide +kernel) rfl rfl).symm.trans hformat
  rw [Except.ok.injEq, hfield, layout_zero] at hsame
  have hparts : body ++ metricTail d.flags steps = Text.ofString "999.9990000000000 k" := hsame
  refine ⟨hformat, body, mantissa, ⟨_, hparts⟩, hfixed, ?_⟩
  have hlast : 0x54 ∉ metricTail d.flags steps := by
    intro hmem
    have hletter := List.mem_append_right body hmem
    rw [hparts] at hletter
    exact absurd hletter (by decide)
  exact (hbelow hlast).2 (by decide)

/-- The integer 999999 is scaled once, to 999.999, and one place rounds this up to a thousand of the
first suffix. -/
theorem exists_mantissa_eq_divisor :
    format Separators.default (Text.ofString "%$d") [.number (Double.ofNat 999999)] =
        .ok (Text.ofString "1000.0" ++ metricTail { Flags.none with metric := 1 } 1) ∧
      0x54 ∉ metricTail { Flags.none with metric := 1 } 1 ∧
      numberOf? (Text.ofString "1000.0") =
        some (metricDivisor { Flags.none with metric := 1 } : ℚ) :=
  ⟨eq_ok_of_toOption (by decide +kernel), by decide, by decide +kernel⟩

end TextUnits.Format
