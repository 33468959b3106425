import TextUnits.Proofs.Format.General
import TextUnits.Proofs.Format.Integers
import TextUnits.Proofs.Number.Nearest
import TextUnits.Proofs.Number.Places

/-!
# Fixed notation of a number

A finite number in fixed notation has a numeral in front of the separator and as many fraction
digits behind it as asked for. What it writes is the multiple of its last place that is nearest to
the number, where no place behind the hundredth counts: the digits there are zeros. A number of
10^21 or more is whole and is written out.
-/

namespace TextUnits.Format

open Numeral

/-- A body in fixed notation and what it amounts to: a numeral of the whole part, in groups of three
digits if asked for, and behind a separator the digits of the fraction. -/
structure IsFixed (grouping : Bool) (separators : Separators) (places : ℕ) (amount : ℚ)
    (body : Text) : Prop where
  /-- The two parts. -/
  parts : ∃ (whole : ℕ) (shown fraction : Text),
    (if grouping then Apart 3 separators.group (decimal whole) shown else shown = decimal whole) ∧
    Digits fraction ∧ fraction.length = places ∧
    body = (if places = 0 then shown else shown ++ separators.decimal ++ fraction) ∧
    amount = whole + read fraction / 10 ^ places

variable {x : Double} {s : FloatStyle} {negative : Bool} {significand power places count : ℕ}
  {d : Directive} {r : Resolved}

/-- With a point for its separator and without groups a body writes what it amounts to. -/
theorem IsFixed.pointed {separators : Separators} {amount : ℚ} {body : Text}
    (h : IsFixed false separators places amount body) (hd : separators.decimal = [0x2E]) :
    Pointed body amount := by
  obtain ⟨whole, shown, fraction, hshown, hdigits, rfl, hbody, rfl⟩ := h.parts
  rw [if_neg Bool.false_ne_true] at hshown
  subst hshown
  rw [hd, List.append_assoc, List.singleton_append] at hbody
  rw [hbody]
  split_ifs with hnone
  · obtain rfl := List.length_eq_zero_iff.mp hnone
    have hwhole := Pointed.whole (digits_decimal whole) (decimal_ne_nil whole)
    have hnothing : read [] = 0 := rfl
    rw [read_decimal] at hwhole
    rwa [hnothing, Nat.cast_zero, zero_div, add_zero]
  · have hpointed := Pointed.fraction (digits_decimal whole) (decimal_ne_nil whole) hdigits
    rw [read_append, read_decimal] at hpointed
    push_cast at hpointed
    rwa [add_div, mul_div_cancel_right₀ _ (by positivity)] at hpointed

theorem digits_lastDigits (count n : ℕ) : Digits (lastDigits 10 count n) := by
  induction count generalizing n with
  | zero => exact List.forall_mem_nil _
  | succ count ih =>
    refine digits_append.mpr ⟨ih _, ?_⟩
    rw [Digits, List.forall_mem_singleton]
    exact (digitUnit_spec (Nat.mod_lt n (by decide))).1

/-- Digits with a point in front of the last of them, by what stands on either side. -/
theorem pointed_decimal_eq (n places : ℕ) :
    pointed (decimal n) places = decimal (n / 10 ^ places) ++
      if places = 0 then [] else 0x2E :: lastDigits 10 places n := by
  by_cases hnone : places = 0
  · rw [pointed, if_pos hnone, if_pos hnone, hnone, Nat.pow_zero, Nat.div_one, List.append_nil]
  · have hsplit : padLeft (places + 1) (decimal n) =
        decimal (n / 10 ^ places) ++ lastDigits 10 places n := padLeft_text (by decide) places n
    have hfront : (decimal (n / 10 ^ places) ++ lastDigits 10 places n).length - places =
        (decimal (n / 10 ^ places)).length := by
      rw [List.length_append, length_lastDigits, Nat.add_sub_cancel]
    rw [pointed, if_neg hnone, if_neg hnone, hsplit]
    dsimp only
    rw [hfront, List.take_left, List.drop_left]

/-- The magnitude of a number in units of a decimal place, rounded with a half going up. -/
def fixedUnits (x : Double) (places : ℕ) : ℕ :=
  Decimal.fixed (magnitudeOf x).1 (magnitudeOf x).2 places

/-- From 10^21 on a magnitude is whole. -/
theorem magnitudeOf_den_of_large (hx : x.form = .finite negative significand power)
    (h : ¬ (magnitudeOf x).1 < fixedLimit * (magnitudeOf x).2) : (magnitudeOf x).2 = 1 := by
  rw [magnitudeOf_eq hx] at h ⊢
  exact Double.ratio_den_of_large (Double.significand_lt hx) (not_lt.mp h)

theorem fixedUnits_of_whole (h : (magnitudeOf x).2 = 1) (places : ℕ) :
    fixedUnits x places = (magnitudeOf x).1 * 10 ^ places := by
  have hwhole := roundDiv_mul .up ((magnitudeOf x).1 * 10 ^ places) 1 Nat.one_pos
  rw [Nat.mul_one] at hwhole
  rw [fixedUnits, Decimal.fixed, h]
  exact hwhole

/-- Digits that are rounded at the hundredth place at the latest, and zeros behind them. -/
theorem fixedDigits_eq (hx : x.form = .finite negative significand power) (places : ℕ) :
    fixedDigits x places = decimal (fixedUnits x (min places 100) / 10 ^ min places 100) ++
      if places = 0 then []
      else 0x2E :: (lastDigits 10 (min places 100) (fixedUnits x (min places 100)) ++
        zeros (places - min places 100)) := by
  have hexact : exactPlaces = 100 := rfl
  have hnone : min places 100 = 0 ↔ places = 0 := by omega
  rw [fixedDigits]
  dsimp only
  by_cases hlimit : (magnitudeOf x).1 < fixedLimit * (magnitudeOf x).2
  · have hpointed : fixedText x (min places 100) =
        pointed (decimal (fixedUnits x (min places 100))) (min places 100) := by
      rw [fixedText]
      dsimp only
      rw [if_pos hlimit]
      rfl
    rw [if_pos hlimit, hexact, hpointed, pointed_decimal_eq, List.append_assoc]
    simp only [hnone]
    split_ifs with hplaces
    · rw [hplaces]
      rfl
    · rfl
  · have hden := magnitudeOf_den_of_large hx hlimit
    have hpower : 0 < 10 ^ min places 100 := by positivity
    have hlast : lastDigits 10 (min places 100) ((magnitudeOf x).1 * 10 ^ min places 100) ++
        zeros (places - min places 100) = zeros places := by
      rw [lastDigits_mul, zeros, Text.fill, Text.fill, List.replicate_append_replicate,
        Nat.add_sub_cancel' (Nat.min_le_left _ _)]
      rfl
    rw [if_neg hlimit, fixedUnits_of_whole hden, hden, Nat.div_one, Nat.mul_div_cancel _ hpower,
      hlast]
    split_ifs
    · exact (List.append_nil _).symm
    · rfl

/-- A text in fixed notation with its separators. -/
theorem localized_decimal (whole places : ℕ) (fraction : Text) (s : FloatStyle) :
    localized (decimal whole ++ if places = 0 then [] else 0x2E :: fraction) s =
      if places = 0 then
        if s.flags.group then grouped 3 s.separators.group (decimal whole) else decimal whole
      else
        (if s.flags.group then grouped 3 s.separators.group (decimal whole) else decimal whole) ++
          s.separators.decimal ++ fraction := by
  have hpoint : 0x2E ∉ decimal whole := (digits_decimal whole).not_mem (by decide)
  unfold localized
  dsimp only
  by_cases hplaces : places = 0
  · rw [if_pos hplaces, if_pos hplaces, List.append_nil, cut?_of_not_mem hpoint]
  · rw [if_neg hplaces, if_neg hplaces, cut?_append hpoint]

/-- The digits on both sides of a point amount to the number of units, whatever zeros follow. -/
theorem amount_parts (n count more : ℕ) :
    ((n / 10 ^ count : ℕ) : ℚ) + read (lastDigits 10 count n ++ zeros more) / 10 ^ (count + more) =
      n / 10 ^ count := by
  have hsplit :
      read (decimal (n / 10 ^ count)) * 10 ^ count + read (lastDigits 10 count n) = n := by
    have hpad : padLeft (count + 1) (decimal n) =
        decimal (n / 10 ^ count) ++ lastDigits 10 count n := padLeft_text (by decide) count n
    have hread := read_padLeft (count + 1) (decimal n)
    rwa [hpad, read_append, length_lastDigits, read_decimal n] at hread
  have hzeros : read (lastDigits 10 count n ++ zeros more) =
      read (lastDigits 10 count n) * 10 ^ more := by
    have hnothing : read (zeros more) = 0 := read_fill more
    rw [read_append, hnothing, Nat.add_zero]
    exact congrArg (_ * 10 ^ ·) List.length_replicate
  have hcast : (n : ℚ) = (n / 10 ^ count : ℕ) * 10 ^ count + read (lastDigits 10 count n) := by
    rw [read_decimal] at hsplit
    exact_mod_cast hsplit.symm
  rw [hzeros, pow_add]
  conv_rhs => rw [hcast]
  push_cast
  field_simp

/-- A finite magnitude in fixed notation. -/
theorem isFixed_fixedDigits (hx : x.form = .finite negative significand power) (s : FloatStyle) :
    IsFixed s.flags.group s.separators s.places
      (fixedUnits x (min s.places 100) / 10 ^ min s.places 100)
      (localized (fixedDigits x s.places) s) := by
  have hsum : min s.places 100 + (s.places - min s.places 100) = s.places :=
    Nat.add_sub_cancel' (Nat.min_le_left _ _)
  have hamount := amount_parts (fixedUnits x (min s.places 100)) (min s.places 100)
    (s.places - min s.places 100)
  rw [hsum] at hamount
  rw [fixedDigits_eq hx, localized_decimal]
  refine ⟨⟨_, _, _, ?_, ?_, ?_, rfl, hamount.symm⟩⟩
  · split_ifs
    · exact apart_grouped (by decide) (decimal_ne_nil _)
    · rfl
  · exact digits_append.mpr ⟨digits_lastDigits _ _, digits_fill _⟩
  · rw [List.length_append, length_lastDigits, zeros, Text.fill, List.length_replicate, hsum]

/-- The units of a decimal place are those nearest to the number. -/
theorem nearest_fixedUnits (hx : x.form = .finite negative significand power) (places : ℕ) :
    Nearest (1 / 10 ^ places) x.amount (fixedUnits x places / 10 ^ places) := by
  have hden := Double.ratio_den_pos significand power
  have hplace : (0 : ℚ) < 1 / 10 ^ places := by positivity
  have hnearest := nearest_roundDiv hplace ((Double.ratio significand power).1 * 10 ^ places) hden
  have hmagnitude : (((Double.ratio significand power).1 * 10 ^ places : ℕ) : ℚ) /
      (Double.ratio significand power).2 * (1 / 10 ^ places) = x.amount := by
    rw [Double.amount_eq hx, ← Double.ratio_eq]
    push_cast
    field_simp
  rw [hmagnitude, mul_one_div] at hnearest
  rwa [fixedUnits, magnitudeOf_eq hx]

/-- A number of 10^21 or more is written out. -/
theorem fixedUnits_of_large (hx : x.form = .finite negative significand power)
    (hlarge : 10 ^ 21 ≤ x.amount) (places : ℕ) :
    (fixedUnits x places / 10 ^ places : ℚ) = x.amount := by
  have hden : (0 : ℚ) < (Double.ratio significand power).2 := by
    exact_mod_cast Double.ratio_den_pos significand power
  have hamount := Double.amount_eq hx
  rw [← Double.ratio_eq, ← magnitudeOf_eq hx] at hamount
  have hlimit : ¬ (magnitudeOf x).1 < fixedLimit * (magnitudeOf x).2 := by
    rw [magnitudeOf_eq hx] at hamount ⊢
    rw [hamount, le_div_iff₀ hden] at hlarge
    rw [not_lt]
    exact_mod_cast hlarge
  have hone := magnitudeOf_den_of_large hx hlimit
  rw [fixedUnits_of_whole hone, hamount, hone]
  push_cast
  field_simp

/-- The directive `%f` without scaling and grouping writes any finite number with a plain numeral in
front of the separator and as many fraction digits behind it as its precision asks for, or six. What
they amount to is the multiple of the last place, or of the hundredth, that is nearest to the
number, the larger one of two: it is at most half of such a place away. A number of 10^21 or more is
written as it is. -/
theorem pieceOf_fixed (hmetric : d.flags.metric = 0) (hgroup : d.flags.group = false)
    {supply : Supply} {taken : ℕ} {a : Argument} {more : List Argument}
    (hresolve : resolve d supply = .ok (r, ⟨taken, a :: more⟩)) (ha : numberOf 0x66 a = .ok x)
    (hx : x.isFinite = true) (separators : Separators) :
    ∃ body amount field,
      field = Field.layout ⟨signOf x.isNegative r.flags, body, []⟩ r.width r.flags ∧
      (∀ position, pieceOf d 0x66 separators position supply =
        .ok (.text field, ⟨taken + 1, more⟩)) ∧
      (∀ t args, Directive.parse t = (d, []) → d.conversion = some 0x66 → supply = ⟨0, args⟩ →
        format separators (0x25 :: t) args = .ok field) ∧
      IsFixed false separators (r.precision.getD 6) amount body ∧
      Nearest (1 / 10 ^ min (r.precision.getD 6) 100) x.amount amount ∧
      |amount - x.amount| ≤ 1 / 2 * (1 / 10 ^ min (r.precision.getD 6) 100) ∧
      (10 ^ 21 ≤ x.amount → amount = x.amount) := by
  obtain ⟨negative, significand, power, hform⟩ := Double.exists_form hx
  obtain ⟨-, right, hflags⟩ := resolve_flags hresolve
  have hplain : r.flags.group = false := by rw [hflags]; exact hgroup
  have hscaled : r.flags.metric = 0 := by rw [hflags]; exact hmetric
  have hconversion : conversionOf 0x66 = .fixed := by decide
  have hfixed := isFixed_fixedDigits (x := x.abs) (Double.form_abs hform)
    ⟨r.flags, r.precision, false, separators⟩
  have hnearest := nearest_fixedUnits (Double.form_abs hform) (min (r.precision.getD 6) 100)
  have hhalf := hnearest.abs_sub_le (by positivity)
  have hlarge := fun h => fixedUnits_of_large (Double.form_abs hform) h
    (min (r.precision.getD 6) 100)
  have habs : x.abs.amount = x.amount := by
    rw [Double.amount_eq (Double.form_abs hform), Double.amount_eq hform]
  have hfield : fixedField x ⟨r.flags, r.precision, false, separators⟩ =
      ⟨signOf x.isNegative r.flags, localized (fixedDigits x.abs (r.precision.getD 6))
        ⟨r.flags, r.precision, false, separators⟩, []⟩ := by
    rw [fixedField, wordField?_eq_none hform, scaleMetric]
    dsimp only
    rw [if_pos hscaled, metricTail, if_pos hscaled]
    rfl
  have hvalue : valuePiece (conversionOf 0x66) 0x66 r separators a = .ok (.text
      ((fixedField x ⟨r.flags, r.precision, false, separators⟩).layout r.width r.flags)) := by
    rw [hconversion]
    dsimp only [valuePiece, fieldOf]
    rw [ha]
    rfl
  have hpiece := pieceOf_value hresolve (by rw [hconversion]; decide) hvalue
  rw [hfield] at hpiece
  rw [hplain] at hfixed
  rw [habs] at hnearest hhalf hlarge
  refine ⟨_, _, _, rfl, hpiece, ?_, hfixed, hnearest, hhalf.trans_eq (by ring), hlarge⟩
  rintro t args hparse hletter rfl
  exact format_directive hparse hletter (hpiece 0)

/-- A quarter lies between two tenths and three tenths, and `%.1f` writes the larger one. -/
theorem pieceOf_fixed_tie :
    format Separators.default (Text.ofString "%.1f") [.number ⟨0x3FD0000000000000⟩] =
        .ok (Text.ofString "0.3") ∧
      IsFixed false Separators.default 1 (3 / 10) (Text.ofString "0.3") ∧
      Nearest (1 / 10) (1 / 4) (3 / 10) := by
  have hformat : format Separators.default (Text.ofString "%.1f") [.number ⟨0x3FD0000000000000⟩] =
      .ok (Text.ofString "0.3") := eq_ok_of_toOption (by decide +kernel)
  have hamount : (Double.mk 0x3FD0000000000000).amount = 1 / 4 := by
    have hform : (Double.mk 0x3FD0000000000000).form = .finite false 4503599627370496 1020 := by
      decide
    rw [Double.amount_eq hform]
    norm_num
  let d : Directive := ⟨Flags.none, .number 0, some (.number 1), false, some 0x66⟩
  have hresolve : resolve d ⟨0, [.number ⟨0x3FD0000000000000⟩]⟩ =
      .ok (⟨Flags.none, 0, some 1, false⟩, ⟨0, [.number ⟨0x3FD0000000000000⟩]⟩) := rfl
  obtain ⟨body, amount, field, hfield, -, hwritten, hfixed, hnearest, -⟩ :=
    pieceOf_fixed (d := d) rfl rfl hresolve rfl (by decide) Separators.default
  have hsame := (hwritten (Text.ofString ".1f") _ (by decide +kernel) rfl rfl).symm.trans hformat
  rw [Except.ok.injEq] at hsame
  obtain rfl : body = Text.ofString "0.3" := by
    rw [← hsame, hfield, layout_zero]
    exact (List.append_nil body).symm
  obtain rfl : amount = 3 / 10 := by
    have hnumber : numberOf? (Text.ofString "0.3") = some (3 / 10) := by decide +kernel
    have hwrites := (hfixed.pointed (by decide)).numberOf?_eq
    rw [hnumber] at hwrites
    exact (Option.some.inj hwrites).symm
  rw [hamount] at hnearest
  exact ⟨hformat, hfixed, hnearest⟩

end TextUnits.Format
