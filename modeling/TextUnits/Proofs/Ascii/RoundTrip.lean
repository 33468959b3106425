import TextUnits.Proofs.Ascii.Numerals

/-!
# Numerals are read as they are written

A safe integer is written without leading zeros. So its decimal numeral is not taken for one of
another form, and behind a mark its digits are all read. What is read is the integer, and nothing is
left of the text.
-/

namespace TextUnits

/-- Only zero is written with a leading zero. -/
theorem Numeral.head?_digits_ne {radix n : ℕ} (hr : 2 ≤ radix) (hn : n ≠ 0) :
    (digits radix n).head? ≠ some 0 := by
  fun_induction digits radix n with
  | case1 n => simpa using hn
  | case2 n hlarge ih =>
    have hquotient : n / radix ≠ 0 := by
      rw [Nat.div_ne_zero_iff]
      omega
    rw [List.head?_append_of_ne_nil _ (digits_ne_nil radix (n / radix))]
    exact ih hquotient

namespace Ascii

open Form

variable {form : Form} {t whole sign : Text} {n : ℕ} {v : ℤ} {x : Double}

/-- A numeral with a mark starts with a zero, and the unit behind the zero tells its form. -/
theorem Form.Begins.exists_second (h : form.Begins t) (hne : form ≠ .decimal) :
    t.head? = some 0x30 ∧ ∃ u d, t[1]? = some u ∧ digitValue? u = some d ∧
      (form = .hexadecimal ∧ d = 33 ∨ form = .binary ∧ d = 11 ∨ form = .octal ∧ d < 8) := by
  cases form with
  | hexadecimal =>
    obtain ⟨front, u, rest, rfl, hfront, -⟩ := (Form.begins_zero rfl).mp h
    obtain ⟨m, rfl, hm⟩ := sameFolded_singleton_iff.mp hfront
    exact ⟨rfl, m, 33, rfl, digitValue?_eq_some_iff.mpr ⟨by decide, hm⟩, .inl ⟨rfl, rfl⟩⟩
  | binary =>
    obtain ⟨front, u, rest, rfl, hfront, -⟩ := (Form.begins_zero rfl).mp h
    obtain ⟨m, rfl, hm⟩ := sameFolded_singleton_iff.mp hfront
    exact ⟨rfl, m, 11, rfl, digitValue?_eq_some_iff.mpr ⟨by decide, hm⟩, .inr (.inl ⟨rfl, rfl⟩)⟩
  | octal =>
    obtain ⟨front, u, rest, rfl, hnone, hdigit⟩ := (Form.begins_zero rfl).mp h
    obtain rfl := List.forall₂_nil_right_iff.mp hnone
    obtain ⟨d, hd, hlt⟩ := isDigitIn_iff.mp hdigit
    exact ⟨rfl, u, d, rfl, hd, .inr (.inr ⟨rfl, hlt⟩)⟩
  | decimal => exact absurd rfl hne

/-- Of the decimal numerals of naturals only that of zero starts with a zero. -/
theorem Form.Writes.eq_zero (h : Form.decimal.Writes (Numeral.digits 10 n) t)
    (hzero : t.head? = some 0x30) : t = [0x30] := by
  obtain ⟨-, front, later, rfl, hnone, hdigits⟩ := writes_iff.mp h
  obtain rfl := List.forall₂_nil_right_iff.mp hnone
  change DigitsOf 10 (Numeral.digits 10 n) later at hdigits
  generalize hwritten : Numeral.digits 10 n = digits at hdigits
  cases hdigits with
  | nil => cases hzero
  | @cons u first more others hfirst hothers =>
    obtain rfl : u = 0x30 := Option.some.inj hzero
    obtain rfl : first = 0 := Option.some.inj (hfirst.1.symm.trans (by decide))
    have hn : n = 0 := by
      by_contra hne
      exact Numeral.head?_digits_ne (by decide) hne (congrArg List.head? hwritten)
    rw [hn, Numeral.digits, if_pos (.inr (by decide))] at hwritten
    obtain rfl := (List.cons.inj hwritten).2
    cases hothers
    rfl

/-- A numeral of the digits of a natural is one of no form that is tried before its own. -/
theorem Form.Writes.applies (h : form.Writes (Numeral.digits form.radix n) t) :
    form.Applies t := by
  have hbegins : form.Begins t := ⟨_, t, List.prefix_rfl, h⟩
  refine ⟨hbegins, fun other hlt hother => ?_⟩
  have hne : other ≠ .decimal := by
    rintro rfl
    cases form <;> exact absurd hlt (by decide)
  obtain ⟨hzero, u, d, hu, hd, hforms⟩ := hother.exists_second hne
  by_cases hdecimal : form = .decimal
  · subst hdecimal
    rw [h.eq_zero hzero] at hu
    cases hu
  · -- The unit behind the zero has one value, and no two marks and no octal digit share theirs.
    obtain ⟨-, v, e, hv, he, hown⟩ := hbegins.exists_second hdecimal
    obtain rfl := Option.some.inj (hu.symm.trans hv)
    obtain rfl := Option.some.inj (hd.symm.trans he)
    rcases hforms with ⟨rfl, hd⟩ | ⟨rfl, hd⟩ | ⟨rfl, hd⟩ <;>
      rcases hown with ⟨rfl, he⟩ | ⟨rfl, he⟩ | ⟨rfl, he⟩ <;> omega

/-- A text that writes the digits of a natural in some form is the numeral at its own front. -/
theorem Form.Writes.stands (h : form.Writes (Numeral.digits form.radix n) t) :
    form.Stands (Numeral.digits form.radix n) t t :=
  ⟨h.applies, List.prefix_rfl, h, fun _ _ hstarts _ => hstarts.length_le⟩

/-- The mark and the numeral of a natural, with letters in either case, write its digits. -/
theorem Form.writes_text (h : SameFolded t (form.mark ++ Numeral.text form.radix n)) :
    form.Writes (Numeral.digits form.radix n) t :=
  ⟨Numeral.digits_ne_nil _ _, Numeral.lt_of_mem_digits form.two_le_radix n, h⟩

/-- A whole numeral is read behind a sign. -/
theorem Form.Writes.parseInteger? (h : form.Writes (Numeral.digits form.radix n) t)
    (hsafe : n ≤ Double.maxSafe) (hsign : SignAt sign whole t) :
    ∃ p, parseInteger? whole = some p ∧
      p.value.toInt? = some (if sign = [0x2D] then -(n : ℤ) else n) ∧
      p.consumed = whole.length := by
  have hvalue := h.stands.toInt?_value (by rwa [Numeral.value_digits])
  rw [hsign.parseInteger?_eq, h.stands.parseUnsigned?_eq]
  refine ⟨_, rfl, ?_, ?_⟩
  · rw [hvalue, Numeral.value_digits]
    simp only [decide_eq_true_eq]
  · rw [hsign.eq_append, List.length_append]

/-- A whole numeral is read without a sign. -/
theorem Form.Writes.parseUnsigned? (h : form.Writes (Numeral.digits form.radix n) t)
    (hsafe : n ≤ Double.maxSafe) :
    ∃ p, parseUnsigned? t = some p ∧ p.value.toInt? = some (n : ℤ) ∧ p.consumed = t.length := by
  have hvalue := h.stands.toInt?_value (by rwa [Numeral.value_digits])
  rw [h.stands.parseUnsigned?_eq]
  refine ⟨_, rfl, ?_, rfl⟩
  rw [hvalue, Numeral.value_digits]
  rfl

theorem signAt_of_digit (h : StartsWithDigit t) : SignAt [] t t := by
  obtain ⟨u, hu, hlow, hhigh⟩ := h
  refine .absent fun v hv => ?_
  obtain rfl := Option.some.inj (hu.symm.trans hv)
  constructor <;>
  · rintro rfl
    revert hlow
    decide

/-- A safe integer is written in every radix. -/
theorem numeral?_eq {radix : ℕ} (hx : x.toSafeInt? = some v) (hlow : 2 ≤ radix)
    (hhigh : radix ≤ 36) : numeral? x (Double.ofNat radix) = .ok (numeral radix v) := by
  have hradix : (Double.ofNat radix).toNat? = some radix :=
    Double.toNat?_ofNat (hhigh.trans (by decide))
  rw [numeral?, hradix]
  dsimp only
  rw [if_neg (by omega), hx]

/-- The decimal numeral of a safe integer is read as that integer, and so are the numerals of a safe
natural in the other radices behind their marks, with letters in either case and without a sign or
with one, of which a minus makes the number negative. Each time the whole text is consumed. -/
theorem parse_printed (hx : x.toSafeInt? = some v) :
    (∃ t p, numeral? x (Double.ofNat 10) = .ok t ∧ parseInteger? t = some p ∧
        p.value.toInt? = some v ∧ p.consumed = t.length) ∧
      (0 ≤ v → ∀ form : Form, ∃ digits, numeral? x (Double.ofNat form.radix) = .ok digits ∧
        ∀ t, SameFolded t (form.mark ++ digits) →
          (∃ p, parseUnsigned? t = some p ∧ p.value.toInt? = some v ∧ p.consumed = t.length) ∧
            (∃ p, parseInteger? (0x2B :: t) = some p ∧ p.value.toInt? = some v ∧
              p.consumed = t.length + 1) ∧
            ∃ p, parseInteger? (0x2D :: t) = some p ∧ p.value.toInt? = some (-v) ∧
              p.consumed = t.length + 1) := by
  have hsafe := Double.natAbs_le_of_toSafeInt? hx
  refine ⟨?_, fun hv form => ?_⟩
  · have hwrites : Form.decimal.Writes (Numeral.digits 10 v.natAbs) (Numeral.text 10 v.natAbs) :=
      Form.writes_text (List.forall₂_same.mpr fun _ _ => .inl rfl)
    rw [numeral?_eq hx (by decide) (by decide), numeral]
    by_cases hv : v < 0
    · obtain ⟨p, hp, hvalue, hconsumed⟩ := hwrites.parseInteger? hsafe (.present (.inr rfl))
      rw [if_pos ⟨hv, rfl⟩]
      refine ⟨_, p, rfl, hp, ?_, hconsumed⟩
      rw [hvalue, if_pos rfl, Option.some.injEq]
      omega
    · obtain ⟨p, hp, hvalue, hconsumed⟩ := hwrites.parseInteger? hsafe
        (signAt_of_digit hwrites.applies.1.startsWithDigit)
      rw [if_neg fun h => hv h.1]
      refine ⟨_, p, rfl, hp, ?_, hconsumed⟩
      rw [hvalue, if_neg (by decide), Option.some.injEq]
      omega
  · have hnatural : (v.natAbs : ℤ) = v := Int.natAbs_of_nonneg hv
    refine ⟨_, numeral?_eq hx form.two_le_radix form.radix_le, fun t ht => ?_⟩
    rw [numeral, if_neg fun h => Int.not_lt.mpr hv h.1] at ht
    have hwrites := Form.writes_text ht
    have hplus := hwrites.parseInteger? hsafe (.present (.inl rfl) : SignAt [0x2B] (0x2B :: t) t)
    have hminus := hwrites.parseInteger? hsafe (.present (.inr rfl) : SignAt [0x2D] (0x2D :: t) t)
    have hplain := hwrites.parseUnsigned? hsafe
    rw [if_neg (by decide), hnatural] at hplus
    rw [if_pos rfl, hnatural] at hminus
    rw [hnatural] at hplain
    exact ⟨hplain, hplus, hminus⟩

/-- `-255` is read from its decimal numeral, and from `-0XfF`. -/
theorem parse_printed_mixed :
    ((Double.ofNat 255).neg.toSafeInt? = some (-255) ∧
        ∃ p, parseInteger? (Text.ofString "-255") = some p ∧ p.value.toInt? = some (-255) ∧
          p.consumed = 4) ∧
      ((Double.ofNat 255).toSafeInt? = some 255 ∧ (0 : ℤ) ≤ 255 ∧
        SameFolded (Text.ofString "0XfF") (Form.hexadecimal.mark ++ Text.ofString "ff") ∧
        ∃ p, parseInteger? (Text.ofString "-0XfF") = some p ∧ p.value.toInt? = some (-255) ∧
          p.consumed = 5) := by
  have hsafe : 255 ≤ Double.maxSafe := by decide
  have hpositive : (Double.ofNat 255).toSafeInt? = some 255 := by
    rw [Double.toSafeInt?, Double.toInt?_ofNat hsafe]
    rfl
  have hnegative : (Double.ofNat 255).neg.toSafeInt? = some (-255) := by
    rw [Double.toSafeInt?, Double.toInt?_neg (Double.toInt?_ofNat hsafe)]
    rfl
  have hsame : SameFolded (Text.ofString "0XfF") (Form.hexadecimal.mark ++ Text.ofString "ff") := by
    decide
  have hsign : Text.ofString "-0XfF" = 0x2D :: Text.ofString "0XfF" := by decide
  have hdecimal : numeral 10 (-255) = Text.ofString "-255" := by with_unfolding_all rfl
  have hhexadecimal : numeral 16 255 = Text.ofString "ff" := by with_unfolding_all rfl
  obtain ⟨⟨t, p, ht, hp, hvalue, hconsumed⟩, -⟩ := parse_printed hnegative
  rw [numeral?_eq hnegative (by decide) (by decide), hdecimal] at ht
  cases ht
  obtain ⟨digits, hdigits, hread⟩ := (parse_printed hpositive).2 (by decide) .hexadecimal
  rw [Form.radix, numeral?_eq hpositive (by decide) (by decide), hhexadecimal] at hdigits
  cases hdigits
  rw [hsign]
  exact ⟨⟨hnegative, p, hp, hvalue, hconsumed⟩, hpositive, by decide, hsame, (hread _ hsame).2.2⟩

end Ascii

end TextUnits
