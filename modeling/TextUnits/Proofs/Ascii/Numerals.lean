import TextUnits.Proofs.Ascii.Comparison
import TextUnits.Proofs.Number.Naturals
import TextUnits.Proofs.Number.Radix

/-!
# Numerals at the front of a text

A numeral is hexadecimal behind `0x`, binary behind `0b`, octal behind another `0` and decimal
without a mark, and a mark counts only with a digit behind it. So the forms are tried in this
order, and of the first one of which there is a numeral the longest is read. It is rounded with
every digit, which is exact as long as the value is safe.
-/

namespace TextUnits.Ascii

/-- Forms of numerals without a sign. -/
inductive Form where
  /-- Digits in radix 16 behind `0x`. -/
  | hexadecimal
  /-- Digits in radix 2 behind `0b`. -/
  | binary
  /-- Digits in radix 8 behind `0`. -/
  | octal
  /-- Digits in radix 10. -/
  | decimal
  deriving DecidableEq

namespace Form

/-- The radix of the digits. -/
def radix : Form → ℕ
  | hexadecimal => 16
  | binary => 2
  | octal => 8
  | decimal => 10

/-- What stands in front of the digits, in lower case. -/
def mark : Form → Text
  | hexadecimal => Text.ofString "0x"
  | binary => Text.ofString "0b"
  | octal => Text.ofString "0"
  | decimal => []

/-- The place among the forms in the order in which they are tried. -/
def rank : Form → ℕ
  | hexadecimal => 0
  | binary => 1
  | octal => 2
  | decimal => 3

/-- A text is a numeral of a form: its mark and digits, one at least, with letters in either
case. -/
structure Writes (form : Form) (digits : List ℕ) (t : Text) : Prop where
  nonempty : digits ≠ []
  lt_radix : ∀ d ∈ digits, d < form.radix
  same : SameFolded t (form.mark ++ digits.map Numeral.digitUnit)

/-- A text starts with a numeral of a form. -/
def Begins (form : Form) (t : Text) : Prop := ∃ digits front, front <+: t ∧ form.Writes digits front

/-- A form is the first one of which a text starts with a numeral. -/
def Applies (form : Form) (t : Text) : Prop :=
  form.Begins t ∧ ∀ other : Form, other.rank < form.rank → ¬ other.Begins t

/-- The numeral at the front of a text: the longest one of the form that applies. -/
structure Stands (form : Form) (digits : List ℕ) (front t : Text) : Prop where
  applies : form.Applies t
  starts : front <+: t
  writes : form.Writes digits front
  longest : ∀ others other, other <+: t → form.Writes others other → other.length ≤ front.length

end Form

/-- A text starts with a decimal digit. -/
def StartsWithDigit (t : Text) : Prop := ∃ u ∈ t.head?, 0x30 ≤ u.toNat ∧ u.toNat ≤ 0x39

/-- One `+` or `-`, if it stands at the front. -/
inductive SignAt : Text → Text → Text → Prop where
  | present {u : UInt16} {rest : Text} (h : u = 0x2B ∨ u = 0x2D) : SignAt [u] (u :: rest) rest
  | absent {t : Text} (h : ∀ u ∈ t.head?, u ≠ 0x2B ∧ u ≠ 0x2D) : SignAt [] t t

/-- What was read behind a sign is the one numeral that stands there. Up to the end of the numeral
all is consumed, and a value that is safe is read as it is. -/
def Parsed.Tells (p : Parsed) (sign t : Text) : Prop :=
  ∃ (form : Form) (digits : List ℕ) (front : Text), form.Stands digits front t ∧
    (∀ (other : Form) (others : List ℕ) (part : Text), other.Stands others part t →
      other = form ∧ others = digits ∧ part = front) ∧
    p.consumed = sign.length + front.length ∧
    (Numeral.value form.radix digits ≤ Double.maxSafe → p.value.toInt? =
      some (if sign = [0x2D] then -(Numeral.value form.radix digits : ℤ)
        else Numeral.value form.radix digits)) ∧
    (Double.maxSafe < Numeral.value form.radix digits → Double.maxSafe < p.magnitude)

/-- The digits of a form as far as they go behind as many units as its mark has. -/
def Form.run (form : Form) (t : Text) : Text :=
  (t.drop form.mark.length).takeWhile (isDigitIn form.radix)

/-- Units are the digits of a radix, item by item. -/
def DigitsOf (radix : ℕ) (digits : List ℕ) (t : Text) : Prop :=
  List.Forall₂ (fun u d => digitValue? u = some d ∧ d < radix) t digits

variable {form other : Form} {t rest front part : Text} {digits others : List ℕ} {u : UInt16}
  {d radix : ℕ}

theorem isDigit_iff : isDigit u = true ↔ 0x30 ≤ u.toNat ∧ u.toNat ≤ 0x39 := by
  rw [isDigit, Bool.and_eq_true, decide_eq_true_eq, decide_eq_true_eq]
  rfl

theorem toNat_digitUnit (h : d < 36) :
    (Numeral.digitUnit d).toNat = if d < 10 then 0x30 + d else 0x57 + d := by
  unfold Numeral.digitUnit
  split_ifs
  all_goals
    rw [UInt16.toNat_ofNat', Nat.mod_eq_of_lt]
    omega

/-- The values of digits and of letters of either case. -/
theorem digitValue?_eq_iff_toNat : digitValue? u = some d ↔
    (0x30 ≤ u.toNat ∧ u.toNat ≤ 0x39 ∧ d = u.toNat - 0x30) ∨
      (0x61 ≤ u.toNat ∧ u.toNat ≤ 0x7A ∧ d = u.toNat - 0x57) ∨
      (0x41 ≤ u.toNat ∧ u.toNat ≤ 0x5A ∧ d = u.toNat - 0x37) := by
  unfold digitValue?
  dsimp only
  rw [toNat_lowerUnit]
  by_cases hdigit : isDigit u = true
  · have hrange := isDigit_iff.mp hdigit
    rw [if_pos hdigit, Option.some.injEq]
    omega
  · have hrange := mt isDigit_iff.mpr hdigit
    rw [if_neg hdigit]
    split_ifs <;> simp only [Option.some.injEq, false_iff] <;> omega

/-- A unit has the value of a digit exactly if it is the unit that writes it, in either case. -/
theorem digitValue?_eq_some_iff :
    digitValue? u = some d ↔ d < 36 ∧ SameLetter u (Numeral.digitUnit d) := by
  rw [digitValue?_eq_iff_toNat]
  by_cases hd : d < 36
  · rw [SameLetter, ← UInt16.toNat_inj, toNat_digitUnit hd]
    split_ifs <;> omega
  · exact iff_of_false (by omega) fun h => hd h.1

theorem isDigitIn_iff : isDigitIn radix u = true ↔ ∃ d, digitValue? u = some d ∧ d < radix := by
  unfold isDigitIn
  cases digitValue? u with
  | none => simp
  | some d => simp

theorem isDigitIn_ten_iff : isDigitIn 10 u = true ↔ 0x30 ≤ u.toNat ∧ u.toNat ≤ 0x39 := by
  simp only [isDigitIn_iff, digitValue?_eq_iff_toNat]
  constructor
  · rintro ⟨d, hd, hlt⟩
    omega
  · exact fun h => ⟨u.toNat - 0x30, .inl ⟨h.1, h.2, rfl⟩, by omega⟩

/-- Units are digits of a radix exactly if each of them is one. -/
theorem exists_digitsOf_iff :
    (∃ digits, DigitsOf radix digits t) ↔ ∀ u ∈ t, isDigitIn radix u = true := by
  constructor
  · rintro ⟨digits, h⟩
    induction h with
    | nil => exact List.forall_mem_nil _
    | cons hd _ ih => exact List.forall_mem_cons.mpr ⟨isDigitIn_iff.mpr ⟨_, hd⟩, ih⟩
  · intro h
    induction t with
    | nil => exact ⟨[], .nil⟩
    | cons u rest ih =>
      obtain ⟨hfirst, hrest⟩ := List.forall_mem_cons.mp h
      obtain ⟨d, hd⟩ := isDigitIn_iff.mp hfirst
      obtain ⟨digits, hdigits⟩ := ih hrest
      exact ⟨d :: digits, .cons hd hdigits⟩

theorem DigitsOf.unique (h : DigitsOf radix digits t) (ho : DigitsOf radix others t) :
    digits = others :=
  List.right_unique_forall₂' (fun _ _ _ hd ho => Option.some.inj (hd.1.symm.trans ho.1)) h ho

/-- Digits are read as their value or, as that is, beyond the safe naturals. -/
theorem DigitsOf.digitsValue (h : DigitsOf radix digits t) (hr : 0 < radix) :
    digitsValue radix t = Numeral.value radix digits ∨
      Double.maxSafe < digitsValue radix t ∧ Double.maxSafe < Numeral.value radix digits := by
  refine List.rel_foldl (P := fun n m => n = m ∨ Double.maxSafe < n ∧ Double.maxSafe < m)
    (R := fun u d => digitValue? u = some d ∧ d < radix) ?_ (.inl rfl) h
  rintro n m hnm u d ⟨hd, -⟩
  dsimp only
  rw [hd, Option.getD_some]
  exact Double.nearestNat_digit hr hnm d

theorem Form.two_le_radix (form : Form) : 2 ≤ form.radix := by
  cases form <;> decide

theorem Form.radix_pos (form : Form) : 0 < form.radix :=
  Nat.two_pos.trans_le form.two_le_radix

theorem Form.radix_le (form : Form) : form.radix ≤ 36 := by
  cases form <;> decide

/-- Digits below a radix are written by the units of their values. -/
theorem digitsOf_iff (hr : radix ≤ 36) : DigitsOf radix digits t ↔
    (∀ d ∈ digits, d < radix) ∧ SameFolded t (digits.map Numeral.digitUnit) := by
  unfold DigitsOf SameFolded
  induction digits generalizing t with
  | nil => simp
  | cons d digits ih =>
    cases t with
    | nil => simp
    | cons u rest =>
      rw [List.forall₂_cons, ih, digitValue?_eq_some_iff, List.map_cons, List.forall₂_cons,
        List.forall_mem_cons]
      have hd : d < radix → d < 36 := fun h => h.trans_le hr
      tauto

/-- A numeral is its mark with digits behind it. -/
theorem Form.writes_iff : form.Writes digits t ↔ digits ≠ [] ∧
    ∃ front later, t = front ++ later ∧ SameFolded front form.mark ∧
      DigitsOf form.radix digits later := by
  constructor
  · rintro ⟨hne, hlt, hsame⟩
    refine ⟨hne, _, _, (List.take_append_drop form.mark.length t).symm,
      List.forall₂_take_append t form.mark _ hsame, (digitsOf_iff form.radix_le).mpr ⟨hlt, ?_⟩⟩
    exact List.forall₂_drop_append t form.mark _ hsame
  · rintro ⟨hne, front, later, rfl, hmark, hlater⟩
    obtain ⟨hlt, hsame⟩ := (digitsOf_iff form.radix_le).mp hlater
    exact ⟨hne, hlt, List.rel_append hmark hsame⟩

/-- A text starts with a numeral of a form exactly if it starts with its mark and a digit. -/
theorem Form.begins_iff : form.Begins t ↔ ∃ front u rest, t = front ++ u :: rest ∧
    SameFolded front form.mark ∧ isDigitIn form.radix u = true := by
  constructor
  · rintro ⟨digits, whole, ⟨rest, rfl⟩, hwrites⟩
    obtain ⟨hne, front, later, rfl, hmark, hdigits⟩ := writes_iff.mp hwrites
    cases hdigits with
    | nil => exact absurd rfl hne
    | @cons u d more digits hd hmore =>
      exact ⟨front, u, more ++ rest, by simp, hmark, isDigitIn_iff.mpr ⟨d, hd⟩⟩
  · rintro ⟨front, u, rest, rfl, hmark, hdigit⟩
    obtain ⟨d, hd⟩ := isDigitIn_iff.mp hdigit
    refine ⟨[d], front ++ [u], ⟨rest, by simp⟩, writes_iff.mpr ⟨List.cons_ne_nil _ _, ?_⟩⟩
    exact ⟨front, [u], rfl, hmark, .cons hd .nil⟩

theorem sameLetter_zero_iff : SameLetter u 0x30 ↔ u = 0x30 := by
  rw [SameLetter, ← UInt16.toNat_inj]
  change u.toNat = 0x30 ∨ _ ∨ 0x41 ≤ 0x30 ∧ _ ↔ _
  have : (0x30 : UInt16).toNat = 0x30 := rfl
  omega

theorem sameFolded_singleton_iff {letter : UInt16} :
    SameFolded t [letter] ↔ ∃ m, t = [m] ∧ SameLetter m letter := by
  constructor
  · intro h
    obtain ⟨m, others, hm, hnone, rfl⟩ := List.forall₂_cons_right_iff.mp h
    obtain rfl := List.forall₂_nil_right_iff.mp hnone
    exact ⟨m, rfl, hm⟩
  · rintro ⟨m, rfl, hm⟩
    exact .cons hm .nil

/-- A text starts with a numeral whose mark starts with a zero exactly if behind a zero there are
the rest of the mark and a digit. -/
theorem Form.begins_zero {more : Text} (hmark : form.mark = 0x30 :: more) :
    form.Begins t ↔ ∃ front u rest, t = 0x30 :: (front ++ u :: rest) ∧ SameFolded front more ∧
      isDigitIn form.radix u = true := by
  rw [begins_iff, hmark]
  constructor
  · rintro ⟨front, u, rest, rfl, hsame, hdigit⟩
    obtain ⟨v, others, hfirst, hothers, rfl⟩ := List.forall₂_cons_right_iff.mp hsame
    rw [sameLetter_zero_iff.mp hfirst]
    exact ⟨others, u, rest, rfl, hothers, hdigit⟩
  · rintro ⟨front, u, rest, rfl, hsame, hdigit⟩
    exact ⟨0x30 :: front, u, rest, rfl, .cons (.inl rfl) hsame, hdigit⟩

/-- A mark of a zero and a letter stands in front of a digit. -/
theorem Form.begins_lettered {letter : UInt16} (hmark : form.mark = [0x30, letter])
    (hletter : lowerUnit letter = letter) : form.Begins (0x30 :: rest) ↔
      (match rest with
        | m :: d :: _ => lowerUnit m == letter && isDigitIn form.radix d
        | _ => false) = true := by
  have hsame : ∀ m, SameLetter m letter ↔ lowerUnit m = letter := by
    intro m
    rw [← lowerUnit_eq_iff, hletter]
  rw [begins_zero hmark]
  constructor
  · rintro ⟨front, u, later, heq, hfront, hdigit⟩
    obtain ⟨m, rfl, hm⟩ := sameFolded_singleton_iff.mp hfront
    obtain rfl := (List.cons.inj heq).2
    exact Bool.and_eq_true_iff.mpr ⟨beq_iff_eq.mpr ((hsame m).mp hm), hdigit⟩
  · intro h
    split at h
    · next m d later =>
      obtain ⟨hm, hdigit⟩ := Bool.and_eq_true_iff.mp h
      refine ⟨[m], d, later, rfl, sameFolded_singleton_iff.mpr ⟨m, rfl, ?_⟩, hdigit⟩
      exact (hsame m).mpr (beq_iff_eq.mp hm)
    · cases h

theorem Form.begins_octal : octal.Begins (0x30 :: rest) ↔ rest.head?.any (isDigitIn 8) = true := by
  rw [begins_zero rfl]
  constructor
  · rintro ⟨front, u, later, heq, hnone, hdigit⟩
    obtain rfl := List.forall₂_nil_right_iff.mp hnone
    obtain rfl := (List.cons.inj heq).2
    exact hdigit
  · intro h
    cases rest with
    | nil => cases h
    | cons u later => exact ⟨[], u, later, rfl, .nil, h⟩

theorem Form.begins_decimal : decimal.Begins t ↔ StartsWithDigit t := by
  rw [begins_iff, StartsWithDigit]
  constructor
  · rintro ⟨front, u, rest, rfl, hnone, hdigit⟩
    obtain rfl := List.forall₂_nil_right_iff.mp hnone
    exact ⟨u, rfl, isDigitIn_ten_iff.mp hdigit⟩
  · rintro ⟨u, hu, hdigit⟩
    obtain ⟨rest, rfl⟩ := List.head?_eq_some_iff.mp hu
    exact ⟨[], u, rest, rfl, .nil, isDigitIn_ten_iff.mpr hdigit⟩

/-- A form other than the decimal one has a mark that starts with a zero. -/
theorem Form.exists_mark (hne : form ≠ .decimal) : ∃ more, form.mark = 0x30 :: more := by
  cases form with
  | hexadecimal => exact ⟨[0x78], rfl⟩
  | binary => exact ⟨[0x62], rfl⟩
  | octal => exact ⟨[], rfl⟩
  | decimal => exact absurd rfl hne

/-- A numeral of any form starts with a decimal digit. -/
theorem Form.Begins.startsWithDigit (h : form.Begins t) : StartsWithDigit t := by
  by_cases hdecimal : form = .decimal
  · exact Form.begins_decimal.mp (hdecimal ▸ h)
  · obtain ⟨more, hmark⟩ := Form.exists_mark hdecimal
    obtain ⟨front, u, rest, rfl, -⟩ := (Form.begins_zero hmark).mp h
    exact ⟨0x30, rfl, by decide, by decide⟩

/-- A text that starts with a decimal digit starts with a numeral, and its form is found. -/
theorem exists_applies (h : StartsWithDigit t) :
    ∃ form : Form, form.Applies t ∧ radixOf t = (form.radix, form.mark.length) := by
  have hdecimal := Form.begins_decimal.mpr h
  unfold radixOf
  split
  · next rest =>
    have hhexadecimal : Form.hexadecimal.Begins (0x30 :: rest) ↔ _ :=
      Form.begins_lettered rfl (by decide)
    have hbinary : Form.binary.Begins (0x30 :: rest) ↔ _ := Form.begins_lettered rfl (by decide)
    dsimp only
    split_ifs with hx hb ho
    · exact ⟨.hexadecimal, ⟨hhexadecimal.mpr hx, fun _ hlt => absurd hlt (Nat.not_lt_zero _)⟩, rfl⟩
    · refine ⟨.binary, ⟨hbinary.mpr hb, fun other hlt => ?_⟩, rfl⟩
      cases other with
      | hexadecimal => exact mt hhexadecimal.mp hx
      | binary | octal | decimal => exact absurd hlt (by decide)
    · refine ⟨.octal, ⟨Form.begins_octal.mpr ho, fun other hlt => ?_⟩, rfl⟩
      cases other with
      | hexadecimal => exact mt hhexadecimal.mp hx
      | binary => exact mt hbinary.mp hb
      | octal | decimal => exact absurd hlt (by decide)
    · refine ⟨.decimal, ⟨hdecimal, fun other hlt => ?_⟩, rfl⟩
      cases other with
      | hexadecimal => exact mt hhexadecimal.mp hx
      | binary => exact mt hbinary.mp hb
      | octal => exact mt Form.begins_octal.mp ho
      | decimal => exact absurd hlt (by decide)
  · next hother =>
    refine ⟨.decimal, ⟨hdecimal, fun other hlt hbegins => ?_⟩, rfl⟩
    have hne : other ≠ .decimal := by
      rintro rfl
      exact Nat.lt_irrefl _ hlt
    obtain ⟨more, hmark⟩ := Form.exists_mark hne
    obtain ⟨front, u, rest, rfl, -⟩ := (Form.begins_zero hmark).mp hbegins
    exact hother _ rfl

/-- At most one form applies. -/
theorem Form.Applies.unique (h : form.Applies t) (ho : other.Applies t) : form = other := by
  have hrank : ∀ {form other : Form}, form.rank = other.rank → form = other := by
    intro form other heq
    cases form <;> cases other <;> first | rfl | cases heq
  rcases Nat.lt_trichotomy form.rank other.rank with hlt | heq | hgt
  · exact absurd h.1 (ho.2 form hlt)
  · exact hrank heq
  · exact absurd ho.1 (h.2 other hgt)

/-- The form of the numeral at the front is found. -/
theorem Form.Applies.radixOf_eq (h : form.Applies t) :
    radixOf t = (form.radix, form.mark.length) := by
  obtain ⟨found, hfound, hradix⟩ := exists_applies h.1.startsWithDigit
  rw [h.unique hfound, hradix]

/-- Digits of a numeral at the front are the first ones of the run. -/
theorem Form.Writes.exists_prefix_run (h : form.Writes digits front) (hstarts : front <+: t) :
    ∃ later, front.length = form.mark.length + later.length ∧
      DigitsOf form.radix digits later ∧ later <+: form.run t := by
  obtain ⟨-, before, later, rfl, hmark, hdigits⟩ := writes_iff.mp h
  obtain ⟨rest, rfl⟩ := hstarts
  have hlength := List.Forall₂.length_eq hmark
  refine ⟨later, by rw [List.length_append, hlength], hdigits, ?_⟩
  rw [run, ← hlength, List.append_assoc, List.drop_left,
    List.takeWhile_append_of_pos (exists_digitsOf_iff.mp ⟨digits, hdigits⟩)]
  exact List.prefix_append later _

/-- If a text starts with a numeral of a form, there is one with all digits of the run. -/
theorem Form.Begins.exists_run (h : form.Begins t) : ∃ digits front, front <+: t ∧
    form.Writes digits front ∧ front.length = form.mark.length + (form.run t).length := by
  obtain ⟨front, u, rest, rfl, hmark, hdigit⟩ := begins_iff.mp h
  have hlength := List.Forall₂.length_eq hmark
  have hrun : form.run (front ++ u :: rest) = u :: rest.takeWhile (isDigitIn form.radix) := by
    rw [run, ← hlength, List.drop_left, List.takeWhile_cons_of_pos hdigit]
  obtain ⟨digits, hdigits⟩ : ∃ digits, DigitsOf form.radix digits (form.run (front ++ u :: rest)) :=
    exists_digitsOf_iff.mpr fun _ hu => List.mem_takeWhile_imp hu
  refine ⟨digits, front ++ form.run (front ++ u :: rest), ?_, writes_iff.mpr ⟨?_, ?_⟩, ?_⟩
  · rw [hrun]
    refine (List.prefix_append_right_inj front).mpr (List.cons_prefix_cons.mpr ⟨rfl, ?_⟩)
    exact List.takeWhile_prefix _
  · rintro rfl
    rw [hrun] at hdigits
    cases hdigits
  · exact ⟨front, _, rfl, hmark, hdigits⟩
  · rw [List.length_append, hlength]

/-- The numeral at the front has all digits of the run. -/
theorem Form.Stands.run (h : form.Stands digits front t) :
    DigitsOf form.radix digits (form.run t) ∧
      front.length = form.mark.length + (form.run t).length := by
  obtain ⟨later, hlength, hdigits, hlater⟩ := h.writes.exists_prefix_run h.starts
  obtain ⟨others, other, hstarts, hwrites, hother⟩ := h.applies.1.exists_run
  have hle := h.longest others other hstarts hwrites
  obtain rfl := hlater.eq_of_length_le (by omega)
  exact ⟨hdigits, hlength⟩

/-- A text that starts with a decimal digit has a numeral at the front. -/
theorem exists_stands (h : StartsWithDigit t) :
    ∃ (form : Form) (digits : List ℕ) (front : Text), form.Stands digits front t := by
  obtain ⟨form, happlies, -⟩ := exists_applies h
  obtain ⟨digits, front, hstarts, hwrites, hlength⟩ := happlies.1.exists_run
  refine ⟨form, digits, front, happlies, hstarts, hwrites, fun others other ho hw => ?_⟩
  obtain ⟨later, hother, -, hlater⟩ := hw.exists_prefix_run ho
  have := hlater.length_le
  omega

/-- At most one numeral stands at the front. -/
theorem Form.Stands.unique (h : form.Stands digits front t) (ho : other.Stands others part t) :
    form = other ∧ digits = others ∧ front = part := by
  obtain rfl := h.applies.unique ho.applies
  obtain ⟨hdigits, hlength⟩ := h.run
  obtain ⟨hothers, hpart⟩ := ho.run
  refine ⟨rfl, hdigits.unique hothers, ?_⟩
  exact (List.prefix_of_prefix_length_le h.starts ho.starts (by omega)).eq_of_length (by omega)

/-- The numeral at the front is read. -/
theorem Form.Stands.parseUnsigned?_eq (h : form.Stands digits front t) :
    parseUnsigned? t = some ⟨false, digitsValue form.radix (form.run t), front.length⟩ := by
  obtain ⟨hdigits, hlength⟩ := h.run
  have hne : form.run t ≠ [] := by
    intro hnil
    rw [hnil] at hdigits
    cases hdigits
    exact h.writes.nonempty rfl
  rw [parseUnsigned?, h.applies.radixOf_eq]
  dsimp only
  rw [← Form.run, if_neg (by simpa using hne), hlength]

/-- Nothing is read exactly where no decimal digit stands. -/
theorem parseUnsigned?_eq_none_iff : parseUnsigned? t = none ↔ ¬ StartsWithDigit t := by
  constructor
  · intro hnone h
    obtain ⟨form, digits, front, hstands⟩ := exists_stands h
    rw [hstands.parseUnsigned?_eq] at hnone
    cases hnone
  · intro h
    have hradix : radixOf t = (10, 0) := by
      unfold radixOf
      split
      · exact absurd ⟨0x30, rfl, by decide, by decide⟩ h
      · rfl
    have hnone : t.takeWhile (isDigitIn 10) = [] := by
      cases t with
      | nil => rfl
      | cons u rest =>
        refine List.takeWhile_cons_of_neg fun hdigit => h ⟨u, rfl, ?_⟩
        exact isDigitIn_ten_iff.mp hdigit
    rw [parseUnsigned?, hradix]
    dsimp only
    rw [List.drop_zero, hnone]
    rfl

theorem SignAt.eq_append {sign : Text} (h : SignAt sign t rest) : t = sign ++ rest := by
  cases h <;> rfl

theorem exists_signAt (t : Text) : ∃ sign rest, SignAt sign t rest := by
  by_cases h : ∀ u ∈ t.head?, u ≠ 0x2B ∧ u ≠ 0x2D
  · exact ⟨[], t, .absent h⟩
  · push Not at h
    obtain ⟨u, hu, hsign⟩ := h
    obtain ⟨rest, rfl⟩ := List.head?_eq_some_iff.mp hu
    exact ⟨[u], rest, .present (or_iff_not_imp_left.mpr hsign)⟩

/-- Without a sign a numeral is not negative, and nothing is consumed in front of it. -/
theorem parseUnsigned?_unsigned (t : Text) :
    ((parseUnsigned? t).map fun p =>
      ⟨decide (([] : Text) = [0x2D]), p.magnitude, ([] : Text).length + p.consumed⟩) =
      parseUnsigned? t := by
  rw [parseUnsigned?]
  dsimp only
  split_ifs
  · rfl
  · simp

/-- Behind a sign a numeral is read as without one, and a minus sign makes it negative. -/
theorem SignAt.parseInteger?_eq {sign : Text} (h : SignAt sign t rest) :
    parseInteger? t = (parseUnsigned? rest).map fun p =>
      ⟨decide (sign = [0x2D]), p.magnitude, sign.length + p.consumed⟩ := by
  cases h with
  | @present u _ hu =>
    have hminus : decide ([u] = [0x2D]) = (u == 0x2D) := by
      simp [beq_eq_decide]
    rw [parseInteger?, if_pos hu.symm, hminus]
    simp only [List.length_singleton, Nat.add_comm]
  | absent hnone =>
    have hself : parseInteger? t = parseUnsigned? t := by
      cases t with
      | nil => rfl
      | cons u rest =>
        obtain ⟨hplus, hminus⟩ := hnone u rfl
        rw [parseInteger?, if_neg (not_or.mpr ⟨hminus, hplus⟩)]
    rw [hself, parseUnsigned?_unsigned]

/-- The value of the numeral at the front, if it is safe, is that of the number that is read. -/
theorem Form.Stands.toInt?_value (h : form.Stands digits front t)
    (hsafe : Numeral.value form.radix digits ≤ Double.maxSafe) (negative : Bool) (consumed : ℕ) :
    (Parsed.mk negative (digitsValue form.radix (form.run t)) consumed).value.toInt? =
      some (if negative then -(Numeral.value form.radix digits : ℤ)
        else Numeral.value form.radix digits) := by
  have hexact := (h.run.1.digitsValue form.radix_pos).resolve_right fun hboth =>
    Nat.not_lt.mpr hsafe hboth.2
  have hread := Double.toInt?_ofNat hsafe
  rw [Parsed.value]
  dsimp only
  rw [hexact]
  cases negative with
  | true =>
    rw [if_pos rfl, if_pos rfl]
    exact Double.toInt?_neg hread
  | false =>
    rw [if_neg Bool.false_ne_true, if_neg Bool.false_ne_true]
    exact hread

/-- What is made of the numeral at the front tells it. -/
theorem Form.Stands.tells (h : form.Stands digits front t) (sign : Text) :
    Parsed.Tells ⟨decide (sign = [0x2D]), digitsValue form.radix (form.run t),
      sign.length + front.length⟩ sign t := by
  refine ⟨form, digits, front, h, fun _ _ _ ho => ho.unique h, rfl, fun hsafe => ?_,
    fun hbeyond => ?_⟩
  · rw [h.toInt?_value hsafe]
    simp only [decide_eq_true_eq]
  · rcases h.run.1.digitsValue form.radix_pos with hexact | hboth
    · rwa [hexact]
    · exact hboth.1

/-- Nothing is read without a sign exactly where no decimal digit stands, and nothing with one
exactly where none stands behind the sign. Else the longest numeral of the first form is read that
there is, with the value that it writes as long as that is safe. No more is consumed than there
is. -/
theorem parse_longest (t : Text) :
    (parseUnsigned? t = none ↔ ¬ StartsWithDigit t) ∧
      (∀ p ∈ parseUnsigned? t, p.Tells [] t ∧ p.consumed ≤ t.length) ∧
      ∃ sign rest, SignAt sign t rest ∧ (parseInteger? t = none ↔ ¬ StartsWithDigit rest) ∧
        ∀ p ∈ parseInteger? t, p.Tells sign rest ∧ p.consumed ≤ t.length := by
  have htells : ∀ sign rest, t = sign ++ rest → ∀ p ∈ (parseUnsigned? rest).map fun p =>
      (⟨decide (sign = [0x2D]), p.magnitude, sign.length + p.consumed⟩ : Parsed),
        p.Tells sign rest ∧ p.consumed ≤ t.length := by
    rintro sign rest rfl p hp
    obtain ⟨q, hq, rfl⟩ := Option.map_eq_some_iff.mp hp
    have hdigit : StartsWithDigit rest := by
      by_contra hnone
      rw [parseUnsigned?_eq_none_iff.mpr hnone] at hq
      cases hq
    obtain ⟨form, digits, front, hstands⟩ := exists_stands hdigit
    rw [hstands.parseUnsigned?_eq] at hq
    cases hq
    refine ⟨hstands.tells sign, ?_⟩
    rw [List.length_append]
    exact Nat.add_le_add_left hstands.starts.length_le _
  obtain ⟨sign, rest, hsign⟩ := exists_signAt t
  refine ⟨parseUnsigned?_eq_none_iff, ?_, sign, rest, hsign, ?_, ?_⟩
  · rw [← parseUnsigned?_unsigned]
    exact htells [] t rfl
  · rw [hsign.parseInteger?_eq, Option.map_eq_none_iff, parseUnsigned?_eq_none_iff]
  · rw [hsign.parseInteger?_eq]
    exact htells sign rest hsign.eq_append

/-- `8` is no octal digit, so `08` is decimal, and `z` is no hexadecimal one, so `-0x1Fz` is read in
front of it. -/
theorem parse_longest_mixed :
    ((⟨false, 8, 2⟩ : Parsed) ∈ parseUnsigned? (Text.ofString "08") ∧
        Parsed.Tells ⟨false, 8, 2⟩ [] (Text.ofString "08")) ∧
      (⟨true, 31, 5⟩ : Parsed) ∈ parseInteger? (Text.ofString "-0x1Fz") ∧
      (Parsed.mk true 31 5).value.toInt? = some (-31) := by
  have hunsigned : (⟨false, 8, 2⟩ : Parsed) ∈ parseUnsigned? (Text.ofString "08") := by decide
  have hsigned : (⟨true, 31, 5⟩ : Parsed) ∈ parseInteger? (Text.ofString "-0x1Fz") := by decide
  obtain ⟨-, -, sign, rest, hsign, -, hread⟩ := parse_longest (Text.ofString "-0x1Fz")
  obtain ⟨form, digits, front, hstands, -, -, hvalue, -⟩ := (hread _ hsigned).1
  refine ⟨⟨hunsigned, ((parse_longest _).2.1 _ hunsigned).1⟩, hsigned, ?_⟩
  obtain ⟨rfl, rfl⟩ : sign = [0x2D] ∧ rest = Text.ofString "0x1Fz" := by
    have hwhole : Text.ofString "-0x1Fz" = 0x2D :: Text.ofString "0x1Fz" := by decide
    rw [hwhole] at hsign
    cases hsign with
    | present => exact ⟨rfl, rfl⟩
    | absent hnone => exact absurd rfl (hnone 0x2D rfl).2
  obtain rfl : form = .hexadecimal := by
    have hradix : (form.radix, form.mark.length) = (16, 2) := by
      rw [← hstands.applies.radixOf_eq]
      decide
    cases form with
    | hexadecimal => rfl
    | binary | octal | decimal => cases hradix
  have hdigits : DigitsOf 16 [1, 15] (Form.run .hexadecimal (Text.ofString "0x1Fz")) :=
    .cons (by decide) (.cons (by decide) .nil)
  obtain rfl := hstands.run.1.unique hdigits
  exact hvalue (by decide)

end TextUnits.Ascii
