import TextUnits.Proofs.Format.Runs
import TextUnits.Proofs.Number.Magnitude
import TextUnits.Proofs.Number.Radix
import Mathlib.Algebra.Order.Floor.Semifield
import Mathlib.Data.Rat.Floor

/-!
# Fields of integers

The field of an integer has a sign, a radix mark and digits with separators among them. Blanks fill
it up on either side, and zeros between mark and digits. Without blanks and separators it is a
numeral of the integer, reduced to the bits of the directive, whatever the flags are. The separators
stand between groups of digits counted from the right, unless zeros fill the field up. A radix
conversion of zero under precision 0 has no numeral: its field is nothing but what fills it up.
-/

namespace TextUnits.Format

open Numeral

/-- How a letter writes integers. -/
structure IntegerStyle where
  /-- Radix of the digits. -/
  radix : Nat
  /-- Digits of a group. -/
  group : Nat
  /-- Whether the integer is reduced as two's complement. -/
  signed : Bool
  /-- What the flag for it puts in front of the digits. -/
  mark : Text
  deriving DecidableEq

/-- The letters that write integers. -/
def integerStyles : List (Char × IntegerStyle) :=
  [('d', ⟨10, 3, true, []⟩), ('i', ⟨10, 3, true, []⟩), ('u', ⟨10, 3, false, []⟩),
   ('x', ⟨16, 4, false, Text.ofString "0x"⟩), ('X', ⟨16, 4, false, Text.ofString "0X"⟩),
   ('o', ⟨8, 3, false, Text.ofString "0"⟩), ('b', ⟨2, 8, false, Text.ofString "0b"⟩),
   ('B', ⟨2, 8, false, Text.ofString "0B"⟩)]

/-- The integer towards zero from the number with this sign, significand and power. -/
def cutOff (negative : Bool) (significand power : ℕ) : ℤ :=
  let whole : ℕ := ⌊(significand : ℚ) * 2 ^ ((power : ℤ) - 1074)⌋₊
  if negative then -(whole : ℤ) else whole

/-- An argument that is an integer or a finite number, and the integer that it is cut off to. -/
inductive Argument.CutTo : Argument → ℤ → Prop where
  /-- An integer is left as it is. -/
  | integer (n : ℤ) : CutTo (.integer n) n
  /-- A number loses its fraction. -/
  | number {x : Double} {negative : Bool} {significand power : ℕ}
      (h : x.form = .finite negative significand power) :
      CutTo (.number x) (cutOff negative significand power)

/-- The integer of so many bits that agrees with another on them, as two's complement or without
sign. -/
structure Reduces (bits : ℕ) (signed : Bool) (n value : ℤ) : Prop where
  /-- They agree on the bits. -/
  dvd_sub : (2 ^ bits : ℤ) ∣ value - n
  /-- It is none too small. -/
  least : (if signed then -2 ^ (bits - 1) else 0) ≤ value
  /-- And none too great. -/
  most : value < if signed then 2 ^ (bits - 1) else 2 ^ bits

/-- A separator without letters, digits, signs and blanks. -/
def Plain (separator : Text) : Prop :=
  ∀ u ∈ separator, Ascii.digitValue? u = none ∧ u ≠ 0x20 ∧ u ≠ 0x2B ∧ u ≠ 0x2D

instance (separator : Text) : Decidable (Plain separator) := List.decidableBAll _ separator

/-- What is left of a text without blanks and separators. -/
def bare (separator t : Text) : Text := t.filter fun u => u != 0x20 && !separator.contains u

/-- Digits with a separator in front of each group of so many, counted from the right. In front of
the first separator there may be fewer. -/
def Apart (size : ℕ) (separator digits t : Text) : Prop :=
  ∃ (first : Text) (groups : List Text), 0 < first.length ∧ first.length ≤ size ∧
    (∀ g ∈ groups, g.length = size) ∧ digits = first ++ groups.flatten ∧
    t = first ++ groups.flatMap (separator ++ ·)

/-- The radix mark of an integer, if its flag asks for one. -/
def IntegerStyle.markOf (style : IntegerStyle) (flags : Flags) (value : ℤ) : Text :=
  if flags.alternate = true ∧ value ≠ 0 then style.mark else []

/-- Zeros fill a field up, and not blanks. -/
def Flags.FillsZeros (flags : Flags) : Prop := flags.zeroPad = true ∧ flags.leftJustify = false

instance (flags : Flags) : Decidable flags.FillsZeros :=
  inferInstanceAs (Decidable (flags.zeroPad = true ∧ flags.leftJustify = false))

/-- A field that shows an integer in the style of a letter. -/
structure Shows (style : IntegerStyle) (r : Resolved) (separator : Text) (value : ℤ)
    (field : Text) : Prop where
  /-- Without blanks and separators it is a sign, the radix mark, and a numeral that writes the
  integer. -/
  numeral : ∃ sign digits n, sign ∈ [[], [0x2B], [0x2D]] ∧
    bare separator field = sign ++ style.markOf r.flags value ++ digits ∧
    Spells style.radix (r.precision.getD 0) n digits ∧
    value = if sign = [0x2D] then -(n : ℤ) else n
  /-- Separators that are asked for stand between the groups of its digits. -/
  apart : r.flags.group = true → ¬ r.flags.FillsZeros → ∃ before behind sign digits t,
    sign ∈ [[], [0x20], [0x2B], [0x2D]] ∧ (∀ u ∈ digits, Ascii.isDigitIn style.radix u = true) ∧
    Apart style.group separator digits t ∧
    field = Text.fill before 0x20 ++ (sign ++ style.markOf r.flags value ++ t) ++
      Text.fill behind 0x20

variable {style : IntegerStyle} {separator digits t front later : Text} {r : Resolved}
  {flags : Flags} {value n : ℤ} {c : Char} {d : Directive}

theorem bitsOf_pos (wide : Bool) : 0 < bitsOf wide := by
  unfold bitsOf
  split_ifs <;> decide

/-- Reducing to a number of bits. -/
theorem reduces_wrap {bits : ℕ} (hbits : 0 < bits) (signed : Bool) (n : ℤ) :
    Reduces bits signed n (wrap bits signed n) := by
  have hpow : Nat.pow 2 bits = 2 * 2 ^ (bits - 1) := by
    rw [← pow_succ', Nat.sub_add_cancel hbits]
    rfl
  have hcast : ((Nat.pow 2 bits : ℕ) : ℤ) = 2 ^ bits := by
    exact_mod_cast rfl
  have hhalf : (2 : ℤ) ^ bits = 2 * 2 ^ (bits - 1) := by
    rw [← pow_succ', Nat.sub_add_cancel hbits]
  have hpos : (0 : ℤ) < 2 ^ bits := by positivity
  cases signed with
  | false =>
    have hwrap : wrap bits false n = n % 2 ^ bits := by
      rw [← hcast]
      rfl
    rw [hwrap]
    exact ⟨⟨-(n / 2 ^ bits), by rw [Int.emod_def]; ring⟩, Int.emod_nonneg n hpos.ne',
      Int.emod_lt_of_pos n hpos⟩
  | true =>
    have hwrap : wrap bits true n = n.bmod (Nat.pow 2 bits) := rfl
    have hlow := Int.le_bmod (x := n) (m := Nat.pow 2 bits) (by omega)
    have hhigh := Int.bmod_lt (x := n) (m := Nat.pow 2 bits) (by omega)
    rw [hcast, hhalf] at hlow hhigh
    rw [hwrap]
    refine ⟨?_, ?_, ?_⟩
    · rw [← hcast]
      exact Int.dvd_bmod_sub_self
    · rw [if_pos rfl]
      omega
    · rw [if_pos rfl]
      omega

/-- The parts of a finite number give what it is cut off to. -/
theorem div_ratio (significand power : ℕ) :
    (Double.ratio significand power).1 / (Double.ratio significand power).2 =
      ⌊(significand : ℚ) * 2 ^ ((power : ℤ) - 1074)⌋₊ := by
  rw [← Double.ratio_eq, Nat.floor_div_eq_div]

/-- The integer of an argument is the one that it is cut off to. -/
theorem Argument.CutTo.integerOf_eq {a : Argument} (h : a.CutTo n) (letter : UInt16) :
    integerOf letter a = .ok n := by
  cases h with
  | integer => rfl
  | @number x negative significand power hform =>
    have htrunc : x.trunc? = some (cutOff negative significand power) := by
      rw [Double.trunc?, hform]
      dsimp only
      rw [div_ratio]
      rfl
    rw [integerOf, htrunc]

/-- The sizes of a directive change none of its flags but the one for filling on the right. -/
theorem resolve_flags {s left : Supply} (h : resolve d s = .ok (r, left)) :
    r.wide = d.wide ∧ ∃ right, r.flags = { d.flags with leftJustify := right } := by
  have hright : ∀ width : ℤ, ∃ right,
      (if width < 0 then { d.flags with leftJustify := true } else d.flags) =
        { d.flags with leftJustify := right } := by
    intro width
    split_ifs
    · exact ⟨true, rfl⟩
    · exact ⟨d.flags.leftJustify, rfl⟩
  unfold resolve at h
  cases hw : sizeOf d.width s with
  | error fault =>
    rw [hw] at h
    cases h
  | ok found =>
    obtain ⟨width, behind⟩ := found
    rw [hw] at h
    cases hd : d.precision with
    | none =>
      rw [hd] at h
      cases h
      exact ⟨rfl, hright width⟩
    | some size =>
      rw [hd] at h
      cases hp : sizeOf size behind with
      | error fault =>
        simp only [bind, Except.bind, hp] at h
        cases h
      | ok found =>
        simp only [bind, Except.bind, hp] at h
        cases h
        exact ⟨rfl, hright width⟩

theorem resolve_eq {s left : Supply} (h : resolve d s = .ok (r, left)) :
    r.wide = d.wide ∧ r.flags.metric = d.flags.metric := by
  obtain ⟨hwide, right, hflags⟩ := resolve_flags h
  exact ⟨hwide, by rw [hflags]⟩

/-- Groups of digits are set apart. -/
theorem apart_grouped {size : ℕ} (hs : 0 < size) (hne : digits ≠ []) :
    Apart size separator digits (grouped size separator digits) := by
  fun_induction grouped size separator digits with
  | case1 digits hshort =>
    exact ⟨digits, [], List.length_pos_iff.mpr hne, by omega, by simp, by simp, by simp⟩
  | case2 digits hlong ih =>
    have hfront : digits.take (digits.length - size) ≠ [] := by
      rw [← List.length_pos_iff, List.length_take]
      omega
    obtain ⟨first, groups, hpos, hle, hgroups, hdigits, htext⟩ := ih hfront
    refine ⟨first, groups ++ [digits.drop (digits.length - size)], hpos, hle, ?_, ?_, ?_⟩
    · rw [List.forall_mem_append, List.forall_mem_singleton, List.length_drop]
      exact ⟨hgroups, by omega⟩
    · rw [List.flatten_append, List.flatten_singleton, ← List.append_assoc, ← hdigits,
        List.take_append_drop]
    · rw [htext, List.flatMap_append, List.flatMap_singleton, List.append_assoc, List.append_assoc]

theorem bare_append (separator front later : Text) :
    bare separator (front ++ later) = bare separator front ++ bare separator later :=
  List.filter_append ..

/-- Blanks are left out. -/
theorem bare_blanks (separator : Text) (count : ℕ) :
    bare separator (Text.fill count 0x20) = [] := by
  rw [bare, List.filter_eq_nil_iff]
  intro u hu
  rw [List.eq_of_mem_replicate hu]
  simp

/-- Digits and letters are left in. -/
theorem bare_eq_self (h : Plain separator) (ht : ∀ u ∈ t, Ascii.digitValue? u ≠ none) :
    bare separator t = t := by
  rw [bare, List.filter_eq_self]
  intro u hu
  have hblank : u ≠ 0x20 := by
    rintro rfl
    exact ht _ hu (by decide)
  have hseparator : u ∉ separator := fun hm => ht u hu (h u hm).1
  simp [hblank, hseparator]

/-- Digits in a radix are left in. -/
theorem bare_digits {radix : ℕ} (h : Plain separator)
    (ht : ∀ u ∈ t, Ascii.isDigitIn radix u = true) : bare separator t = t := by
  refine bare_eq_self h fun u hu hnone => ?_
  have hdigit := ht u hu
  rw [Ascii.isDigitIn, hnone] at hdigit
  cases hdigit

/-- A blank for a sign is left out, and other signs are left in. -/
theorem bare_sign (h : Plain separator) {sign : Text}
    (hs : sign ∈ [[], [0x20], [0x2B], [0x2D]]) :
    bare separator sign ∈ [[], [0x2B], [0x2D]] ∧
      (bare separator sign = [0x2D] ↔ sign = [0x2D]) := by
  have hplus : (0x2B : UInt16) ∉ separator := fun hm => (h _ hm).2.2.1 rfl
  have hminus : (0x2D : UInt16) ∉ separator := fun hm => (h _ hm).2.2.2 rfl
  simp only [List.mem_cons, List.not_mem_nil, or_false] at hs
  rcases hs with rfl | rfl | rfl | rfl <;> simp [bare, hplus, hminus]

/-- Separators are left out. -/
theorem Apart.bare_eq {size : ℕ} (h : Apart size separator digits t) :
    bare separator t = bare separator digits := by
  obtain ⟨first, groups, -, -, -, rfl, rfl⟩ := h
  have hnil : bare separator separator = [] := by
    rw [bare, List.filter_eq_nil_iff]
    intro u hu
    simp [hu]
  have hgroups : bare separator (groups.flatMap (separator ++ ·)) =
      bare separator groups.flatten := by
    induction groups with
    | nil => rfl
    | cons g groups ih =>
      rw [List.flatMap_cons, List.flatten_cons, bare_append, bare_append, bare_append, hnil, ih,
        List.nil_append]
  rw [bare_append, bare_append, hgroups]

/-- The digits of a natural, with what is set apart of them where it is asked for. -/
theorem exists_integerDigits (hlow : 2 ≤ style.radix) (hhigh : style.radix ≤ 36)
    (hgroup : style.group = groupSize style.radix) (n : ℕ) (upper : Bool) (flags : Flags)
    (precision : Option ℕ) (separators : Separators) :
    ∃ digits, Spells style.radix (precision.getD 0) n digits ∧
      if flags.group = true then
        Apart style.group separators.group digits
          (integerDigits style.radix n upper flags precision separators)
      else integerDigits style.radix n upper flags precision separators = digits := by
  have hplain := (spells_text hlow hhigh n).padLeft (precision.getD 0)
  have hcased : Spells style.radix (precision.getD 0) n
      (if upper then Ascii.toUpper (padLeft (precision.getD 0) (text style.radix n))
        else padLeft (precision.getD 0) (text style.radix n)) := by
    split_ifs
    · exact hplain.upper
    · exact hplain
  have hsize : 0 < style.group := by
    rw [hgroup, groupSize]
    split_ifs <;> decide
  refine ⟨_, hcased, ?_⟩
  unfold integerDigits
  dsimp only
  rw [← hgroup]
  have hlength := hcased.length_ge
  generalize (if upper then _ else _ : Text) = digits at hlength ⊢
  split_ifs with hg
  · exact apart_grouped hsize (List.length_pos_iff.mp (by omega))
  · rfl

/-- A field is as wide as asked for, or as wide as its content. -/
theorem length_layout (f : Field) (width : ℕ) (flags : Flags) :
    (f.layout width flags).length = max width f.content.length := by
  unfold Field.layout Field.content Text.fill
  split_ifs <;> simp only [List.length_append, List.length_replicate] <;> omega

theorem layout_zero (f : Field) (flags : Flags) : f.layout 0 flags = f.content := by
  unfold Field.layout Field.content
  dsimp only
  rw [Nat.zero_sub, Text.fill, Text.fill, List.replicate_zero, List.replicate_zero,
    List.append_nil, List.append_nil, List.nil_append, ite_self, ite_self]

/-- Fills on either side. -/
theorem exists_layout (f : Field) (width : ℕ) {flags : Flags} (h : ¬ flags.FillsZeros) :
    ∃ before behind, f.layout width flags =
      Text.fill before 0x20 ++ f.content ++ Text.fill behind 0x20 := by
  unfold Field.layout
  dsimp only
  split_ifs with hleft hzero
  · exact ⟨0, _, rfl⟩
  · rw [Flags.FillsZeros, hzero] at h
    exact absurd ⟨rfl, Bool.eq_false_iff.mpr hleft⟩ h
  · exact ⟨_, 0, (List.append_nil _).symm⟩

/-- A field without content is nothing but what fills it up. -/
theorem layout_empty (width : ℕ) (flags : Flags) :
    Field.layout ⟨[], [], []⟩ width flags =
      Text.fill width (if flags.FillsZeros then 0x30 else 0x20) := by
  by_cases hleft : flags.leftJustify = true <;> by_cases hzero : flags.zeroPad = true <;>
    simp [Field.layout, Flags.FillsZeros, Field.content, hleft, hzero]

/-- Without blanks and separators a field has nothing but zeros between its lead and its body. -/
theorem exists_bare_layout (h : Plain separator) (f : Field) (width : ℕ) (flags : Flags) :
    ∃ count, bare separator (f.layout width flags) =
      bare separator f.lead ++ (Text.fill count 0x30 ++ bare separator (f.body ++ f.tail)) := by
  unfold Field.layout Field.content
  dsimp only
  split_ifs with hleft hzero
  · refine ⟨0, ?_⟩
    rw [bare_append, bare_blanks, List.append_nil, List.append_assoc, bare_append]
    rfl
  · refine ⟨width - (f.lead ++ f.body ++ f.tail).length, ?_⟩
    have hzeros : ∀ u ∈ Text.fill (width - (f.lead ++ f.body ++ f.tail).length) 0x30,
        Ascii.digitValue? u ≠ none := by
      intro u hu
      rw [List.eq_of_mem_replicate hu]
      decide
    rw [List.append_assoc, List.append_assoc, bare_append, bare_append, bare_eq_self h hzeros]
  · refine ⟨0, ?_⟩
    rw [bare_append, bare_blanks, List.append_assoc, bare_append]
    rfl

/-- What the letters for integers stand for. -/
theorem integerStyles_spec : ∀ entry ∈ integerStyles,
    (2 ≤ entry.2.radix ∧ entry.2.radix ≤ 36) ∧ entry.2.group = groupSize entry.2.radix ∧
      (entry.2.mark.all fun u => (Ascii.digitValue? u).isSome) = true ∧
      (conversionOf (Text.unit entry.1) = .decimal entry.2.signed ∧ entry.2.radix = 10 ∧
          entry.2.mark = [] ∨
        ∃ upper, conversionOf (Text.unit entry.1) = .radix entry.2.radix upper ∧
          entry.2.radix ≠ 10 ∧ entry.2.signed = false ∧
          entry.2.mark = radixMark entry.2.radix upper) := by
  decide

theorem conversionOf_ne_literal (h : (c, style) ∈ integerStyles) :
    conversionOf (Text.unit c) ≠ .literal := by
  obtain ⟨-, -, -, ⟨hdecimal, -⟩ | ⟨upper, hradix, -⟩⟩ := integerStyles_spec (c, style) h
  · exact fun hliteral => by cases hdecimal.symm.trans hliteral
  · exact fun hliteral => by cases hradix.symm.trans hliteral

/-- The sign of a number is a minus exactly when it is negative. -/
theorem signOf_spec (negative : Bool) (flags : Flags) :
    signOf negative flags ∈ [[], [0x20], [0x2B], [0x2D]] ∧
      (signOf negative flags = [0x2D] ↔ negative = true) := by
  unfold signOf
  split_ifs <;> simp_all

/-- A field of sign, mark and digits shows the integer in any width. -/
theorem shows_layout (hstyle : (c, style) ∈ integerStyles) {separators : Separators}
    (hplain : Plain separators.group) {sign : Text} (hsign : sign ∈ [[], [0x20], [0x2B], [0x2D]])
    (hminus : sign = [0x2D] ↔ value < 0) (upper : Bool) :
    Shows style r separators.group value
      (Field.layout ⟨sign ++ style.markOf r.flags value,
        integerDigits style.radix value.natAbs upper r.flags r.precision separators, []⟩
        r.width r.flags) := by
  obtain ⟨⟨hlow, hhigh⟩, hgroup, hmark, -⟩ := integerStyles_spec (c, style) hstyle
  obtain ⟨digits, hspells, hapart⟩ := exists_integerDigits hlow hhigh hgroup value.natAbs upper
    r.flags r.precision separators
  have hbody : bare separators.group
      (integerDigits style.radix value.natAbs upper r.flags r.precision separators) = digits := by
    have hdigits := bare_digits hplain hspells.digits
    split_ifs at hapart
    · rw [hapart.bare_eq, hdigits]
    · rw [hapart, hdigits]
  have hmarkOf : bare separators.group (style.markOf r.flags value) =
      style.markOf r.flags value := by
    refine bare_eq_self hplain ?_
    rw [IntegerStyle.markOf]
    split_ifs
    · exact fun u hu => Option.isSome_iff_ne_none.mp (List.all_eq_true.mp hmark u hu)
    · exact fun u hu => absurd hu List.not_mem_nil
  generalize hf : Field.mk (sign ++ style.markOf r.flags value)
    (integerDigits style.radix value.natAbs upper r.flags r.precision separators) [] = f
  constructor
  · obtain ⟨count, hcount⟩ := exists_bare_layout hplain f r.width r.flags
    obtain ⟨hmem, hiff⟩ := bare_sign hplain hsign
    refine ⟨_, Text.fill count 0x30 ++ digits, value.natAbs, hmem, ?_, ?_, ?_⟩
    · rw [hcount, ← hf]
      dsimp only
      rw [bare_append, hmarkOf, List.append_nil, hbody]
    · -- Zeros that fill the field up cannot be told from the digits, and change nothing.
      exact (hspells.fill count).mono (Nat.le_max_left _ _)
    · have hnegative := hiff.trans hminus
      split_ifs with hsigned
      · rw [hnegative] at hsigned
        omega
      · rw [hnegative] at hsigned
        omega
  · intro hg hfills
    obtain ⟨before, behind, hlayout⟩ := exists_layout f r.width hfills
    rw [if_pos hg] at hapart
    refine ⟨before, behind, sign, digits, _, hsign, hspells.digits, hapart, ?_⟩
    rw [hlayout, Field.content, ← hf, List.append_nil]

/-- What an integer conversion writes in any width. -/
theorem exists_field (hstyle : (c, style) ∈ integerStyles) (hmetric : r.flags.metric = 0)
    {a : Argument} (ha : integerOf (Text.unit c) a = .ok n) (separators : Separators) :
    ∃ f : Field,
      (∀ width, valuePiece (conversionOf (Text.unit c)) (Text.unit c) { r with width := width }
        separators a = .ok (.text (f.layout width r.flags))) ∧
      if style.radix ≠ 10 ∧ wrap (bitsOf r.wide) style.signed n = 0 ∧ r.precision = some 0 then
        f = ⟨[], [], []⟩
      else ∃ sign upper, sign ∈ [[], [0x20], [0x2B], [0x2D]] ∧
        (sign = [0x2D] ↔ wrap (bitsOf r.wide) style.signed n < 0) ∧
        f = ⟨sign ++ style.markOf r.flags (wrap (bitsOf r.wide) style.signed n),
          integerDigits style.radix (wrap (bitsOf r.wide) style.signed n).natAbs upper r.flags
            r.precision separators, []⟩ := by
  obtain ⟨-, -, -, ⟨hdecimal, hten, hmark⟩ | ⟨upper, hradix, hten, hsigned, hmark⟩⟩ :=
    integerStyles_spec (c, style) hstyle
  · generalize hvalue : wrap (bitsOf r.wide) style.signed n = value
    refine ⟨decimalField value r.flags r.precision separators, fun width => ?_, ?_⟩
    · rw [hdecimal]
      dsimp only [valuePiece, fieldOf]
      rw [ha]
      simp only [bind, Except.bind, integerField, hmetric, hvalue]
      rfl
    · obtain ⟨hmem, hminus⟩ := signOf_spec (value < 0) r.flags
      rw [decide_eq_true_iff] at hminus
      rw [if_neg (fun h => h.1 hten)]
      refine ⟨signOf (value < 0) r.flags, false, hmem, hminus, ?_⟩
      rw [IntegerStyle.markOf, hmark, ite_self, List.append_nil, hten, decimalField]
  · have hpos : 0 ≤ wrap (bitsOf r.wide) style.signed n := by
      rw [hsigned]
      exact (reduces_wrap (bitsOf_pos r.wide) false n).least
    generalize hvalue : wrap (bitsOf r.wide) style.signed n = value at hpos
    refine ⟨radixField value.toNat style.radix upper r.flags r.precision separators,
      fun width => ?_, ?_⟩
    · rw [hradix]
      dsimp only [valuePiece, fieldOf]
      rw [ha]
      simp only [bind, Except.bind, ← hsigned, hvalue]
      rfl
    · have hzero : value.toNat = 0 ↔ value = 0 := by omega
      have habs : value.toNat = value.natAbs := by omega
      unfold radixField
      simp only [Ne, hzero]
      by_cases hempty : value = 0 ∧ r.precision = some 0
      · rw [if_pos ⟨hten, hempty⟩, if_pos hempty]
      · rw [if_neg fun h => hempty h.2, if_neg hempty]
        refine ⟨[], upper, List.mem_cons_self, ⟨nofun, fun h => by omega⟩, ?_⟩
        rw [IntegerStyle.markOf, hmark, habs]
        rfl

/-- A directive writes what its conversion makes of the argument behind its sizes. -/
theorem pieceOf_value {letter : UInt16} {separators : Separators} {s : Supply} {taken : ℕ}
    {a : Argument} {more : List Argument} (hresolve : resolve d s = .ok (r, ⟨taken, a :: more⟩))
    (hliteral : conversionOf letter ≠ .literal)
    (h : valuePiece (conversionOf letter) letter r separators a = .ok (.text t)) (position : ℕ) :
    pieceOf d letter separators position s = .ok (.text t, ⟨taken + 1, more⟩) := by
  rw [pieceOf_eq, hresolve]
  simp only [bind, Except.bind, if_neg hliteral, Supply.take, h]
  rfl

/-- What a directive alone writes is the formatted text. -/
theorem format_directive {letter : UInt16} {separators : Separators} {args : List Argument}
    {left : Supply} {field : Text} (hparse : Directive.parse t = (d, []))
    (hletter : d.conversion = some letter)
    (h : pieceOf d letter separators 0 ⟨0, args⟩ = .ok (.text field, left)) :
    format separators (0x25 :: t) args = .ok field := by
  have houtput : outputOf separators (0x25 :: t) args = ⟨[.text field], none⟩ := by
    rw [outputOf, output_directive, hparse]
    dsimp only
    rw [hletter]
    dsimp only
    rw [h]
    dsimp only
    rw [output_eq]
    rfl
  rw [format_eq, houtput]
  exact congrArg Except.ok (List.append_nil field)

/-- An integer conversion without scaling writes any integer or finite number, cut off towards zero
and reduced to 32 bits, or to 64 for a wide directive. Its field is as wide as asked for, or as the
same directive writes it in no width. It shows the reduced integer under all flags and any plain
separator, but for a radix conversion of zero under precision 0: that has no digits of its own, and
its field is made of blanks, or of zeros where these fill up. -/
theorem pieceOf_integer (hstyle : (c, style) ∈ integerStyles) (hmetric : d.flags.metric = 0)
    {separators : Separators} (hplain : Plain separators.group) {s : Supply} {taken : ℕ}
    {a : Argument} {more : List Argument} (hresolve : resolve d s = .ok (r, ⟨taken, a :: more⟩))
    (ha : a.CutTo n) :
    ∃ value natural field, Reduces (if d.wide then 64 else 32) style.signed n value ∧
      (∀ position, pieceOf d (Text.unit c) separators position s =
        .ok (.text field, ⟨taken + 1, more⟩)) ∧
      (∀ t args, Directive.parse t = (d, []) → d.conversion = some (Text.unit c) →
        s = ⟨0, args⟩ → format separators (0x25 :: t) args = .ok field) ∧
      valuePiece (conversionOf (Text.unit c)) (Text.unit c) { r with width := 0 } separators a =
        .ok (.text natural) ∧
      field.length = max r.width natural.length ∧
      if style.radix ≠ 10 ∧ value = 0 ∧ r.precision = some 0 then
        natural = [] ∧ field = Text.fill r.width (if r.flags.FillsZeros then 0x30 else 0x20)
      else Shows style r separators.group value field := by
  obtain ⟨hwide, hscaled⟩ := resolve_eq hresolve
  obtain ⟨f, hvalue, hf⟩ := exists_field hstyle (hscaled.trans hmetric)
    (ha.integerOf_eq (Text.unit c)) separators
  have hreduces := reduces_wrap (bitsOf_pos r.wide) style.signed n
  have hpiece : ∀ position, pieceOf d (Text.unit c) separators position s =
      .ok (.text (f.layout r.width r.flags), ⟨taken + 1, more⟩) := by
    intro position
    have hliteral := conversionOf_ne_literal hstyle
    have hown := hvalue r.width
    rw [pieceOf_eq, hresolve]
    simp only [bind, Except.bind, if_neg hliteral, Supply.take, hown]
    rfl
  refine ⟨wrap (bitsOf r.wide) style.signed n, f.layout 0 r.flags, f.layout r.width r.flags,
    ?_, hpiece, ?_, hvalue 0, ?_, ?_⟩
  · rw [← hwide]
    exact hreduces
  · rintro t args hparse hletter rfl
    exact format_directive hparse hletter (hpiece 0)
  · rw [length_layout, length_layout, Nat.zero_max]
  · by_cases hempty : style.radix ≠ 10 ∧ wrap (bitsOf r.wide) style.signed n = 0 ∧
      r.precision = some 0
    · rw [if_pos hempty] at hf ⊢
      rw [hf, layout_empty, layout_empty]
      exact ⟨rfl, rfl⟩
    · rw [if_neg hempty] at hf ⊢
      obtain ⟨sign, upper, hsign, hminus, rfl⟩ := hf
      exact shows_layout hstyle hplain hsign hminus upper

/-- The number -1234.9 under `%'8.5d` is cut off, has a zero in front for its precision, and keeps
its separator in front of the last three digits. -/
theorem pieceOf_integer_grouped :
    format Separators.default (Text.ofString "%'8.5d") [.number ⟨0xC0934B999999999A⟩] =
        .ok (Text.ofString " -01,234") ∧
      Shows ⟨10, 3, true, []⟩ ⟨{ Flags.none with group := true }, 8, some 5, false⟩ [0x2C] (-1234)
        (Text.ofString " -01,234") := by
  have hcut : Argument.CutTo (.number ⟨0xC0934B999999999A⟩) (-1234) := by
    have hwhole : cutOff true 5431147636562330 1032 = -1234 := by
      rw [cutOff, ← div_ratio]
      decide
    rw [← hwhole]
    exact .number (by decide)
  have hformat : format Separators.default (Text.ofString "%'8.5d") [.number ⟨0xC0934B999999999A⟩] =
      .ok (Text.ofString " -01,234") := eq_ok_of_toOption (by decide +kernel)
  have hstyle : ('d', ⟨10, 3, true, []⟩) ∈ integerStyles := by decide
  have hplain : Plain Separators.default.group := by decide
  let d : Directive :=
    ⟨{ Flags.none with group := true }, .number 8, some (.number 5), false, some 0x64⟩
  have hresolve : resolve d ⟨0, [.number ⟨0xC0934B999999999A⟩]⟩ =
      .ok (⟨{ Flags.none with group := true }, 8, some 5, false⟩,
        ⟨0, [.number ⟨0xC0934B999999999A⟩]⟩) := rfl
  obtain ⟨value, natural, field, (hreduces : Reduces 32 true (-1234) value), -, hfield, -, -,
    hshows⟩ := pieceOf_integer hstyle rfl hplain hresolve hcut
  have hvalue : value = -1234 := by
    obtain ⟨⟨k, hk⟩, hleast, hmost⟩ := hreduces
    norm_num at hk hleast hmost
    omega
  have hsame := (hfield (Text.ofString "'8.5d") _ (by decide +kernel) rfl rfl).symm.trans hformat
  rw [Except.ok.injEq] at hsame
  rw [hvalue, hsame] at hshows
  exact ⟨hformat, hshows⟩

/-- Under `%05.0x` zero has a field of digits, all of them zeros that fill it up. -/
theorem exists_digit_of_zero : ∃ field,
    format Separators.default (Text.ofString "%05.0x") [.number (Double.zero false)] = .ok field ∧
      ∃ u ∈ field, Ascii.isDigitIn 16 u = true :=
  ⟨Text.ofString "00000", eq_ok_of_toOption (by decide +kernel), by decide⟩

end TextUnits.Format
