import TextUnits.Proofs.Format.Segments
import TextUnits.Proofs.Number.Rounded
import TextUnits.Proofs.Number.Reading
import TextUnits.Proofs.Scan.Within
import Mathlib.Data.List.Induction
import Mathlib.Data.List.Infix

/-!
# Directives follow the grammar

What stands behind a `%` is told part by part: flags and a zero, a width, a precision, a length
modifier and the unit of a conversion, each as long as it can be. Every text has exactly one
spelling like this, and what is read is what that spelling means. A width or precision is rounded
to the nearest number at every digit, so it is the value that is written as long as that is a safe
natural, and infinite if it grows beyond all numbers.
-/

namespace TextUnits.Format

/-- Units that stand for a flag other than `0`. -/
def flagUnits : Text := Text.ofString "-+ #'$_"

/-- Length modifiers. -/
def modifiers : List Text :=
  ["hh", "h", "ll", "l", "j", "z", "t", "I64", "I32", "I"].map Text.ofString

/-- Length modifiers of integers with 64 bits. -/
def wideModifiers : List Text := ["l", "ll", "j", "z", "t", "I64", "I"].map Text.ofString

/-- A width or precision as it is written. -/
inductive SizeSpelling where
  /-- `*`: it is taken from the arguments. -/
  | star
  /-- Decimal digits, perhaps none. -/
  | digits (t : Text)
  deriving DecidableEq

/-- A directive as it is written behind its `%`. -/
structure Spelling where
  /-- Flags other than `0`, in any order and any number. -/
  flags : Text
  /-- Whether a `0` ends the flags. -/
  zero : Bool
  /-- The width. -/
  width : SizeSpelling
  /-- The precision, if a point stands in front of one. -/
  precision : Option SizeSpelling
  /-- The length modifier; empty without one. -/
  modifier : Text
  /-- The unit of the conversion, unless the text ends in front of it. -/
  conversion : Option UInt16
  deriving DecidableEq

/-- Units that a width or precision takes. -/
def SizeSpelling.units : SizeSpelling → Text
  | star => [0x2A]
  | digits t => t

/-- Units that a precision takes with its point. -/
def precisionUnits : Option SizeSpelling → Text
  | some size => 0x2E :: size.units
  | none => []

/-- Units that a directive takes behind its `%`. -/
def Spelling.units (w : Spelling) : Text :=
  w.flags ++ (if w.zero then [0x30] else []) ++ w.width.units ++ precisionUnits w.precision ++
    w.modifier ++ w.conversion.toList

/-! Each part of a spelling stands at the front of a text and leaves the rest. -/

/-- As many flags as stand at the front. -/
structure FlagsAt (flags t rest : Text) : Prop where
  eq_append : t = flags ++ rest
  passes : ∀ u ∈ flags, u ∈ flagUnits
  ends : ∀ u ∈ rest.head?, u ∉ flagUnits

/-- One zero, if it stands at the front. -/
inductive ZeroAt : Bool → Text → Text → Prop where
  | present {rest : Text} : ZeroAt true (0x30 :: rest) rest
  | absent {t : Text} (h : 0x30 ∉ t.head?) : ZeroAt false t t

/-- A star if it stands at the front, else as many digits as stand there. -/
inductive SizeAt : SizeSpelling → Text → Text → Prop where
  | star {rest : Text} : SizeAt .star (0x2A :: rest) rest
  | digits {t rest : Text} (hdigits : Numeral.Digits t)
      (hends : ∀ u ∈ rest.head?, Ascii.isDigit u = false) (hstar : 0x2A ∉ (t ++ rest).head?) :
      SizeAt (.digits t) (t ++ rest) rest

/-- A point and what is written behind it, if a point stands at the front. -/
inductive PrecisionAt : Option SizeSpelling → Text → Text → Prop where
  | present {size : SizeSpelling} {t rest : Text} (h : SizeAt size t rest) :
      PrecisionAt (some size) (0x2E :: t) rest
  | absent {t : Text} (h : 0x2E ∉ t.head?) : PrecisionAt none t t

/-- The longest length modifier that stands at the front, if one does. -/
structure ModifierAt (modifier t rest : Text) : Prop where
  eq_append : t = modifier ++ rest
  known : modifier = [] ∨ modifier ∈ modifiers
  longest : ∀ other ∈ modifiers, other <+: t → other.length ≤ modifier.length

/-- The unit at the front; there is none exactly at the end. -/
inductive ConversionAt : Option UInt16 → Text → Text → Prop where
  | present {u : UInt16} {rest : Text} : ConversionAt (some u) (u :: rest) rest
  | absent : ConversionAt none [] []

/-- A directive stands at the front of a text, each part as long as it can be, and leaves the
rest. -/
def Spelling.Stands (w : Spelling) (t rest : Text) : Prop :=
  ∃ behindFlags behindZero behindWidth behindPrecision behindModifier,
    FlagsAt w.flags t behindFlags ∧ ZeroAt w.zero behindFlags behindZero ∧
      SizeAt w.width behindZero behindWidth ∧ PrecisionAt w.precision behindWidth behindPrecision ∧
      ModifierAt w.modifier behindPrecision behindModifier ∧
      ConversionAt w.conversion behindModifier rest

/-! What the parts mean. -/

/-- The flags that units stand for, and that a zero does or does not. -/
def flagsOf (units : Text) (zero : Bool) : Flags where
  leftJustify := 0x2D ∈ units
  plus := 0x2B ∈ units
  space := 0x20 ∈ units
  alternate := 0x23 ∈ units
  zeroPad := zero
  group := 0x27 ∈ units
  metric := min (units.count 0x24) 3
  metricNoSpace := 0x5F ∈ units

/-- Digits are read from the left: ten times the value in front and the digit, where the product and
then the sum become the numbers nearest to them. Nothing stands for infinity, which is kept. -/
inductive ReadsAs : Text → Option ℕ → Prop where
  /-- No digits are read as zero. -/
  | nil : ReadsAs [] (some 0)
  /-- The product is finite, and the sum is what it becomes. -/
  | digit {t : Text} {u : UInt16} {n product : ℕ} {value : Option ℕ} (front : ReadsAs t (some n))
      (hproduct : Double.NearestNumber (n * 10) (some product))
      (hsum : Double.NearestNumber (product + (u.toNat - 0x30)) value) : ReadsAs (t ++ [u]) value
  /-- The product is infinite. -/
  | overflow {t : Text} {u : UInt16} {n : ℕ} (front : ReadsAs t (some n))
      (hproduct : Double.NearestNumber (n * 10) none) : ReadsAs (t ++ [u]) none
  /-- The value in front is. -/
  | infinite {t : Text} {u : UInt16} (front : ReadsAs t none) : ReadsAs (t ++ [u]) none

/-- A value is a natural, or both are beyond the safe ones. -/
def SameSafe (value : Option ℕ) (m : ℕ) : Prop :=
  value = some m ∨ (∀ n ∈ value, Double.maxSafe < n) ∧ Double.maxSafe < m

/-- A size is what is written for it: taken from the arguments for a star, and else the value of
digits, which is 0 for none. It is rounded digit by digit, so it is their decimal value as long as
that is safe. -/
inductive SizeSpelling.Means : SizeSpelling → Size → Prop where
  | star : Means .star .argument
  | digits {t : Text} {value : Option ℕ} (hread : ReadsAs t value)
      (hsafe : SameSafe value (Numeral.read t)) : Means (.digits t) (.written value)

/-- A directive is what is written for it. -/
structure Spelling.Means (w : Spelling) (d : Directive) : Prop where
  flags : d.flags = flagsOf w.flags w.zero
  width : w.width.Means d.width
  precision : Option.Rel SizeSpelling.Means w.precision d.precision
  wide : d.wide = true ↔ w.modifier ∈ wideModifiers
  conversion : d.conversion = w.conversion

variable {t rest tail : Text} {size other : SizeSpelling}

/-- Digits that write a safe natural mean that one. -/
theorem SizeSpelling.Means.eq_number {read : Size} (h : (SizeSpelling.digits t).Means read)
    (ht : Numeral.read t ≤ Double.maxSafe) : read = .number (Numeral.read t) := by
  cases h with
  | digits _ hsafe =>
    rcases hsafe with rfl | ⟨-, hlarge⟩
    · rfl
    · exact absurd hlarge (Nat.not_lt.mpr ht)

/-- A text is divided in one way only into units that pass a test, as many as there are, and the
rest. -/
theorem eq_of_longest {test : UInt16 → Prop} {front part : Text} (h : front ++ rest = part ++ tail)
    (hfront : ∀ u ∈ front, test u) (hpart : ∀ u ∈ part, test u) (hrest : ∀ u ∈ rest.head?, ¬ test u)
    (htail : ∀ u ∈ tail.head?, ¬ test u) : front = part ∧ rest = tail := by
  rcases List.append_eq_append_iff.mp h with ⟨more, rfl, rfl⟩ | ⟨more, rfl, rfl⟩
  · cases more with
    | nil => simp
    | cons u more => exact absurd (hpart u (by simp)) (hrest u rfl)
  · cases more with
    | nil => simp
    | cons u more => exact absurd (hfront u (by simp)) (htail u rfl)

theorem FlagsAt.unique {flags part : Text} (h : FlagsAt flags t rest) (ho : FlagsAt part t tail) :
    flags = part ∧ rest = tail :=
  eq_of_longest (h.eq_append.symm.trans ho.eq_append) h.passes ho.passes h.ends ho.ends

theorem ZeroAt.unique {zero part : Bool} (h : ZeroAt zero t rest) (ho : ZeroAt part t tail) :
    zero = part ∧ rest = tail := by
  cases h with
  | present =>
    cases ho with
    | present => exact ⟨rfl, rfl⟩
    | absent hnone => exact absurd rfl hnone
  | absent hnone =>
    cases ho with
    | present => exact absurd rfl hnone
    | absent => exact ⟨rfl, rfl⟩

theorem SizeAt.unique (h : SizeAt size t rest) (ho : SizeAt other t tail) :
    size = other ∧ rest = tail := by
  cases h with
  | star =>
    generalize hwhole : 0x2A :: rest = whole at ho
    cases ho with
    | star => exact ⟨rfl, (List.cons.inj hwhole).2⟩
    | digits _ _ hstar => exact absurd (by rw [← hwhole]; rfl) hstar
  | @digits digits _ hdigits hends hstar =>
    generalize hwhole : digits ++ rest = whole at ho
    cases ho with
    | star => exact absurd (by rw [hwhole]; rfl) hstar
    | @digits part _ hpart hpartEnds _ =>
      obtain ⟨rfl, rfl⟩ := eq_of_longest hwhole hdigits hpart
        (fun u hu => Bool.eq_false_iff.mp (hends u hu))
        fun u hu => Bool.eq_false_iff.mp (hpartEnds u hu)
      exact ⟨rfl, rfl⟩

theorem PrecisionAt.unique {precision part : Option SizeSpelling} (h : PrecisionAt precision t rest)
    (ho : PrecisionAt part t tail) : precision = part ∧ rest = tail := by
  cases h with
  | present hsize =>
    cases ho with
    | present hother =>
      obtain ⟨rfl, rfl⟩ := hsize.unique hother
      exact ⟨rfl, rfl⟩
    | absent hnone => exact absurd rfl hnone
  | absent hnone =>
    cases ho with
    | present => exact absurd rfl hnone
    | absent => exact ⟨rfl, rfl⟩

/-- No length modifier is as long as the longest one but that itself. -/
theorem ModifierAt.unique {modifier part : Text} (h : ModifierAt modifier t rest)
    (ho : ModifierAt part t tail) : modifier = part ∧ rest = tail := by
  have hle : ∀ {front back modifier rest : Text}, ModifierAt front t back →
      ModifierAt modifier t rest → front.length ≤ modifier.length := by
    intro front back modifier rest hf hm
    rcases hf.known with rfl | hknown
    · exact Nat.zero_le _
    · exact hm.longest front hknown ⟨back, hf.eq_append.symm⟩
  exact List.append_inj (h.eq_append.symm.trans ho.eq_append)
    (Nat.le_antisymm (hle h ho) (hle ho h))

theorem ConversionAt.unique {conversion part : Option UInt16} (h : ConversionAt conversion t rest)
    (ho : ConversionAt part t tail) : conversion = part ∧ rest = tail := by
  cases h <;> cases ho <;> exact ⟨rfl, rfl⟩

/-- At most one directive stands at the front of a text. -/
theorem Spelling.Stands.unique {w part : Spelling} (h : w.Stands t rest) (ho : part.Stands t tail) :
    w = part ∧ rest = tail := by
  obtain ⟨_, _, _, _, _, hflags, hzero, hwidth, hprecision, hmodifier, hconversion⟩ := h
  obtain ⟨_, _, _, _, _, oflags, ozero, owidth, oprecision, omodifier, oconversion⟩ := ho
  obtain ⟨eflags, rfl⟩ := hflags.unique oflags
  obtain ⟨ezero, rfl⟩ := hzero.unique ozero
  obtain ⟨ewidth, rfl⟩ := hwidth.unique owidth
  obtain ⟨eprecision, rfl⟩ := hprecision.unique oprecision
  obtain ⟨emodifier, rfl⟩ := hmodifier.unique omodifier
  obtain ⟨econversion, rfl⟩ := hconversion.unique oconversion
  cases w
  cases part
  cases eflags
  cases ezero
  cases ewidth
  cases eprecision
  cases emodifier
  cases econversion
  exact ⟨rfl, rfl⟩

theorem ZeroAt.eq_append {zero : Bool} (h : ZeroAt zero t rest) :
    t = (if zero then [0x30] else []) ++ rest := by
  cases h <;> rfl

theorem SizeAt.eq_append (h : SizeAt size t rest) : t = size.units ++ rest := by
  cases h <;> rfl

theorem PrecisionAt.eq_append {precision : Option SizeSpelling} (h : PrecisionAt precision t rest) :
    t = precisionUnits precision ++ rest := by
  cases h with
  | present hsize => exact congrArg (0x2E :: ·) hsize.eq_append
  | absent => rfl

theorem ConversionAt.eq_append {conversion : Option UInt16} (h : ConversionAt conversion t rest) :
    t = conversion.toList ++ rest := by
  cases h <;> rfl

/-- A text is the directive at its front and the rest. -/
theorem Spelling.Stands.eq_append {w : Spelling} (h : w.Stands t rest) : t = w.units ++ rest := by
  obtain ⟨_, _, _, _, _, hflags, hzero, hwidth, hprecision, hmodifier, hconversion⟩ := h
  rw [hflags.eq_append, hzero.eq_append, hwidth.eq_append, hprecision.eq_append,
    hmodifier.eq_append, hconversion.eq_append]
  simp only [Spelling.units, List.append_assoc]

theorem mem_flagUnits {u : UInt16} : u ∈ flagUnits ↔
    u = 0x2D ∨ u = 0x2B ∨ u = 0x20 ∨ u = 0x23 ∨ u = 0x27 ∨ u = 0x24 ∨ u = 0x5F := by
  have hunits : flagUnits = [0x2D, 0x2B, 0x20, 0x23, 0x27, 0x24, 0x5F] := by decide
  rw [hunits]
  simp only [List.mem_cons, List.not_mem_nil, or_false]

namespace Directive

/-- A unit behind others sets the flag that it stands for. -/
theorem flag?_flagsOf (seen : Text) (u : UInt16) :
    flag? (flagsOf seen false) u =
      if u ∈ flagUnits then some (flagsOf (seen ++ [u]) false) else none := by
  by_cases h : u ∈ flagUnits
  · have hmetric : min (min (seen.count 0x24) 3 + 1) 3 = min (seen.count 0x24 + 1) 3 := by omega
    rw [if_pos h]
    rcases mem_flagUnits.mp h with rfl | rfl | rfl | rfl | rfl | rfl | rfl <;>
      simp [flag?, flagsOf, hmetric]
  · rw [if_neg h]
    simp only [mem_flagUnits, not_or] at h
    simp [flag?, h]

/-- The flags at the front are read, behind others that were seen. -/
theorem exists_readFlags (seen t : Text) : ∃ flags zero later, FlagsAt flags t later ∧
    ZeroAt zero later (readFlags (flagsOf seen false) t).2 ∧
      (readFlags (flagsOf seen false) t).1 = flagsOf (seen ++ flags) zero := by
  induction t generalizing seen with
  | nil =>
    refine ⟨[], false, [], ⟨rfl, by simp, by simp⟩, .absent (by simp), ?_⟩
    rw [readFlags, List.append_nil]
  | cons u rest ih =>
    rw [readFlags]
    by_cases hzero : u = 0x30
    · subst hzero
      refine ⟨[], true, 0x30 :: rest, ⟨rfl, by simp, ?_⟩, .present, ?_⟩
      · intro u hu
        cases hu
        decide
      · rw [if_pos rfl, List.append_nil]
        rfl
    · rw [if_neg hzero, flag?_flagsOf]
      by_cases hflag : u ∈ flagUnits
      · obtain ⟨flags, zero, later, hflags, hread⟩ := ih (seen ++ [u])
        rw [if_pos hflag]
        refine ⟨u :: flags, zero, later, ⟨?_, ?_, hflags.ends⟩, ?_⟩
        · rw [hflags.eq_append]
          rfl
        · exact List.forall_mem_cons.mpr ⟨hflag, hflags.passes⟩
        · rwa [List.append_assoc] at hread
      · rw [if_neg hflag]
        refine ⟨[], false, u :: rest, ⟨rfl, by simp, ?_⟩, .absent ?_, ?_⟩
        · intro v hv
          cases hv
          exact hflag
        · intro h
          cases h
          exact hzero rfl
        · rw [List.append_nil]

theorem sizeOf_append_singleton (digits : Text) (u : UInt16) :
    sizeOf (digits ++ [u]) = sizeStep (sizeOf digits) u := by
  rw [sizeOf, List.foldl_append]
  rfl

theorem sizeStep_some (n : ℕ) (u : UInt16) :
    sizeStep (some n) u =
      (Double.finiteNat? (n * 10)).bind fun product =>
        Double.finiteNat? (product + (u.toNat - 0x30)) := by
  rw [sizeStep, Option.bind_some]

/-- A digit behind others multiplies and adds, unless it overflows. -/
theorem readsAs_sizeStep {digits : Text} {value : Option ℕ} (h : ReadsAs digits value)
    (u : UInt16) : ReadsAs (digits ++ [u]) (sizeStep value u) := by
  cases value with
  | none => exact .infinite h
  | some n =>
    have hproduct := Double.nearestNumber_finiteNat? (n * 10)
    rw [sizeStep_some]
    cases hfinite : Double.finiteNat? (n * 10) with
    | none =>
      rw [hfinite] at hproduct
      exact .overflow h hproduct
    | some product =>
      rw [hfinite] at hproduct
      rw [Option.bind_some]
      exact .digit h hproduct (Double.nearestNumber_finiteNat? _)

/-- A digit behind the power of ten with 309 digits makes more than any number reaches. -/
example : sizeStep (some (10 ^ 308)) 0x30 = none ∧ sizeStep (some (10 ^ 307)) 0x30 ≠ none := by
  decide +kernel

theorem readsAs_sizeOf (digits : Text) : ReadsAs digits (sizeOf digits) := by
  induction digits using List.reverseRecOn with
  | nil => exact .nil
  | append_singleton digits u ih =>
    rw [sizeOf_append_singleton]
    exact readsAs_sizeStep ih u

/-- With one more digit a value is exact as long as it is safe, and stays beyond the safe naturals
otherwise. -/
theorem sameSafe_sizeStep {value : Option ℕ} {m : ℕ} (h : SameSafe value m) (u : UInt16) :
    SameSafe (sizeStep value u) (m * 10 + (u.toNat - 0x30)) := by
  have hlarge : ∀ n, Double.maxSafe < n * 10 + (u.toNat - 0x30) →
      ∀ k ∈ sizeStep (some n) u, Double.maxSafe < k := by
    intro n hn k hk
    rw [sizeStep_some] at hk
    obtain ⟨product, hproduct, hsum⟩ := Option.bind_eq_some_iff.mp hk
    refine Double.lt_of_mem_finiteNat? ?_ k hsum
    rcases Nat.lt_or_ge Double.maxSafe (n * 10) with hlt | hle
    · exact Nat.lt_add_right _ (Double.lt_of_mem_finiteNat? hlt product hproduct)
    · rw [Double.finiteNat?_of_le hle] at hproduct
      cases hproduct
      exact hn
  rcases h with rfl | ⟨hvalue, hm⟩
  · rcases Nat.lt_or_ge Double.maxSafe (m * 10 + (u.toNat - 0x30)) with hlt | hle
    · exact .inr ⟨hlarge m hlt, hlt⟩
    · left
      rw [sizeStep_some, Double.finiteNat?_of_le (Nat.le_of_add_right_le hle), Option.bind_some,
        Double.finiteNat?_of_le hle]
  · refine .inr ⟨fun k hk => ?_, by omega⟩
    cases value with
    | none => cases hk
    | some n =>
      have hn := hvalue n rfl
      exact hlarge n (by omega) k hk

/-- Digits are read as their decimal value or, as that is, beyond the safe naturals. -/
theorem sameSafe_sizeOf (digits : Text) : SameSafe (sizeOf digits) (Numeral.read digits) := by
  induction digits using List.reverseRecOn with
  | nil => exact .inl rfl
  | append_singleton digits u ih =>
    rw [sizeOf_append_singleton, Numeral.read, List.foldl_append]
    exact sameSafe_sizeStep ih u

/-- The size at the front is read. -/
theorem exists_readSize (t : Text) :
    ∃ size, SizeAt size t (readSize t).2 ∧ size.Means (readSize t).1 := by
  cases t with
  | nil =>
    refine ⟨.digits [], .digits (t := []) (by simp [Numeral.Digits]) (by simp) (by simp), ?_⟩
    exact .digits .nil (.inl rfl)
  | cons u rest =>
    rw [readSize]
    by_cases hstar : u = 0x2A
    · subst hstar
      exact ⟨.star, .star, .star⟩
    · rw [if_neg hstar]
      have hsplit : (u :: rest).takeWhile isDigit ++
          (u :: rest).drop ((u :: rest).takeWhile isDigit).length = u :: rest :=
        (List.prefix_append_drop (List.takeWhile_prefix isDigit)).symm
      refine ⟨.digits ((u :: rest).takeWhile isDigit), ?_,
        .digits (readsAs_sizeOf _) (sameSafe_sizeOf _)⟩
      have hsize := SizeAt.digits (t := (u :: rest).takeWhile isDigit)
        (fun v hv => List.mem_takeWhile_imp hv)
        (Sequence.not_of_mem_head?_drop_run isDigit (u :: rest))
        (by
          rw [Sequence.run, hsplit]
          exact fun h => hstar (Option.some.inj h))
      rwa [Sequence.run, hsplit] at hsize

/-- The precision at the front is read. -/
theorem exists_readPrecision (t : Text) : ∃ precision,
    PrecisionAt precision t (readPrecision t).2 ∧
      Option.Rel SizeSpelling.Means precision (readPrecision t).1 := by
  rw [readPrecision.eq_def]
  split
  case h_1 rest =>
    obtain ⟨size, hsize, hmeans⟩ := exists_readSize rest
    exact ⟨some size, .present hsize, .some hmeans⟩
  case h_2 hnone =>
    refine ⟨none, .absent ?_, .none⟩
    rintro h
    cases t with
    | nil => cases h
    | cons u rest =>
      cases h
      exact hnone rest rfl

theorem modifiers_eq : modifiers = [[0x68, 0x68], [0x68], [0x6C, 0x6C], [0x6C], [0x6A], [0x7A],
    [0x74], [0x49, 0x36, 0x34], [0x49, 0x33, 0x32], [0x49]] := by
  decide

/-- The length modifier at the front is read. -/
theorem exists_readLength (t : Text) : ∃ modifier, ModifierAt modifier t (readLength t).2 ∧
    ((readLength t).1 = true ↔ modifier ∈ wideModifiers) := by
  cases t with
  | nil =>
    refine ⟨[], ⟨rfl, .inl rfl, ?_⟩, iff_of_false Bool.false_ne_true (by decide)⟩
    simp [modifiers_eq]
  | cons u rest =>
    rw [readLength_cons]
    split_ifs with hh hdouble hl hdouble hj hi hlong hshort
    · subst hh
      obtain ⟨behind, rfl⟩ := hdouble
      refine ⟨[0x68, 0x68], ⟨rfl, by decide, ?_⟩, iff_of_false not_false (by decide)⟩
      simp [modifiers_eq]
    · subst hh
      refine ⟨[0x68], ⟨rfl, by decide, ?_⟩, iff_of_false not_false (by decide)⟩
      simp [modifiers_eq, List.cons_prefix_cons, hdouble]
    · subst hl
      obtain ⟨behind, rfl⟩ := hdouble
      refine ⟨[0x6C, 0x6C], ⟨rfl, by decide, ?_⟩, iff_of_true rfl (by decide)⟩
      simp [modifiers_eq]
    · subst hl
      refine ⟨[0x6C], ⟨rfl, by decide, ?_⟩, iff_of_true rfl (by decide)⟩
      simp [modifiers_eq, List.cons_prefix_cons, hdouble]
    · -- these three begin no longer modifier, whatever stands behind them
      rcases hj with rfl | rfl | rfl <;>
        refine ⟨[_], ⟨rfl, by decide, ?_⟩, iff_of_true rfl (by decide)⟩ <;>
        simp [modifiers_eq]
    · subst hi
      obtain ⟨behind, rfl⟩ := hlong
      refine ⟨[0x49, 0x36, 0x34], ⟨rfl, by decide, ?_⟩, iff_of_true rfl (by decide)⟩
      simp [modifiers_eq]
    · subst hi
      obtain ⟨behind, rfl⟩ := hshort
      refine ⟨[0x49, 0x33, 0x32], ⟨rfl, by decide, ?_⟩, iff_of_false not_false (by decide)⟩
      simp [modifiers_eq]
    · subst hi
      refine ⟨[0x49], ⟨rfl, by decide, ?_⟩, iff_of_true rfl (by decide)⟩
      simp [modifiers_eq, List.cons_prefix_cons, hlong, hshort]
    · simp only [not_or] at hj
      refine ⟨[], ⟨rfl, .inl rfl, ?_⟩, iff_of_false not_false (by decide)⟩
      simp [modifiers_eq, List.cons_prefix_cons, Ne.symm hh, Ne.symm hl, Ne.symm hj.1,
        Ne.symm hj.2.1, Ne.symm hj.2.2, Ne.symm hi]

/-- The unit of the conversion is the one at the front. -/
theorem conversionAt_head? (t : Text) : ConversionAt t.head? t t.tail := by
  cases t with
  | nil => exact .absent
  | cons u rest => exact .present

/-- The directive at the front is read. -/
theorem exists_parse (t : Text) : ∃ w : Spelling, w.Stands t (parse t).2 ∧ w.Means (parse t).1 := by
  obtain ⟨flags, zero, behind, hflags, hzero, hflagsRead⟩ := exists_readFlags [] t
  obtain ⟨width, hwidth, hwidthRead⟩ := exists_readSize (readFlags .none t).2
  obtain ⟨precision, hprecision, hprecisionRead⟩ :=
    exists_readPrecision (readSize (readFlags .none t).2).2
  obtain ⟨modifier, hmodifier, hwide⟩ :=
    exists_readLength (readPrecision (readSize (readFlags .none t).2).2).2
  refine ⟨⟨flags, zero, width, precision, modifier, (parse t).1.conversion⟩, ?_, ?_⟩
  · exact ⟨_, _, _, _, _, hflags, hzero, hwidth, hprecision, hmodifier, conversionAt_head? _⟩
  · exact ⟨hflagsRead, hwidthRead, hprecisionRead, hwide, rfl⟩

/-- The text behind a place in a format string. -/
theorem textFrom_ofNat {fmt : Text} {n : ℕ} (h : n ≤ Double.maxSafe) :
    textFrom fmt (Double.ofNat n) = fmt.drop n := by
  rw [textFrom, Double.trunc?_ofNat h]
  have hbelow : (Double.ofNat n).below 0 = false := by
    rw [Double.below_ofNat h]
    simp
  simp [hbelow]

/-- A directive is read from what stands behind its `%`, and ends behind what was read. -/
theorem parseAt_ofNat {fmt : Text} {i : ℕ} (hi : i < fmt.length)
    (hlength : fmt.length ≤ Double.maxSafe) :
    parseAt fmt (Double.ofNat i) = ((parse (fmt.drop (i + 1))).1, Double.ofNat
      (i + 1 + ((fmt.drop (i + 1)).length - (parse (fmt.drop (i + 1))).2.length))) := by
  have hstart : (Double.ofNat i).add (Double.ofNat 1) = Double.ofNat (i + 1) :=
    Double.add_ofNat (by omega) (by decide)
  have hraised : i + 1 + ((fmt.drop (i + 1)).length - (parse (fmt.drop (i + 1))).2.length) ≤
      Double.maxSafe + 1 := by
    rw [List.length_drop]
    omega
  simp only [parseAt, hstart, textFrom_ofNat (show i + 1 ≤ Double.maxSafe by omega),
    Double.raised_ofNat hraised]

/-- Behind a `%` stands one directive, and no other. It is read with what its parts mean, and its
end is the place behind all its units. -/
theorem parseAt_grammar {fmt : Text} {i : ℕ} (hpercent : fmt[i]? = some 0x25)
    (hlength : fmt.length ≤ Double.maxSafe) :
    ∃ (w : Spelling) (rest : Text), w.Stands (fmt.drop (i + 1)) rest ∧
      (∀ (other : Spelling) (tail : Text), other.Stands (fmt.drop (i + 1)) tail →
        other = w ∧ tail = rest) ∧
      w.Means (parseAt fmt (Double.ofNat i)).1 ∧
      (parseAt fmt (Double.ofNat i)).2 = Double.ofNat (i + 1 + w.units.length) := by
  obtain ⟨hi, -⟩ := List.getElem?_eq_some_iff.mp hpercent
  obtain ⟨w, hstands, hmeans⟩ := exists_parse (fmt.drop (i + 1))
  have hwhole := congrArg List.length hstands.eq_append
  rw [List.length_append] at hwhole
  have hunits : (fmt.drop (i + 1)).length - (parse (fmt.drop (i + 1))).2.length =
      w.units.length := Nat.sub_eq_of_eq_add hwhole
  rw [parseAt_ofNat hi hlength, hunits]
  exact ⟨w, _, hstands, fun other tail h => h.unique hstands, hmeans, rfl⟩

/-- The zero in `%-'08.3I64d` is a flag and the eight behind it the width, and the digits of `I64`
are no width. -/
theorem parseAt_grammar_wide :
    (Text.ofString "x%-'08.3I64d")[1]? = some 0x25 ∧
      (Text.ofString "x%-'08.3I64d").length ≤ Double.maxSafe ∧
      parseAt (Text.ofString "x%-'08.3I64d") (Double.ofNat 1) =
        (⟨flagsOf (Text.ofString "-'") true, .number 8, some (.number 3), true, some 0x64⟩,
          Double.ofNat 12) := by
  have hflags : ∀ u ∈ Text.ofString "-'", u ∈ flagUnits :=
    List.forall_mem_cons.mpr ⟨by decide, List.forall_mem_singleton.mpr (by decide)⟩
  have hstands : Spelling.Stands ⟨Text.ofString "-'", true, .digits (Text.ofString "8"),
      some (.digits (Text.ofString "3")), Text.ofString "I64", some 0x64⟩
      ((Text.ofString "x%-'08.3I64d").drop 2) [] :=
    ⟨_, _, _, _, _, ⟨rfl, hflags, by rintro u ⟨⟩; decide⟩, .present,
      .digits (t := Text.ofString "8") (by decide) (by rintro u ⟨⟩; decide) (by decide),
      .present (.digits (t := Text.ofString "3") (by decide) (by rintro u ⟨⟩; decide) (by decide)),
      ⟨rfl, by decide, by decide⟩, .present⟩
  have hpercent : (Text.ofString "x%-'08.3I64d")[1]? = some 0x25 := by decide
  have hlength : (Text.ofString "x%-'08.3I64d").length ≤ Double.maxSafe := by decide
  refine ⟨hpercent, hlength, ?_⟩
  obtain ⟨w, rest, -, hunique, hmeans, hend⟩ := parseAt_grammar hpercent hlength
  obtain ⟨rfl, rfl⟩ := hunique _ _ hstands
  generalize parseAt (Text.ofString "x%-'08.3I64d") (Double.ofNat 1) = read at hmeans hend ⊢
  obtain ⟨⟨flags, width, precision, wide, conversion⟩, place⟩ := read
  obtain ⟨rfl, hwidth, hprecision, hwide, rfl⟩ := hmeans
  obtain rfl : wide = true := hwide.mpr (by decide)
  have hplace : place = Double.ofNat 12 := hend
  cases hprecision with
  | some hsize =>
    obtain rfl : width = .number 8 := hwidth.eq_number (by decide)
    rw [show _ = Size.number 3 from hsize.eq_number (by decide), hplace]

/-- A width beyond the safe naturals is rounded on the way. -/
theorem not_width_eq_read :
    ¬ ∀ (fmt : Text) (i : ℕ) (w : Spelling) (rest digits : Text), fmt[i]? = some 0x25 →
      w.Stands (fmt.drop (i + 1)) rest → w.width = .digits digits →
        (parseAt fmt (Double.ofNat i)).1.width = .number (Numeral.read digits) := by
  intro h
  have hstands : Spelling.Stands ⟨[], false, .digits (Text.ofString "18014398509481996"),
      none, [], some 0x64⟩ ((Text.ofString "%18014398509481996d").drop 1) [] :=
    ⟨_, _, _, _, _, ⟨rfl, List.forall_mem_nil _, by rintro u ⟨⟩; decide⟩, .absent (by decide),
      .digits (t := Text.ofString "18014398509481996") (by decide) (by rintro u ⟨⟩; decide)
        (by decide),
      .absent (by decide), ⟨rfl, by decide, by decide⟩, .present⟩
  have hwidth := h (Text.ofString "%18014398509481996d") 0 _ _ _ (by decide) hstands rfl
  revert hwidth
  decide +kernel

end Directive

end TextUnits.Format
