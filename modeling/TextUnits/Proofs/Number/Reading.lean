import TextUnits.Ascii
import Mathlib.Algebra.Order.Field.Power
import Mathlib.Algebra.Order.Field.Rat
import Mathlib.Data.List.TakeWhile
import Mathlib.Tactic.FieldSimp
import Mathlib.Tactic.Linarith
import Mathlib.Tactic.Ring

/-!
# Numbers that texts write

Decimal digits, perhaps with a point among them and a power of ten behind a letter, write a rational
number. `numberOf?` reads it exactly, so that two notations can be compared by what they write. A
text with at most one point is `Pointed` with its number, and the digits of a natural write it.
-/

namespace TextUnits

namespace Numeral

/-- The natural that decimal digits write, the most significant one first. -/
def read (t : Text) : Nat := t.foldl (fun n u => n * 10 + (u.toNat - 0x30)) 0

/-- Text of decimal digits alone. -/
def Digits (t : Text) : Prop := ∀ u ∈ t, Ascii.isDigit u = true

instance (t : Text) : Decidable (Digits t) := List.decidableBAll _ t

/-- The number of digits with at most one point among them, which stands behind a digit. -/
def pointedOf? (t : Text) : Option ℚ :=
  match Text.cut? 0x2E t with
  | none => if t ≠ [] ∧ Digits t then some (read t) else none
  | some (whole, fraction) =>
    if whole ≠ [] ∧ Digits (whole ++ fraction) then
      some (read (whole ++ fraction) / 10 ^ fraction.length)
    else none

/-- The whole number of digits behind a sign. -/
def signedOf? : Text → Option ℤ
  | [] => none
  | sign :: digits =>
    if digits ≠ [] ∧ Digits digits then
      if sign = 0x2B then some (read digits) else if sign = 0x2D then some (-read digits) else none
    else none

/-- Whether a unit stands in front of a power of ten. -/
def isPower (u : UInt16) : Bool := u == 0x65 || u == 0x45

/-- The number that a text writes, a power of ten behind `e` or `E` included. -/
def numberOf? (t : Text) : Option ℚ :=
  match t.dropWhile (!isPower ·) with
  | [] => pointedOf? t
  | _ :: power => do
    let mantissa ← pointedOf? (t.takeWhile (!isPower ·))
    let exponent ← signedOf? power
    return mantissa * 10 ^ exponent

/-- Digits with at most one point among them, and the number that they write. -/
inductive Pointed : Text → ℚ → Prop where
  /-- Without a point. -/
  | whole {t : Text} (hd : Digits t) (hne : t ≠ []) : Pointed t (read t)
  /-- With a point behind at least one digit. -/
  | fraction {whole fraction : Text} (hw : Digits whole) (hne : whole ≠ []) (hf : Digits fraction) :
      Pointed (whole ++ 0x2E :: fraction) (read (whole ++ fraction) / 10 ^ fraction.length)

variable {t front later whole fraction : Text} {v : ℚ} {n : Nat}

theorem read_append (front later : Text) :
    read (front ++ later) = read front * 10 ^ later.length + read later := by
  have hfrom : ∀ m, later.foldl (fun n u => n * 10 + (u.toNat - 0x30)) m =
      m * 10 ^ later.length + read later := by
    unfold read
    induction later with
    | nil => intro m; simp
    | cons u more ih =>
      intro m
      rw [List.foldl_cons, List.foldl_cons, ih, ih (0 * 10 + _), List.length_cons]
      ring
  rw [read, List.foldl_append]
  exact hfrom _

theorem digits_append : Digits (front ++ later) ↔ Digits front ∧ Digits later :=
  List.forall_mem_append

/-- Digits write less than the power of ten that has one more of them. -/
theorem read_lt (h : Digits t) : read t < 10 ^ t.length := by
  induction t with
  | nil => exact Nat.one_pos
  | cons u rest ih =>
    obtain ⟨hfirst, hrest⟩ := List.forall_mem_cons.mp h
    simp only [Ascii.isDigit, Bool.and_eq_true, decide_eq_true_eq] at hfirst
    have hunit : read [u] ≤ 9 := by
      have hle : u.toNat ≤ 0x39 := hfirst.2
      change 0 * 10 + (u.toNat - 0x30) ≤ 9
      omega
    have hsplit := read_append [u] rest
    have hmul := Nat.mul_le_mul_right (10 ^ rest.length) hunit
    have hlt := ih hrest
    rw [List.singleton_append] at hsplit
    rw [hsplit, List.length_cons, pow_succ]
    omega

/-- A digit is written as a unit that is read as the digit. -/
theorem digitUnit_spec {d : Nat} (h : d < 10) :
    Ascii.isDigit (digitUnit d) = true ∧ (digitUnit d).toNat - 0x30 = d := by
  have hall : ∀ d < 10,
      Ascii.isDigit (digitUnit d) = true ∧ (digitUnit d).toNat - 0x30 = d := by
    decide
  exact hall d h

/-- The digits of a natural are below the radix. -/
theorem lt_of_mem_digits {radix : Nat} (h : 2 ≤ radix) (n : Nat) :
    ∀ d ∈ digits radix n, d < radix := by
  fun_induction digits radix n with
  | case1 n hsmall =>
    rw [List.forall_mem_singleton]
    omega
  | case2 n hlarge ih =>
    rw [List.forall_mem_append, List.forall_mem_singleton]
    exact ⟨ih, Nat.mod_lt _ (by omega)⟩

/-- The digits of a natural are digits. -/
theorem digits_decimal (n : Nat) : Digits (decimal n) := by
  intro u hu
  obtain ⟨d, hd, rfl⟩ := List.mem_map.mp hu
  exact (digitUnit_spec (lt_of_mem_digits (by decide) n d hd)).1

/-- The digits of a natural write it. -/
theorem read_decimal (n : Nat) : read (decimal n) = n := by
  have hvalue : ∀ ds : List Nat, (∀ d ∈ ds, d < 10) → read (ds.map digitUnit) = value 10 ds := by
    intro ds hds
    unfold read value
    rw [List.foldl_map]
    refine List.foldl_ext _ _ _ fun n d hd => ?_
    rw [(digitUnit_spec (hds d hd)).2]
  rw [decimal, text, hvalue _ (lt_of_mem_digits (by decide) n), value_digits]

theorem digits_ne_nil (radix n : Nat) : digits radix n ≠ [] := by
  unfold digits
  split_ifs <;> simp

theorem decimal_ne_nil (n : Nat) : decimal n ≠ [] := by
  rw [decimal, text, Ne, List.map_eq_nil_iff]
  exact digits_ne_nil 10 n

/-- A natural reaches the power of ten that has as many digits. -/
theorem pow_le_of_digits (h : n ≠ 0) : 10 ^ ((decimal n).length - 1) ≤ n := by
  rw [decimal, text, List.length_map]
  fun_induction digits 10 n with
  | case1 n hsmall => exact Nat.pos_of_ne_zero h
  | case2 n hlarge ih =>
    have hpositive : n / 10 ≠ 0 := by omega
    have hle := ih hpositive
    have hlength := List.length_pos_iff.mpr (digits_ne_nil 10 (n / 10))
    have hsum : (digits 10 (n / 10)).length + 1 - 1 = (digits 10 (n / 10)).length - 1 + 1 := by
      omega
    rw [List.length_append, List.length_singleton, hsum, pow_succ]
    omega

/-- Zeros are digits and write nothing. -/
theorem digits_fill (count : Nat) : Digits (Text.fill count 0x30) := by
  intro u hu
  rw [List.eq_of_mem_replicate hu]
  decide

theorem read_fill (count : Nat) : read (Text.fill count 0x30) = 0 := by
  induction count with
  | zero => rfl
  | succ count ih =>
    have hcons : Text.fill (count + 1) 0x30 = [0x30] ++ Text.fill count 0x30 := rfl
    rw [hcons, read_append, ih]
    change 0 * 10 ^ _ + 0 = 0
    rw [Nat.zero_mul]

/-- Leading zeros leave digits as they are. -/
theorem digits_padLeft (h : Digits t) (least : Nat) : Digits (padLeft least t) :=
  digits_append.mpr ⟨digits_fill _, h⟩

theorem read_padLeft (least : Nat) (t : Text) : read (padLeft least t) = read t := by
  change read (Text.fill (least - t.length) 0x30 ++ t) = read t
  rw [read_append, read_fill, Nat.zero_mul, Nat.zero_add]

theorem length_padLeft (least : Nat) (t : Text) : least ≤ (padLeft least t).length := by
  rw [padLeft, List.length_append, Text.fill, List.length_replicate]
  omega

/-- A text is cut at the first of its marks. -/
theorem cut?_append {mark : UInt16} (h : mark ∉ front) (later : Text) :
    Text.cut? mark (front ++ mark :: later) = some (front, later) := by
  induction front with
  | nil => exact if_pos rfl
  | cons u more ih =>
    rw [List.mem_cons, not_or] at h
    rw [List.cons_append, Text.cut?, if_neg (Ne.symm h.1), ih h.2]
    rfl

theorem cut?_of_not_mem {mark : UInt16} (h : mark ∉ t) : Text.cut? mark t = none := by
  induction t with
  | nil => rfl
  | cons u more ih =>
    rw [List.mem_cons, not_or] at h
    rw [Text.cut?, if_neg (Ne.symm h.1), ih h.2]
    rfl

/-- No digit is a point or a letter. -/
theorem Digits.not_mem (h : Digits t) {u : UInt16} (hu : Ascii.isDigit u = false) : u ∉ t := by
  intro hmem
  rw [h u hmem] at hu
  cases hu

theorem Pointed.pointedOf?_eq (h : Pointed t v) : pointedOf? t = some v := by
  have hpoint : Ascii.isDigit 0x2E = false := by decide
  cases h with
  | whole hd hne =>
    rw [pointedOf?, cut?_of_not_mem (hd.not_mem hpoint)]
    exact if_pos ⟨hne, hd⟩
  | fraction hw hne hf =>
    rw [pointedOf?, cut?_append (hw.not_mem hpoint)]
    exact if_pos ⟨hne, digits_append.mpr ⟨hw, hf⟩⟩

/-- Digits and a point have no letter. -/
theorem Pointed.isPower_eq_false (h : Pointed t v) : ∀ u ∈ t, isPower u = false := by
  have hdigits : ∀ {t : Text}, Digits t → ∀ u ∈ t, isPower u = false := by
    intro t hd u hu
    by_contra hpower
    have hletter : u = 0x65 ∨ u = 0x45 := by
      simpa only [isPower, Bool.not_eq_false, Bool.or_eq_true, beq_iff_eq] using hpower
    rcases hletter with rfl | rfl <;> exact absurd (hd _ hu) (by decide)
  cases h with
  | whole hd hne => exact hdigits hd
  | fraction hw hne hf =>
    rw [List.forall_mem_append, List.forall_mem_cons]
    exact ⟨hdigits hw, by decide, hdigits hf⟩

/-- Digits with at most one point write their number. -/
theorem Pointed.numberOf?_eq (h : Pointed t v) : numberOf? t = some v := by
  have hnone : t.dropWhile (!isPower ·) = [] := by
    rw [List.dropWhile_eq_nil_iff]
    intro u hu
    rw [h.isPower_eq_false u hu]
    rfl
  rw [numberOf?, hnone]
  exact h.pointedOf?_eq

/-- With a power of ten behind them they write as many times more. -/
theorem Pointed.numberOf?_power (h : Pointed t v) {letter : UInt16} (hl : isPower letter = true)
    {power : Text} {e : ℤ} (hp : signedOf? power = some e) :
    numberOf? (t ++ letter :: power) = some (v * 10 ^ e) := by
  have hall : ∀ u ∈ t, (!isPower u) = true := by
    intro u hu
    rw [h.isPower_eq_false u hu]
    rfl
  have hstop : ¬ (!isPower letter) = true := by
    rw [hl]
    decide
  have hdrop : (t ++ letter :: power).dropWhile (!isPower ·) = letter :: power := by
    rw [List.dropWhile_append_of_pos hall, List.dropWhile_cons_of_neg (p := (!isPower ·)) hstop]
  have htake : (t ++ letter :: power).takeWhile (!isPower ·) = t := by
    rw [List.takeWhile_append_of_pos hall, List.takeWhile_cons_of_neg (p := (!isPower ·)) hstop, List.append_nil]
  rw [numberOf?, hdrop, htake, h.pointedOf?_eq]
  dsimp only
  rw [hp]
  rfl

end Numeral

end TextUnits
