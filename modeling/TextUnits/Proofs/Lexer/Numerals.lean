import TextUnits.Lexer.Number
import TextUnits.Lexer.Scan
import Mathlib.Data.List.TakeWhile

/-!
# Bytes of numbers

A number literal consists of digits, letters, points and signs, also where it breaks off. This holds
of every part of a literal and of its suffixes.
-/

namespace TextUnits.Lexer

/-- Whether a byte can stand in a number: a digit, a letter, a point or a sign. -/
def isNumeral (b : UInt8) : Bool :=
  isDigit b || (0x61 ≤ b && b ≤ 0x7A) || (0x41 ≤ b && b ≤ 0x5A) || b == 0x2E || b == 0x2B ||
    b == 0x2D

/-- Kinds of numbers, and of those that break off. -/
def Kind.numerals : List Kind :=
  [.error, .integerDec, .integerHex, .integerOct, .integerBin, .floatDec, .floatHex]

/-- The first bytes can stand in a number. -/
def Numeral (bytes : List UInt8) (size : Nat) : Prop := ∀ b ∈ bytes.take size, isNumeral b = true

/-- What was found has the bytes and the kind of a number. -/
structure Found.Numeral (bytes : List UInt8) (found : Found) : Prop where
  /-- Its kind is that of a number. -/
  kind : found.kind ∈ Kind.numerals
  /-- Its bytes can stand in a number. -/
  bytes : Lexer.Numeral bytes found.size

variable {bytes : List UInt8} {test : UInt8 → Bool} {n m : Nat} {kind : Kind}

/-- What holds of all bytes can be found out by trying them. -/
theorem forall_byte {P : UInt8 → Prop} (h : ∀ n < 0x100, P (UInt8.ofNat n)) (b : UInt8) : P b := by
  have hall := h b.toNat b.toNat_lt
  rwa [UInt8.ofNat_toNat] at hall

/-- A test that only bytes of numbers pass. -/
def PassesNumeral (test : UInt8 → Bool) : Prop := ∀ b, test b = true → isNumeral b = true

theorem passesNumeral_of_all
    (h : ∀ n < 0x100, test (UInt8.ofNat n) = true → isNumeral (UInt8.ofNat n) = true) :
    PassesNumeral test :=
  forall_byte h

theorem passesNumeral_isDigit : PassesNumeral isDigit := passesNumeral_of_all (by decide +kernel)

theorem passesNumeral_isHex : PassesNumeral isHex := passesNumeral_of_all (by decide +kernel)

theorem passesNumeral_letter {lower : Char} (h : 0x61 ≤ lower.toNat ∧ lower.toNat ≤ 0x7A) :
    PassesNumeral (isLetter lower) := by
  intro b hb
  simp only [isLetter, Bool.or_eq_true, beq_iff_eq] at hb
  simp only [isNumeral, Bool.or_eq_true, Bool.and_eq_true, decide_eq_true_eq, UInt8.le_iff_toNat_le]
  rcases hb with hb | hb
  · exact .inl (.inl (.inl (.inl (.inr (by rw [hb]; exact h)))))
  · refine .inl (.inl (.inl (.inr ?_)))
    rw [hb]
    change 0x41 ≤ lower.toNat - 0x20 ∧ lower.toNat - 0x20 ≤ 0x5A
    omega

theorem passesNumeral_sign : PassesNumeral fun b => b == 0x2B || b == 0x2D :=
  passesNumeral_of_all (by decide +kernel)

theorem passesNumeral_eq {c : UInt8} (h : isNumeral c = true) : PassesNumeral (· == c) := by
  intro b hb
  rwa [eq_of_beq hb]

theorem numeral_zero (bytes : List UInt8) : Numeral bytes 0 := by
  intro b hb
  exact absurd hb List.not_mem_nil

theorem Numeral.add (hn : Numeral bytes n) (hm : Numeral (bytes.drop n) m) :
    Numeral bytes (n + m) := by
  intro b hb
  rw [List.take_add, List.mem_append] at hb
  rcases hb with hb | hb
  · exact hn b hb
  · exact hm b hb

theorem numeral_one (ht : PassesNumeral test) (h : startsWith test bytes = true) :
    Numeral bytes 1 := by
  cases bytes with
  | nil => cases h
  | cons first rest =>
    intro b hb
    rw [List.take_succ_cons, List.take_zero, List.mem_singleton] at hb
    rw [hb]
    exact ht first h

theorem numeral_run (ht : PassesNumeral test) (bytes : List UInt8) :
    Numeral bytes (Sequence.run test bytes) := by
  intro b hb
  rw [Sequence.run, ← List.prefix_iff_eq_take.mp (List.takeWhile_prefix test)] at hb
  exact ht b (List.mem_takeWhile_imp hb)

/-- A run of bytes of a class extends the bytes of a number. -/
theorem Numeral.add_run (hn : Numeral bytes n) (ht : PassesNumeral test) :
    Numeral bytes (n + Sequence.run test (bytes.drop n)) :=
  hn.add (numeral_run ht _)

/-- So does a single such byte. -/
theorem Numeral.succ (hn : Numeral bytes n) (ht : PassesNumeral test)
    (h : startsWith test (bytes.drop n) = true) : Numeral bytes (n + 1) :=
  hn.add (numeral_one ht h)

theorem numeral_integerSuffix (bytes : List UInt8) : Numeral bytes (integerSuffix bytes) := by
  have hu : PassesNumeral (isLetter 'u') := passesNumeral_letter (by decide)
  have hl : PassesNumeral (isLetter 'l') := passesNumeral_letter (by decide)
  unfold integerSuffix
  dsimp only
  split_ifs with h1 h2 h3 h4 h5 h6 h7
  · exact ((numeral_one hu h1).succ hl h2).succ hl h3
  · exact (numeral_one hu h1).succ hl h2
  · exact numeral_one hu h1
  · exact ((numeral_one hl h4).succ hl h5).succ hu h6
  · exact (numeral_one hl h4).succ hl h5
  · exact (numeral_one hl h4).succ hu h7
  · exact numeral_one hl h4
  · exact numeral_zero bytes

theorem numeral_floatSuffix (bytes : List UInt8) : Numeral bytes (floatSuffix bytes) := by
  have hletter : PassesNumeral fun b => isLetter 'f' b || isLetter 'd' b || isLetter 'l' b := by
    intro b hb
    simp only [Bool.or_eq_true] at hb
    rcases hb with (hb | hb) | hb
    all_goals exact passesNumeral_letter (by decide) b hb
  unfold floatSuffix
  split_ifs with h
  · exact numeral_one hletter h
  · exact numeral_zero bytes

theorem integer_numeral (hk : kind ∈ Kind.numerals) (hn : Numeral bytes n) :
    (integer kind bytes n).Numeral bytes :=
  ⟨hk, hn.add (numeral_integerSuffix _)⟩

theorem float_numeral (hk : kind ∈ Kind.numerals) (hn : Numeral bytes n) :
    (float kind bytes n).Numeral bytes :=
  ⟨hk, hn.add (numeral_floatSuffix _)⟩

theorem exponent_numeral (hk : kind ∈ Kind.numerals) (hn : Numeral bytes n) :
    (exponent kind bytes n).Numeral bytes := by
  have hsigned : Numeral bytes
      (if startsWith (fun b => b == 0x2B || b == 0x2D) (bytes.drop n) = true
        then n + 1 else n) := by
    split_ifs with hsign
    · exact hn.succ passesNumeral_sign hsign
    · exact hn
  unfold exponent
  dsimp only
  generalize (if startsWith (fun b => b == 0x2B || b == 0x2D) (bytes.drop n) = true then
    n + 1 else n) = signed at hsigned ⊢
  split_ifs
  · exact ⟨show Kind.error ∈ Kind.numerals by decide, hsigned⟩
  · exact float_numeral hk (hsigned.add_run passesNumeral_isDigit)

/-- A point and a fraction extend the bytes of a number. -/
theorem Numeral.fraction (hn : Numeral bytes n) (ht : PassesNumeral test) :
    Numeral bytes (if startsWith (· == 0x2E) (bytes.drop n) = true then
      n + 1 + Sequence.run test (bytes.drop (n + 1)) else n) := by
  split_ifs with hpoint
  · exact (hn.succ (passesNumeral_eq (by decide)) hpoint).add_run ht
  · exact hn

/-- A number in hexadecimal digits behind its mark. -/
theorem hexNumber_numeral (h : Numeral bytes 2) : (hexNumber bytes).Numeral bytes := by
  have hsize := (h.add_run passesNumeral_isHex).fraction passesNumeral_isHex
  unfold hexNumber
  dsimp only
  generalize (if startsWith (· == 0x2E) (bytes.drop (2 + Sequence.run isHex (bytes.drop 2))) = true
    then _ else _) = size at hsize ⊢
  split_ifs with hexp hpoint
  · exact exponent_numeral (by decide) (hsize.succ (passesNumeral_letter (by decide)) hexp)
  · exact ⟨show Kind.error ∈ Kind.numerals by decide, hsize⟩
  · exact integer_numeral (by decide) hsize

/-- A number in decimal digits behind its first digit. -/
theorem decimalNumber_numeral (h : Numeral bytes 1) : (decimalNumber bytes).Numeral bytes := by
  have hsize := (h.add_run passesNumeral_isDigit).fraction passesNumeral_isDigit
  unfold decimalNumber
  dsimp only
  generalize (if startsWith (· == 0x2E) (bytes.drop (1 + Sequence.run isDigit (bytes.drop 1))) =
    true then _ else _) = size at hsize ⊢
  split_ifs with hexp hpoint
  · exact exponent_numeral (by decide) (hsize.succ (passesNumeral_letter (by decide)) hexp)
  · exact float_numeral (by decide) hsize
  · exact integer_numeral (by decide) hsize

theorem octalNumber?_numeral {found : Found} (h : Numeral bytes 1)
    (hf : octalNumber? bytes = some found) : found.Numeral bytes := by
  have hoctal : PassesNumeral isOctal := passesNumeral_of_all (by decide +kernel)
  unfold octalNumber? at hf
  dsimp only at hf
  split_ifs at hf
  cases hf
  exact integer_numeral (by decide)
    ((h.add_run (passesNumeral_eq (by decide))).add_run hoctal)

/-- A number literal has the bytes and the kind of a number. -/
theorem number?_numeral {found : Found} (hf : number? bytes = some found) :
    found.Numeral bytes := by
  have hbinary : PassesNumeral isBinary := passesNumeral_of_all (by decide +kernel)
  unfold number? at hf
  split_ifs at hf with hdigit
  cases hf
  have hone := numeral_one passesNumeral_isDigit hdigit
  unfold number
  split_ifs with hzero hx hb
  · exact hexNumber_numeral (hone.succ (passesNumeral_letter (by decide)) hx)
  · exact integer_numeral (by decide)
      ((hone.succ (passesNumeral_letter (by decide)) hb).add_run hbinary)
  · cases hoctal : octalNumber? bytes with
    | none => exact decimalNumber_numeral hone
    | some found => exact octalNumber?_numeral hone hoctal
  · exact decimalNumber_numeral hone

end TextUnits.Lexer
