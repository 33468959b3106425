import TextUnits.Proofs.Lexer.Views
import Mathlib.Data.List.Forall2

/-!
# The grammar of number literals

A literal is told by its parts, each of which is as long as possible: digits of one base, a
fraction, an exponent and a suffix. `Literal` has one constructor for each form of a number, and
`Broken` one for each way in which a number can break off. All bytes have parts like these, and each
reader finds the part that stands at its place.
-/

namespace TextUnits.Lexer

/-- Suffixes of integers in lower case; it may be missing. -/
def integerWords : List (List Char) :=
  [[], ['u'], ['u', 'l'], ['u', 'l', 'l'], ['l'], ['l', 'l'], ['l', 'u'], ['l', 'l', 'u']]

/-- Suffixes of numbers with a fraction or an exponent in lower case; it may be missing. -/
def floatWords : List (List Char) := [[], ['f'], ['d'], ['l']]

/-- Whether a byte is a sign. -/
def isSign (b : UInt8) : Bool := b == 0x2B || b == 0x2D

/-- Bytes are the letters of a word, each in either case. -/
def Spelled (word : List Char) (bytes : List UInt8) : Prop :=
  List.Forall₂ (fun c b => isLetter c b = true) word bytes

/-- A word stands at the front of bytes. -/
def Fits (word : List Char) (bytes : List UInt8) : Prop :=
  ∃ front, Spelled word front ∧ front <+: bytes

/-- A part of bytes that pass a test, behind which stands none that does. -/
structure Longest (test : UInt8 → Bool) (part rest : List UInt8) : Prop where
  /-- Its bytes pass the test. -/
  passes : ∀ b ∈ part, test b = true
  /-- The byte behind it does not. -/
  ends : startsWith test rest = false

/-- A part that is a word of a list, and no longer one of the list stands there. -/
structure Suffix (words : List (List Char)) (part rest : List UInt8) : Prop where
  /-- It is a word of the list. -/
  spelled : ∃ word ∈ words, Spelled word part
  /-- No longer one stands there. -/
  longest : ∀ word ∈ words, Fits word (part ++ rest) → word.length ≤ part.length

/-- A point and the digits behind it, if a point stands there. -/
inductive Fraction (digit : UInt8 → Bool) : List UInt8 → List UInt8 → Prop where
  /-- No point stands there. -/
  | absent {rest : List UInt8} (hpoint : startsWith (· == 0x2E) rest = false) :
      Fraction digit [] rest
  /-- The point has digits behind it, or none. -/
  | present {digits rest : List UInt8} (hdigits : Longest digit digits rest) :
      Fraction digit (0x2E :: digits) rest

/-- A sign, if one stands there. -/
inductive Sign : List UInt8 → List UInt8 → Prop where
  /-- No sign stands there. -/
  | absent {rest : List UInt8} (hsign : startsWith isSign rest = false) : Sign [] rest
  /-- A sign stands there. -/
  | present {b : UInt8} {rest : List UInt8} (hsign : isSign b = true) : Sign [b] rest

/-- The letter of an exponent, an optional sign and digits. -/
inductive Exponent (letter : Char) : List UInt8 → List UInt8 → Prop where
  | mk {marker : UInt8} {sign digits rest : List UInt8} (hmarker : isLetter letter marker = true)
      (hsign : Sign sign (digits ++ rest)) (hne : digits ≠ [])
      (hdigits : Longest isDigit digits rest) : Exponent letter (marker :: (sign ++ digits)) rest

/-- The letter of an exponent and an optional sign, behind which a digit is missing. -/
inductive BrokenExponent (letter : Char) : List UInt8 → List UInt8 → Prop where
  | mk {marker : UInt8} {sign rest : List UInt8} (hmarker : isLetter letter marker = true)
      (hsign : Sign sign rest) (hdigit : startsWith isDigit rest = false) :
      BrokenExponent letter (marker :: sign) rest

/-- Digits of an octal number: zeros, and behind them an octal digit that is not zero and others. -/
def Octal (digits : List UInt8) : Prop :=
  ∃ zeros first more, digits = zeros ++ first :: more ∧ zeros ≠ [] ∧ (∀ b ∈ zeros, b = 0x30) ∧
    isNonZeroOctal first = true ∧ ∀ b ∈ more, isOctal b = true

/-- Bytes that go on with no decimal digit, point or exponent. -/
def Closed (rest : List UInt8) : Prop :=
  startsWith isDigit rest = false ∧ startsWith (· == 0x2E) rest = false ∧
    startsWith (isLetter 'e') rest = false

/-- A number literal of a kind, in front of other bytes. -/
inductive Literal : Kind → List UInt8 → List UInt8 → Prop where
  /-- `0x`, hexadecimal digits, neither a point nor an exponent, and a suffix. -/
  | hexInteger {x : UInt8} {digits suffix rest : List UInt8} (hx : isLetter 'x' x = true)
      (hdigits : Longest isHex digits (suffix ++ rest))
      (hpoint : startsWith (· == 0x2E) (suffix ++ rest) = false)
      (hexponent : startsWith (isLetter 'p') (suffix ++ rest) = false)
      (hsuffix : Suffix integerWords suffix rest) :
      Literal .integerHex (0x30 :: x :: (digits ++ suffix)) rest
  /-- `0x`, hexadecimal digits, an optional fraction, a binary exponent and a suffix. -/
  | hexFloat {x : UInt8} {digits fraction exponent suffix rest : List UInt8}
      (hx : isLetter 'x' x = true)
      (hdigits : Longest isHex digits (fraction ++ (exponent ++ (suffix ++ rest))))
      (hfraction : Fraction isHex fraction (exponent ++ (suffix ++ rest)))
      (hexponent : Exponent 'p' exponent (suffix ++ rest))
      (hsuffix : Suffix floatWords suffix rest) :
      Literal .floatHex (0x30 :: x :: (digits ++ (fraction ++ (exponent ++ suffix)))) rest
  /-- `0b`, binary digits and a suffix. -/
  | binary {b : UInt8} {digits suffix rest : List UInt8} (hb : isLetter 'b' b = true)
      (hdigits : Longest isBinary digits (suffix ++ rest))
      (hsuffix : Suffix integerWords suffix rest) :
      Literal .integerBin (0x30 :: b :: (digits ++ suffix)) rest
  /-- Octal digits, behind which no digit, point or exponent stands, and a suffix. -/
  | octal {digits suffix rest : List UInt8} (hdigits : Octal digits)
      (hclosed : Closed (suffix ++ rest)) (hsuffix : Suffix integerWords suffix rest) :
      Literal .integerOct (digits ++ suffix) rest
  /-- Digits that are neither octal nor the zero of `0x` or `0b`, no point or exponent, and a
  suffix. -/
  | decimalInteger {digits suffix rest : List UInt8} (hne : digits ≠ [])
      (hdigits : Longest isDigit digits (suffix ++ rest)) (hoctal : ¬ Octal digits)
      (hbase : digits = [0x30] →
        startsWith (fun b => isLetter 'x' b || isLetter 'b' b) (suffix ++ rest) = false)
      (hpoint : startsWith (· == 0x2E) (suffix ++ rest) = false)
      (hexponent : startsWith (isLetter 'e') (suffix ++ rest) = false)
      (hsuffix : Suffix integerWords suffix rest) : Literal .integerDec (digits ++ suffix) rest
  /-- Digits, a fraction and no exponent, and a suffix. -/
  | decimalFraction {digits fraction suffix rest : List UInt8} (hne : digits ≠ [])
      (hdigits : Longest isDigit digits (fraction ++ (suffix ++ rest))) (hpart : fraction ≠ [])
      (hfraction : Fraction isDigit fraction (suffix ++ rest))
      (hexponent : startsWith (isLetter 'e') (suffix ++ rest) = false)
      (hsuffix : Suffix floatWords suffix rest) :
      Literal .floatDec (digits ++ (fraction ++ suffix)) rest
  /-- Digits, an optional fraction, an exponent and a suffix. -/
  | decimalExponent {digits fraction exponent suffix rest : List UInt8} (hne : digits ≠ [])
      (hdigits : Longest isDigit digits (fraction ++ (exponent ++ (suffix ++ rest))))
      (hfraction : Fraction isDigit fraction (exponent ++ (suffix ++ rest)))
      (hexponent : Exponent 'e' exponent (suffix ++ rest))
      (hsuffix : Suffix floatWords suffix rest) :
      Literal .floatDec (digits ++ (fraction ++ (exponent ++ suffix))) rest

/-- A number that breaks off where a part of it is missing, in front of other bytes. -/
inductive Broken : List UInt8 → List UInt8 → Prop where
  /-- A hexadecimal fraction without an exponent. -/
  | hexFraction {x : UInt8} {digits fraction rest : List UInt8} (hx : isLetter 'x' x = true)
      (hdigits : Longest isHex digits (fraction ++ rest)) (hpart : fraction ≠ [])
      (hfraction : Fraction isHex fraction rest)
      (hexponent : startsWith (isLetter 'p') rest = false) :
      Broken (0x30 :: x :: (digits ++ fraction)) rest
  /-- A binary exponent without digits. -/
  | hexExponent {x : UInt8} {digits fraction exponent rest : List UInt8}
      (hx : isLetter 'x' x = true)
      (hdigits : Longest isHex digits (fraction ++ (exponent ++ rest)))
      (hfraction : Fraction isHex fraction (exponent ++ rest))
      (hexponent : BrokenExponent 'p' exponent rest) :
      Broken (0x30 :: x :: (digits ++ (fraction ++ exponent))) rest
  /-- An exponent without digits. -/
  | decimalExponent {digits fraction exponent rest : List UInt8} (hne : digits ≠ [])
      (hdigits : Longest isDigit digits (fraction ++ (exponent ++ rest)))
      (hfraction : Fraction isDigit fraction (exponent ++ rest))
      (hexponent : BrokenExponent 'e' exponent rest) :
      Broken (digits ++ (fraction ++ exponent)) rest

variable {test digit : UInt8 → Bool} {part rest bytes suffix later : List UInt8}
  {kind : Kind} {size : Nat} {letter : Char}

/-- A part as long as possible is what a run counts. -/
theorem Longest.run_eq (h : Longest test part rest) :
    Sequence.run test (part ++ rest) = part.length := by
  rw [Sequence.run, List.takeWhile_append_of_pos h.passes]
  have hrest : (rest.takeWhile test).length = 0 := View.run_eq_zero_iff.mpr h.ends
  rw [List.length_append, hrest, Nat.add_zero]

theorem startsWith_eq_false_of_head? (h : ∀ b ∈ bytes.head?, test b = false) :
    startsWith test bytes = false := by
  cases bytes with
  | nil => rfl
  | cons b rest => exact h b rfl

theorem startsWith_or (p q : UInt8 → Bool) (bytes : List UInt8) :
    startsWith (fun b => p b || q b) bytes = (startsWith p bytes || startsWith q bytes) := by
  cases bytes <;> rfl

theorem exists_longest (test : UInt8 → Bool) (bytes : List UInt8) :
    ∃ part rest, bytes = part ++ rest ∧ Longest test part rest := by
  have hrun : bytes.takeWhile test = bytes.take (Sequence.run test bytes) :=
    List.prefix_iff_eq_take.mp (List.takeWhile_prefix test)
  have hends := Sequence.not_of_mem_head?_drop_run test bytes
  refine ⟨bytes.takeWhile test, bytes.drop (Sequence.run test bytes), ?_, fun b hb =>
    List.mem_takeWhile_imp hb, startsWith_eq_false_of_head? hends⟩
  rw [hrun, List.take_append_drop]

theorem exists_fraction (digit : UInt8 → Bool) (bytes : List UInt8) :
    ∃ fraction rest, bytes = fraction ++ rest ∧ Fraction digit fraction rest := by
  cases hpoint : startsWith (· == 0x2E) bytes with
  | false => exact ⟨[], bytes, rfl, .absent hpoint⟩
  | true =>
    cases bytes with
    | nil => cases hpoint
    | cons b later =>
      obtain rfl : b = 0x2E := eq_of_beq hpoint
      obtain ⟨digits, rest, rfl, hdigits⟩ := exists_longest digit later
      exact ⟨0x2E :: digits, rest, rfl, .present hdigits⟩

theorem exists_sign (bytes : List UInt8) :
    ∃ sign rest, bytes = sign ++ rest ∧ Sign sign rest := by
  cases hsign : startsWith isSign bytes with
  | false => exact ⟨[], bytes, rfl, .absent hsign⟩
  | true =>
    cases bytes with
    | nil => cases hsign
    | cons b rest => exact ⟨[b], rest, rfl, .present hsign⟩

theorem exists_exponent (h : startsWith (isLetter letter) bytes = true) :
    ∃ part rest, bytes = part ++ rest ∧
      (Exponent letter part rest ∨ BrokenExponent letter part rest) := by
  cases bytes with
  | nil => cases h
  | cons marker later =>
    obtain ⟨sign, behind, rfl, hsign⟩ := exists_sign later
    obtain ⟨digits, rest, rfl, hdigits⟩ := exists_longest isDigit behind
    by_cases hne : digits = []
    · subst hne
      exact ⟨marker :: sign, rest, rfl, .inr (.mk h hsign hdigits.ends)⟩
    · refine ⟨marker :: (sign ++ digits), rest, ?_, .inl (.mk h hsign hne hdigits)⟩
      rw [List.cons_append, List.append_assoc]

theorem fits_nil (bytes : List UInt8) : Fits [] bytes := ⟨[], .nil, List.nil_prefix⟩

/-- A word stands at the front of bytes that start with its letter and go on with its others. -/
theorem fits_cons {c : Char} {word : List Char} :
    Fits (c :: word) bytes ↔ startsWith (isLetter c) bytes = true ∧ Fits word (bytes.drop 1) := by
  constructor
  · rintro ⟨front, hspelled, rest, rfl⟩
    cases hspelled with
    | cons hc hword => exact ⟨hc, _, hword, List.prefix_append _ _⟩
  · rintro ⟨hc, front, hword, rest, hrest⟩
    cases bytes with
    | nil => cases hc
    | cons b bytes => exact ⟨b :: front, .cons hc hword, rest, congrArg (b :: ·) hrest⟩

/-- The longest word of a list that stands at the front of bytes is their suffix. -/
theorem exists_suffix {words : List (List Char)}
    (hword : ∃ word ∈ words, Fits word bytes ∧ word.length = size)
    (hlongest : ∀ word ∈ words, Fits word bytes → word.length ≤ size) :
    ∃ part rest, bytes = part ++ rest ∧ Suffix words part rest ∧ part.length = size := by
  obtain ⟨word, hmem, ⟨part, hspelled, rest, rfl⟩, hsize⟩ := hword
  have hpart : part.length = size := hspelled.length_eq.symm.trans hsize
  exact ⟨part, rest, rfl, ⟨⟨word, hmem, hspelled⟩, hpart.symm ▸ hlongest⟩, hpart⟩

/-- Suffixes of the same bytes are as long. -/
theorem Suffix.length_eq {words : List (List Char)} {other behind : List UInt8}
    (h : Suffix words part rest) (ho : Suffix words other behind)
    (hbytes : part ++ rest = other ++ behind) : part.length = other.length := by
  obtain ⟨word, hword, hspelled⟩ := h.spelled
  obtain ⟨another, hanother, hspells⟩ := ho.spelled
  have hle := ho.longest word hword ⟨part, hspelled, hbytes ▸ List.prefix_append _ _⟩
  have hge := h.longest another hanother ⟨other, hspells, hbytes ▸ List.prefix_append _ _⟩
  rw [hspelled.length_eq] at hle
  rw [hspells.length_eq] at hge
  omega

/-- No byte is both of two letters. -/
theorem isLetter_disjoint {b : UInt8} (h : isLetter 'u' b = true) : isLetter 'l' b = false := by
  have hall : ∀ b : UInt8, isLetter 'u' b = true → isLetter 'l' b = false :=
    forall_byte (by decide +kernel)
  exact hall b h

/-- The suffix of an integer is the longest of its words. -/
theorem exists_integerSuffix (bytes : List UInt8) :
    ∃ part rest, bytes = part ++ rest ∧ Suffix integerWords part rest ∧
      part.length = integerSuffix bytes := by
  have hnot : startsWith (isLetter 'u') bytes = true → startsWith (isLetter 'l') bytes = false := by
    cases bytes with
    | nil => exact fun _ => rfl
    | cons b rest => exact isLetter_disjoint
  refine exists_suffix ?_ ?_
  · unfold integerSuffix
    simp only [integerWords, List.mem_cons, List.not_mem_nil, or_false, exists_eq_or_imp,
      exists_eq_left, fits_cons, fits_nil, List.drop_drop]
    split_ifs <;> simp_all
  · unfold integerSuffix
    simp only [integerWords, List.forall_mem_cons, fits_cons, fits_nil, List.drop_drop]
    split_ifs <;> simp_all

/-- The suffix of a number with a fraction or an exponent is the longest of its words. -/
theorem exists_floatSuffix (bytes : List UInt8) :
    ∃ part rest, bytes = part ++ rest ∧ Suffix floatWords part rest ∧
      part.length = floatSuffix bytes := by
  refine exists_suffix ?_ ?_
  · unfold floatSuffix
    simp only [floatWords, List.mem_cons, List.not_mem_nil, or_false, exists_eq_or_imp,
      exists_eq_left, fits_cons, fits_nil, startsWith_or]
    split_ifs <;> simp_all [or_assoc]
  · unfold floatSuffix
    simp only [floatWords, List.forall_mem_cons, fits_cons, fits_nil, startsWith_or]
    split_ifs <;> simp_all

/-- Behind a part stands what is behind it. -/
theorem drop_add_length (hb : bytes.drop size = part ++ rest) :
    bytes.drop (size + part.length) = rest := by
  rw [← List.drop_drop, hb, List.drop_left]

theorem integer_of_suffix (hs : Suffix integerWords suffix rest)
    (hb : bytes.drop size = suffix ++ rest) :
    integer kind bytes size = ⟨kind, size + suffix.length⟩ := by
  obtain ⟨part, behind, hparts, hpart, hsize⟩ := exists_integerSuffix (bytes.drop size)
  rw [integer, ← hsize, hpart.length_eq hs (hparts.symm.trans hb)]

theorem float_of_suffix (hs : Suffix floatWords suffix rest)
    (hb : bytes.drop size = suffix ++ rest) :
    float kind bytes size = ⟨kind, size + suffix.length⟩ := by
  obtain ⟨part, behind, hparts, hpart, hsize⟩ := exists_floatSuffix (bytes.drop size)
  rw [float, ← hsize, hpart.length_eq hs (hparts.symm.trans hb)]

/-- A fraction is read as long as it is. -/
theorem Fraction.size_eq (h : Fraction digit part rest) (hb : bytes.drop size = part ++ rest) :
    startsWith (· == 0x2E) (bytes.drop size) = !part.isEmpty ∧
      (if startsWith (· == 0x2E) (bytes.drop size) = true then
        size + 1 + Sequence.run digit (bytes.drop (size + 1)) else size) = size + part.length := by
  rw [← List.drop_drop, hb]
  cases h with
  | absent hpoint =>
    rw [List.nil_append, hpoint]
    exact ⟨rfl, rfl⟩
  | present hdigits =>
    refine ⟨rfl, ?_⟩
    rw [List.cons_append, if_pos (show startsWith (· == 0x2E) (0x2E :: _) = true from rfl),
      List.drop_succ_cons, List.drop_zero, hdigits.run_eq, List.length_cons]
    omega

/-- A sign is read if it stands there. -/
theorem Sign.size_eq (h : Sign part rest) (hb : bytes.drop size = part ++ rest) :
    (if startsWith (fun b => b == 0x2B || b == 0x2D) (bytes.drop size) = true then size + 1
      else size) = size + part.length := by
  rw [hb]
  cases h with
  | absent hsign => exact if_neg (Bool.eq_false_iff.mp hsign)
  | present hsign => exact if_pos hsign

theorem Exponent.startsWith (h : Exponent letter part rest) :
    startsWith (isLetter letter) (part ++ rest) = true := by
  obtain ⟨hmarker, -, -, -⟩ := h
  exact hmarker

theorem BrokenExponent.startsWith (h : BrokenExponent letter part rest) :
    startsWith (isLetter letter) (part ++ rest) = true := by
  obtain ⟨hmarker, -, -⟩ := h
  exact hmarker

/-- An exponent and the suffix behind it end the number. -/
theorem Exponent.exponent_eq (h : Exponent letter part (suffix ++ rest))
    (hs : Suffix floatWords suffix rest) (hb : bytes.drop size = part ++ (suffix ++ rest)) :
    exponent kind bytes (size + 1) = ⟨kind, size + part.length + suffix.length⟩ := by
  obtain @⟨marker, sign, digits, _, hmarker, hsign, hne, hdigits⟩ := h
  have hbehind : bytes.drop (size + 1) = sign ++ (digits ++ (suffix ++ rest)) := by
    rw [← List.drop_drop, hb, List.cons_append, List.drop_succ_cons, List.drop_zero,
      List.append_assoc]
  have hsigned := drop_add_length hbehind
  unfold exponent
  dsimp only
  rw [hsign.size_eq hbehind, hsigned, hdigits.run_eq,
    if_neg (fun h => hne (List.length_eq_zero_iff.mp h)),
    float_of_suffix hs (drop_add_length hsigned), List.length_cons, List.length_append]
  congr 1
  omega

/-- An exponent that breaks off ends the number where its digits are missing. -/
theorem BrokenExponent.exponent_eq (h : BrokenExponent letter part rest)
    (hb : bytes.drop size = part ++ rest) :
    exponent kind bytes (size + 1) = ⟨.error, size + part.length⟩ := by
  obtain @⟨marker, sign, _, hmarker, hsign, hdigit⟩ := h
  have hbehind : bytes.drop (size + 1) = sign ++ rest := by
    rw [← List.drop_drop, hb, List.cons_append, List.drop_succ_cons, List.drop_zero]
  unfold exponent
  dsimp only
  rw [hsign.size_eq hbehind, drop_add_length hbehind, if_pos (View.run_eq_zero_iff.mpr hdigit),
    List.length_cons]
  congr 1
  omega

end TextUnits.Lexer
