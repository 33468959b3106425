import TextUnits.Proofs.Lexer.Extent

/-!
# Numbers read in place

A source need not be cut to the bytes that are to be read: a reader can look at all of it and
compare each place with a limit. A `View` is a source with such a limit. Its readers go from place
to place and answer with the place where they stop. They agree with the readers of the bytes
between the place and the limit, so what stands behind the limit makes no difference to them.
-/

namespace TextUnits.Lexer

/-- Whether a byte is an octal digit that is not zero. -/
def isNonZeroOctal (b : UInt8) : Bool := 0x31 ≤ b && b ≤ 0x37

/-- A source of which only the bytes in front of a limit are to be read. -/
structure View where
  /-- All bytes of the source. -/
  source : List UInt8
  /-- How many of them are to be read. -/
  limit : Nat

namespace View

variable {v : View} {test : UInt8 → Bool} {n m : Nat} {kind : Kind}

/-- The byte at a place in front of the limit. -/
def byte? (v : View) (n : Nat) : Option UInt8 := if n < v.limit then v.source[n]? else none

/-- The bytes from a place up to the limit. -/
def behind (v : View) (n : Nat) : List UInt8 := (v.source.take v.limit).drop n

/-- Whether the byte at a place passes a test. -/
def passes (v : View) (test : UInt8 → Bool) (n : Nat) : Bool := (v.byte? n).any test

theorem lt_limit_of_passes (h : v.passes test n = true) : n < v.limit := by
  unfold passes byte? at h
  split_ifs at h with hlt
  · exact hlt
  · cases h

/-- The place behind the bytes from a place on that pass a test. -/
def skip (v : View) (test : UInt8 → Bool) (n : Nat) : Nat :=
  if _pass : v.passes test n then v.skip test (n + 1) else n
termination_by v.limit - n
decreasing_by
  have hlt := lt_limit_of_passes _pass
  omega

/-- The place behind the suffix of an integer. -/
def integerEnd (v : View) (n : Nat) : Nat :=
  if v.passes (isLetter 'u') n then
    if v.passes (isLetter 'l') (n + 1) then
      if v.passes (isLetter 'l') (n + 2) then n + 3 else n + 2
    else n + 1
  else if v.passes (isLetter 'l') n then
    if v.passes (isLetter 'l') (n + 1) then
      if v.passes (isLetter 'u') (n + 2) then n + 3 else n + 2
    else if v.passes (isLetter 'u') (n + 1) then n + 2 else n + 1
  else n

/-- The place behind the suffix of a number with a fraction or an exponent. -/
def floatEnd (v : View) (n : Nat) : Nat :=
  if v.passes (fun b => isLetter 'f' b || isLetter 'd' b || isLetter 'l' b) n then n + 1 else n

/-- A number whose exponent goes on at a place, behind its letter. -/
def exponent (v : View) (kind : Kind) (n : Nat) : Kind × Nat :=
  let signed := if v.passes (fun b => b == 0x2B || b == 0x2D) n then n + 1 else n
  if v.passes isDigit signed then (kind, v.floatEnd (v.skip isDigit signed)) else (.error, signed)

/-- The number that starts with `0x` at a place. -/
def hexNumber (v : View) (start : Nat) : Kind × Nat :=
  let whole := v.skip isHex (start + 2)
  let pointed := v.passes (· == 0x2E) whole
  let stop := if pointed then v.skip isHex (whole + 1) else whole
  if v.passes (isLetter 'p') stop then v.exponent .floatHex (stop + 1)
  else if pointed then (.error, stop)
  else (.integerHex, v.integerEnd stop)

/-- The octal number at a place, unless a digit that is not octal, a point or an exponent follows
its digits. -/
def octalNumber? (v : View) (start : Nat) : Option (Kind × Nat) :=
  let first := v.skip (· == 0x30) (start + 1)
  if v.passes isNonZeroOctal first then
    let stop := v.skip isOctal first
    if v.passes (fun b => isDigit b || b == 0x2E || isLetter 'e' b) stop then none
    else some (.integerOct, v.integerEnd stop)
  else none

/-- The number in decimal digits at a place. -/
def decimalNumber (v : View) (start : Nat) : Kind × Nat :=
  let whole := v.skip isDigit (start + 1)
  let pointed := v.passes (· == 0x2E) whole
  let stop := if pointed then v.skip isDigit (whole + 1) else whole
  if v.passes (isLetter 'e') stop then v.exponent .floatDec (stop + 1)
  else if pointed then (.floatDec, v.floatEnd stop)
  else (.integerDec, v.integerEnd stop)

/-- The number that starts at a place, and the place behind it. -/
def number (v : View) (start : Nat) : Kind × Nat :=
  if v.passes (· == 0x30) start ∧ start + 1 < v.limit then
    if v.passes (isLetter 'x') (start + 1) then v.hexNumber start
    else if v.passes (isLetter 'b') (start + 1) then
      (.integerBin, v.integerEnd (v.skip isBinary (start + 2)))
    else (v.octalNumber? start).getD (v.decimalNumber start)
  else v.decimalNumber start

theorem byte?_eq (v : View) (n : Nat) : v.byte? n = (v.behind n).head? := by
  rw [behind, List.head?_drop, List.getElem?_take, byte?]

theorem behind_add (v : View) (n m : Nat) : v.behind (n + m) = (v.behind n).drop m := by
  rw [behind, behind, List.drop_drop]

theorem passes_eq (v : View) (test : UInt8 → Bool) (n : Nat) :
    v.passes test n = startsWith test (v.behind n) := by
  rw [passes, byte?_eq]
  cases v.behind n <;> rfl

theorem passes_add (v : View) (test : UInt8 → Bool) (n m : Nat) :
    v.passes test (n + m) = startsWith test ((v.behind n).drop m) := by
  rw [passes_eq, behind_add]

/-- Bytes that start with one that passes a test start with that byte. -/
theorem exists_of_passes (h : v.passes test n = true) :
    ∃ b, test b = true ∧ v.behind n = b :: v.behind (n + 1) := by
  rw [passes_eq] at h
  have hdrop := v.behind_add n 1
  cases hb : v.behind n with
  | nil =>
    rw [hb] at h
    cases h
  | cons b rest =>
    rw [hb] at h hdrop
    exact ⟨b, h, congrArg (b :: ·) hdrop.symm⟩

/-- A run of bytes is empty where its test fails. -/
theorem run_eq_zero_iff {bytes : List UInt8} :
    Sequence.run test bytes = 0 ↔ startsWith test bytes = false := by
  cases bytes with
  | nil => exact ⟨fun _ => rfl, fun _ => rfl⟩
  | cons b rest =>
    rw [Sequence.run, List.takeWhile_cons, startsWith]
    cases test b <;> simp

/-- Bytes are skipped as long as they pass the test. -/
theorem skip_eq (v : View) (test : UInt8 → Bool) (n : Nat) :
    v.skip test n = n + Sequence.run test (v.behind n) := by
  induction n using skip.induct v test with
  | case1 n hpass ih =>
    obtain ⟨b, hb, hbehind⟩ := exists_of_passes hpass
    rw [skip, dif_pos hpass, ih, hbehind, Sequence.run, Sequence.run, List.takeWhile_cons_of_pos hb,
      List.length_cons]
    omega
  | case2 n hpass =>
    rw [skip, dif_neg hpass]
    rw [passes_eq, Bool.not_eq_true] at hpass
    rw [run_eq_zero_iff.mpr hpass, Nat.add_zero]

theorem skip_add (v : View) (test : UInt8 → Bool) (n m : Nat) :
    v.skip test (n + m) = n + (m + Sequence.run test ((v.behind n).drop m)) := by
  rw [skip_eq, behind_add, Nat.add_assoc]

theorem integerEnd_eq (v : View) (n : Nat) :
    v.integerEnd n = n + integerSuffix (v.behind n) := by
  simp only [integerEnd, integerSuffix, passes_eq, behind_add]
  split_ifs <;> rfl

theorem floatEnd_eq (v : View) (n : Nat) : v.floatEnd n = n + floatSuffix (v.behind n) := by
  simp only [floatEnd, floatSuffix, passes_eq]
  split_ifs <;> rfl

/-- What was found at the front of the bytes behind a place, with the place where it ends. -/
def found (start : Nat) (f : Found) : Kind × Nat := (f.kind, start + f.size)

theorem integer_found (v : View) (kind : Kind) (start size : Nat) :
    (kind, v.integerEnd (start + size)) = found start (integer kind (v.behind start) size) := by
  rw [integerEnd_eq, integer, behind_add, found, Nat.add_assoc]

theorem float_found (v : View) (kind : Kind) (start size : Nat) :
    (kind, v.floatEnd (start + size)) = found start (float kind (v.behind start) size) := by
  rw [floatEnd_eq, float, behind_add, found, Nat.add_assoc]

theorem exponent_found (v : View) (kind : Kind) (start size : Nat) :
    v.exponent kind (start + size) = found start (Lexer.exponent kind (v.behind start) size) := by
  have hsigned : (if v.passes (fun b => b == 0x2B || b == 0x2D) (start + size) = true then
        start + size + 1 else start + size) =
      start + if startsWith (fun b => b == 0x2B || b == 0x2D) ((v.behind start).drop size) = true
        then size + 1 else size := by
    rw [passes_add]
    split_ifs <;> rfl
  unfold exponent Lexer.exponent
  dsimp only
  rw [hsigned]
  generalize (if startsWith (fun b => b == 0x2B || b == 0x2D) ((v.behind start).drop size) = true
    then size + 1 else size) = signed
  rw [passes_add, skip_add, float_found]
  cases hdigit : startsWith isDigit ((v.behind start).drop signed) with
  | false => rw [if_neg Bool.false_ne_true, if_pos (run_eq_zero_iff.mpr hdigit)]; rfl
  | true =>
    have hrun : Sequence.run isDigit ((v.behind start).drop signed) ≠ 0 := by
      rw [ne_eq, run_eq_zero_iff, hdigit]
      decide
    rw [if_pos rfl, if_neg hrun]

/-- A whole part and a fraction end at the same place. -/
theorem fraction_found (v : View) (test : UInt8 → Bool) (start whole : Nat) :
    (if v.passes (· == 0x2E) (start + whole) = true then v.skip test (start + whole + 1)
      else start + whole) =
    start + if startsWith (· == 0x2E) ((v.behind start).drop whole) = true then
      whole + 1 + Sequence.run test ((v.behind start).drop (whole + 1)) else whole := by
  rw [passes_add, Nat.add_assoc start whole 1, skip_add]
  split_ifs <;> rfl

theorem hexNumber_found (v : View) (start : Nat) :
    v.hexNumber start = found start (Lexer.hexNumber (v.behind start)) := by
  unfold hexNumber Lexer.hexNumber
  dsimp only
  rw [skip_add, fraction_found, passes_add]
  generalize 2 + Sequence.run isHex ((v.behind start).drop 2) = whole
  generalize (if startsWith (· == 0x2E) ((v.behind start).drop whole) = true then
    whole + 1 + Sequence.run isHex ((v.behind start).drop (whole + 1)) else whole) = size
  rw [passes_add, Nat.add_assoc, exponent_found, integer_found]
  split_ifs <;> rfl

theorem decimalNumber_found (v : View) (start : Nat) :
    v.decimalNumber start = found start (Lexer.decimalNumber (v.behind start)) := by
  unfold decimalNumber Lexer.decimalNumber
  dsimp only
  rw [skip_add, fraction_found, passes_add]
  generalize 1 + Sequence.run isDigit ((v.behind start).drop 1) = whole
  generalize (if startsWith (· == 0x2E) ((v.behind start).drop whole) = true then
    whole + 1 + Sequence.run isDigit ((v.behind start).drop (whole + 1)) else whole) = size
  rw [passes_add, Nat.add_assoc, exponent_found, float_found, integer_found]
  split_ifs <;> rfl

/-- Where no zero stands an octal digit is one that is not zero. -/
theorem startsWith_isNonZeroOctal {bytes : List UInt8}
    (h : ∀ b ∈ bytes.head?, (b == 0x30) = false) :
    startsWith isNonZeroOctal bytes = startsWith isOctal bytes := by
  cases bytes with
  | nil => rfl
  | cons b rest =>
    have hsame : ∀ b : UInt8, (b == 0x30) = false → isNonZeroOctal b = isOctal b :=
      forall_byte (by decide +kernel)
    exact hsame b (h b rfl)

theorem octalNumber?_found (v : View) (start : Nat) :
    v.octalNumber? start = (Lexer.octalNumber? (v.behind start)).map (found start) := by
  have hzeros := Sequence.not_of_mem_head?_drop_run (· == 0x30) ((v.behind start).drop 1)
  rw [List.drop_drop] at hzeros
  unfold octalNumber? Lexer.octalNumber?
  dsimp only
  rw [skip_add]
  generalize 1 + Sequence.run (· == 0x30) ((v.behind start).drop 1) = zeros at hzeros ⊢
  rw [passes_add, startsWith_isNonZeroOctal hzeros, skip_add, passes_add, integer_found]
  generalize zeros + Sequence.run isOctal ((v.behind start).drop zeros) = size
  cases startsWith isOctal ((v.behind start).drop zeros) <;>
    cases startsWith (fun b => isDigit b || b == 0x2E || isLetter 'e' b)
      ((v.behind start).drop size) <;> rfl

theorem octalNumber?_of_end {bytes : List UInt8} (h : bytes.drop 1 = []) :
    Lexer.octalNumber? bytes = none := by
  unfold Lexer.octalNumber?
  simp [h, Sequence.run, startsWith]

/-- A number that starts with a zero has the base that the byte behind the zero tells; at the end of
the bytes it is a decimal one. -/
theorem number_eq (bytes : List UInt8) :
    Lexer.number bytes =
      if startsWith (· == 0x30) bytes then
        if startsWith (isLetter 'x') (bytes.drop 1) then Lexer.hexNumber bytes
        else if startsWith (isLetter 'b') (bytes.drop 1) then
          integer .integerBin bytes (2 + Sequence.run isBinary (bytes.drop 2))
        else (Lexer.octalNumber? bytes).getD (Lexer.decimalNumber bytes)
      else Lexer.decimalNumber bytes := by
  unfold Lexer.number
  by_cases hlt : 1 < bytes.length
  · simp only [hlt, and_true]
  · have hend : bytes.drop 1 = [] := List.drop_eq_nil_of_le (Nat.not_lt.mp hlt)
    rw [if_neg (fun h => hlt h.2), hend, octalNumber?_of_end hend]
    exact (ite_self _).symm

/-- A number read in place is the one at the front of the bytes from its place up to the limit. -/
theorem number_found (v : View) (start : Nat) :
    v.number start = found start (Lexer.number (v.behind start)) := by
  rw [number_eq]
  unfold number
  rw [hexNumber_found, octalNumber?_found, decimalNumber_found, passes_add, passes_add, skip_add,
    integer_found, passes_eq]
  by_cases hlt : start + 1 < v.limit
  · simp only [hlt, and_true]
    split_ifs
    · rfl
    · rfl
    · cases Lexer.octalNumber? (v.behind start) <;> rfl
    · rfl
  · have hend : (v.behind start).drop 1 = [] := by
      rw [← behind_add]
      refine List.drop_eq_nil_of_le (Nat.le_trans ?_ (Nat.not_lt.mp hlt))
      exact List.length_take_le _ _
    rw [if_neg (fun h => hlt h.2), hend, octalNumber?_of_end hend]
    exact congrArg _ (ite_self _).symm

end View

end TextUnits.Lexer
