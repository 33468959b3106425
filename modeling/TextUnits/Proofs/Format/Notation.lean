import TextUnits.Format.Float
import TextUnits.Proofs.Number.Reading

/-!
# Notations of a number

The texts that a floating point conversion is put together from, by the numbers that they write:
digits with a point among them, the same with the zeros at the end left out, and an exponent behind
a letter. Zeros at the end of a fraction write nothing, but the units left out are the last ones of
the text, whatever they belong to.
-/

namespace TextUnits.Format

open Numeral

/-- A text without the zeros at its end. -/
def stripZeros (t : Text) : Text := (t.reverse.dropWhile (· == 0x30)).reverse

variable {t front later whole fraction : Text} {v : ℚ} {s : FloatStyle}

/-- What is left out of a text are zeros. -/
theorem exists_stripZeros (t : Text) : ∃ count, t = stripZeros t ++ zeros count := by
  refine ⟨(t.reverse.takeWhile (· == 0x30)).length, ?_⟩
  have hzeros : t.reverse.takeWhile (· == 0x30) =
      zeros (t.reverse.takeWhile (· == 0x30)).length := by
    refine List.eq_replicate_of_mem fun u hu => ?_
    exact eq_of_beq (List.mem_takeWhile_imp (p := (· == 0x30)) hu)
  have hsplit := List.takeWhile_append_dropWhile (p := (· == 0x30)) (l := t.reverse)
  rw [hzeros] at hsplit
  have hback := congrArg List.reverse hsplit
  rw [List.reverse_append, List.reverse_reverse, zeros, Text.fill, List.reverse_replicate] at hback
  exact hback.symm

/-- Each zero that is left out at the end of digits makes their number ten times as small. -/
theorem read_append_stripZeros (front : Text) {count : Nat} (h : t = stripZeros t ++ zeros count) :
    read (front ++ t) = read (front ++ stripZeros t) * 10 ^ count := by
  have hcount : (zeros count).length = count := List.length_replicate
  have hnothing : read (zeros count) = 0 := read_fill count
  conv_lhs => rw [h, ← List.append_assoc, read_append, hcount, hnothing, Nat.add_zero]

/-- A positive natural keeps digits, and if it loses any, what is left is at most a tenth of it. -/
theorem stripZeros_decimal {n : Nat} (h : 0 < n) :
    stripZeros (decimal n) ≠ [] ∧
      (stripZeros (decimal n) = decimal n ∨ 10 * read (stripZeros (decimal n)) ≤ n) := by
  obtain ⟨count, hsplit⟩ := exists_stripZeros (decimal n)
  have hread := read_append_stripZeros [] hsplit
  rw [List.nil_append, List.nil_append, read_decimal] at hread
  constructor
  · intro hnil
    have hnothing : read [] = 0 := rfl
    rw [hnil, hnothing, Nat.zero_mul] at hread
    omega
  · cases count with
    | zero =>
      left
      rw [zeros, Text.fill, List.replicate_zero, List.append_nil] at hsplit
      exact hsplit.symm
    | succ more =>
      right
      have hpower := Nat.one_le_pow more 10 (by decide)
      have hle := Nat.mul_le_mul_left (read (stripZeros (decimal n)) * 10) hpower
      rw [pow_succ', ← Nat.mul_assoc] at hread
      omega

/-- Zeros in front of another unit stay. -/
theorem stripZeros_append {u : UInt16} (hu : u ≠ 0x30) :
    stripZeros (front ++ u :: later) = front ++ u :: stripZeros later := by
  have hbeq : (u == 0x30) = false := beq_eq_false_iff_ne.mpr hu
  rw [stripZeros, List.reverse_append, List.reverse_cons, List.append_assoc, List.dropWhile_append]
  split_ifs with hempty
  · rw [List.singleton_append, List.dropWhile_cons, hbeq, stripZeros, List.isEmpty_iff.mp hempty]
    simp
  · rw [stripZeros]
    simp

/-- Without a point nothing is left out. -/
theorem trimZeros_of_not_mem (h : 0x2E ∉ t) : trimZeros t = t := by
  rw [trimZeros, if_neg]
  rwa [List.contains_iff_mem]

/-- With a point the zeros at the end are left out, and the point if nothing stands behind it. -/
theorem trimZeros_of_mem (h : 0x2E ∈ t) :
    trimZeros t =
      if (stripZeros t).getLast? = some 0x2E then (stripZeros t).dropLast else stripZeros t := by
  have hcontains : t.contains 0x2E = true := by rwa [List.contains_iff_mem]
  rw [trimZeros, if_pos hcontains, stripZeros, List.getLast?_reverse]
  dsimp only
  split_ifs
  · rw [List.dropLast_reverse]
  · rfl

theorem digits_stripZeros (h : Digits t) : Digits (stripZeros t) := by
  obtain ⟨count, hsplit⟩ := exists_stripZeros t
  rw [hsplit] at h
  exact (digits_append.mp h).1

/-- A fraction without the zeros at its end, or the digits in front of it if it is all zeros. -/
theorem trimZeros_fraction (hf : Digits fraction) :
    trimZeros (whole ++ 0x2E :: fraction) =
      if stripZeros fraction = [] then whole else whole ++ 0x2E :: stripZeros fraction := by
  have hmem : 0x2E ∈ whole ++ 0x2E :: fraction :=
    List.mem_append_right _ List.mem_cons_self
  rw [trimZeros_of_mem hmem, stripZeros_append (by decide)]
  by_cases hnone : stripZeros fraction = []
  · rw [hnone, if_pos rfl, List.getLast?_concat, if_pos rfl, List.dropLast_concat]
  · have hlast : (whole ++ 0x2E :: stripZeros fraction).getLast? =
        (stripZeros fraction).getLast? := by
      rw [List.getLast?_append, List.getLast?_cons, List.getLast?_eq_some_getLast hnone]
      rfl
    rw [if_neg hnone, hlast, if_neg]
    intro hpoint
    exact (digits_stripZeros hf).not_mem (by decide) (List.mem_of_getLast? hpoint)

/-- Leaving out the zeros at the end of a fraction keeps the number. -/
theorem pointed_trimZeros (h : Pointed t v) : Pointed (trimZeros t) v := by
  cases h with
  | whole hd hne =>
    rw [trimZeros_of_not_mem (hd.not_mem (by decide))]
    exact .whole hd hne
  | fraction hw hne hf =>
    rename_i whole fraction
    obtain ⟨count, hsplit⟩ := exists_stripZeros fraction
    have hstrip := digits_stripZeros hf
    have hten : (10 : ℚ) ^ count ≠ 0 := pow_ne_zero _ (by norm_num)
    have hzeros := read_append_stripZeros whole hsplit
    have hlength : fraction.length = (stripZeros fraction).length + count := by
      have hlengths := congrArg List.length hsplit
      rw [List.length_append, zeros, Text.fill, List.length_replicate] at hlengths
      exact hlengths
    have hvalue : (read (whole ++ fraction) : ℚ) / 10 ^ fraction.length =
        read (whole ++ stripZeros fraction) / 10 ^ (stripZeros fraction).length := by
      rw [hzeros, hlength, Nat.cast_mul, Nat.cast_pow, pow_add]
      exact mul_div_mul_right _ _ hten
    rw [hvalue, trimZeros_fraction hf]
    split_ifs with hnone
    · rw [hnone, List.append_nil, List.length_nil, pow_zero, div_one]
      exact .whole hw hne
    · exact .fraction hw hne hstrip

/-- A text that ends in an exponent loses the zeros at the end of the exponent, if it has a point. -/
theorem trimZeros_exponent (front : Text) (hp : Digits later) (hne : stripZeros later ≠ []) :
    trimZeros (front ++ 0x65 :: 0x2B :: later) =
      if 0x2E ∈ front then front ++ 0x65 :: 0x2B :: stripZeros later
      else front ++ 0x65 :: 0x2B :: later := by
  split_ifs with hpoint
  · have hlast : (front ++ 0x65 :: 0x2B :: stripZeros later).getLast? =
        (stripZeros later).getLast? := by
      rw [List.getLast?_append, List.getLast?_cons, List.getLast?_cons,
        List.getLast?_eq_some_getLast hne]
      rfl
    have hstrip : stripZeros (front ++ 0x65 :: 0x2B :: later) =
        front ++ 0x65 :: 0x2B :: stripZeros later := by
      rw [List.append_cons, stripZeros_append (by decide), ← List.append_cons]
    rw [trimZeros_of_mem (List.mem_append_left _ hpoint), hstrip, hlast, if_neg]
    intro hend
    exact (digits_stripZeros hp).not_mem (by decide) (List.mem_of_getLast? hend)
  · refine trimZeros_of_not_mem ?_
    rw [List.mem_append, List.mem_cons, List.mem_cons, not_or, not_or, not_or]
    exact ⟨hpoint, by decide, by decide, hp.not_mem (by decide)⟩

/-- Digits with a point in front of the last of them. -/
theorem pointed_pointed (hd : Digits t) (hne : t ≠ []) (places : Nat) :
    Pointed (pointed t places) (read t / 10 ^ places) := by
  by_cases hzero : places = 0
  · rw [pointed, if_pos hzero, hzero, pow_zero, div_one]
    exact .whole hd hne
  · have hlong := length_padLeft (places + 1) t
    have hpadded := digits_padLeft hd (places + 1)
    rw [pointed, if_neg hzero, ← read_padLeft (places + 1) t]
    generalize padLeft (places + 1) t = padded at hlong hpadded ⊢
    dsimp only
    have hparts := List.take_append_drop (padded.length - places) padded
    have hlength : (padded.drop (padded.length - places)).length = places := by
      rw [List.length_drop]
      omega
    have hwhole : padded.take (padded.length - places) ≠ [] := by
      rw [← List.length_pos_iff, List.length_take]
      omega
    rw [← hparts] at hpadded
    obtain ⟨hfront, hback⟩ := digits_append.mp hpadded
    have hpoint := Pointed.fraction hfront hwhole hback
    rw [hparts, hlength] at hpoint
    exact hpoint

/-- Zeros in front of digits, and a point in front of the last of them. -/
theorem pointed_decimal (n least places : Nat) :
    Pointed (pointed (padLeft least (decimal n)) places) (n / 10 ^ places) := by
  have hne : padLeft least (decimal n) ≠ [] :=
    List.append_ne_nil_of_right_ne_nil _ (decimal_ne_nil n)
  have hpoint := pointed_pointed (digits_padLeft (digits_decimal n) least) hne places
  rwa [read_padLeft, read_decimal] at hpoint

/-- An exponent is written behind its sign. -/
theorem exponentTail_eq (letter : Char) (e : ℤ) (least : Nat) :
    ∃ power, exponentTail letter e least = Text.unit letter :: power ∧
      signedOf? power = some e := by
  have hdigits : Digits (padLeft least (decimal e.natAbs)) :=
    digits_padLeft (digits_decimal e.natAbs) least
  have hne : padLeft least (decimal e.natAbs) ≠ [] :=
    List.append_ne_nil_of_right_ne_nil _ (decimal_ne_nil e.natAbs)
  refine ⟨_, rfl, ?_⟩
  rw [signedOf?, if_pos ⟨hne, hdigits⟩, read_padLeft, read_decimal]
  by_cases hneg : e < 0
  · rw [if_pos hneg, if_neg (by decide), if_pos rfl]
    exact congrArg some (by omega)
  · rw [if_neg hneg, if_pos rfl]
    exact congrArg some (by omega)

/-- A mantissa and an exponent write the mantissa times the power of ten. -/
theorem numberOf?_exponentTail (h : Pointed t v) (upper : Bool) (e : ℤ) (least : Nat) :
    numberOf? (t ++ exponentTail (if upper then 'E' else 'e') e least) = some (v * 10 ^ e) := by
  obtain ⟨power, htail, hpower⟩ := exponentTail_eq (if upper then 'E' else 'e') e least
  have hletter : isPower (Text.unit (if upper then 'E' else 'e')) = true := by
    cases upper <;> decide
  rw [htail]
  exact h.numberOf?_power hletter hpower

/-- The number of a mantissa and an exponent behind a plus sign. -/
theorem numberOf?_plus (h : Pointed t v) (hd : Digits later) (hne : later ≠ []) :
    numberOf? (t ++ 0x65 :: 0x2B :: later) = some (v * 10 ^ read later) := by
  have hpower : signedOf? (0x2B :: later) = some (read later : ℤ) := by
    rw [signedOf?, if_pos ⟨hne, hd⟩, if_pos rfl]
  rw [h.numberOf?_power (by decide) hpower, zpow_natCast]

/-- Without grouping and with a point as separator a text stays as it is. -/
theorem localized_eq (hg : s.flags.group = false) (hd : s.separators.decimal = [0x2E])
    (t : Text) : localized t s = t := by
  unfold localized
  dsimp only
  rw [hg, hd]
  cases hc : Text.cut? 0x2E t with
  | none => rfl
  | some parts =>
    rw [Text.eq_of_cut? hc]
    exact List.append_assoc _ _ _

end TextUnits.Format
