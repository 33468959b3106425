import TextUnits.Proofs.Scan.Lines
import TextUnits.Proofs.Scan.Trimming
import Mathlib.Data.List.DropRight

/-!
# Scans by code points

On the UTF-8 bytes of scalar values, zeros among them, every scan has an answer in terms of the
scalar values: the longest beginning of white space, what is left without the longest end of blanks,
the first blank, the end of the line and the break there. The offsets are encoded sizes. Whether all
is blank can be asked of the bytes, of the content that they have or of the units of UTF-32.
-/

namespace TextUnits.Scan

open Encoding

/-- The code points with the property White_Space. -/
def whitespaceCodes : List Nat :=
  [0x09, 0x0A, 0x0B, 0x0C, 0x0D, 0x20, 0x85, 0xA0, 0x1680, 0x2000, 0x2001, 0x2002, 0x2003, 0x2004,
   0x2005, 0x2006, 0x2007, 0x2008, 0x2009, 0x200A, 0x2028, 0x2029, 0x202F, 0x205F, 0x3000]

/-- White space and U+0000. -/
def blankCodes : List Nat := 0 :: whitespaceCodes

/-- The code points where a line ends: line breaks and U+0000. -/
def finalCodes : List Nat := 0 :: breakCodes

/-- The line break at the front, of which CR LF is one. -/
def frontBreak : List Nat → List Nat
  | 0x0D :: 0x0A :: _ => [0x0D, 0x0A]
  | code :: _ => if code ∈ breakCodes then [code] else []
  | [] => []

variable {codes rest : List Nat} {code : Nat}

theorem isWhitespace_iff : Scalar.isWhitespace code = true ↔ code ∈ whitespaceCodes := by
  simp only [Scalar.isWhitespace, whitespaceCodes, Bool.or_eq_true, Bool.and_eq_true,
    decide_eq_true_eq, beq_iff_eq, List.mem_cons, List.not_mem_nil, or_false]
  omega

theorem isBlank_iff : Scalar.isBlank code = true ↔ code ∈ blankCodes := by
  rw [Scalar.isBlank, Bool.or_eq_true, beq_iff_eq, isWhitespace_iff, blankCodes, List.mem_cons]

/-- The leading run is the longest one of white space. -/
theorem leading_codes (h : ∀ c ∈ codes, Scalar.isScalar c = true) :
    leading (utf8.encodeAll codes) =
      (utf8.encodeAll (codes.takeWhile (· ∈ whitespaceCodes))).length := by
  induction codes with
  | nil =>
    rw [leading_of_stop (.inr rfl)]
    rfl
  | cons code rest ih =>
    obtain ⟨hcode, hrest⟩ := List.forall_mem_cons.mp h
    by_cases hzero : code = 0
    · rw [leading_of_stop (.inl ((head?_encodeAll_cons_eq_zero h).mpr hzero)), hzero]
      rfl
    · have hblank : Scalar.isBlank code = decide (code ∈ whitespaceCodes) := by
        rw [Bool.eq_iff_iff, isBlank_iff, decide_eq_true_iff, blankCodes, List.mem_cons,
          or_iff_right hzero]
      rw [leading_of_next? (mt (head?_encodeAll_cons_eq_zero h).mp hzero)
        (next?_encodeAll hcode rest), hblank, List.takeWhile_cons]
      split_ifs
      · rw [ih hrest, length_encodeAll_cons]
      · rfl

/-- What an end of blanks leaves of a sequence, by its first item. -/
theorem rdropWhile_cons {α : Type} (p : α → Bool) (a : α) (l : List α) :
    (a :: l).rdropWhile p =
      if l.rdropWhile p = [] ∧ p a = true then [] else a :: l.rdropWhile p := by
  rw [List.rdropWhile, List.rdropWhile, List.reverse_cons, List.dropWhile_append]
  by_cases hall : l.reverse.dropWhile p = []
  · rw [hall]
    by_cases ha : p a = true
    · simp [ha]
    · simp [ha]
  · simp [hall]

theorem length_encodeAll_eq_zero : (utf8.encodeAll codes).length = 0 ↔ codes = [] := by
  rw [List.length_eq_zero_iff, encodeAll_eq_nil_iff]

/-- The content is all but the longest end of blanks. -/
theorem content_codes (h : ∀ c ∈ codes, Scalar.isScalar c = true) :
    content (utf8.encodeAll codes) =
      (utf8.encodeAll (codes.rdropWhile (· ∈ blankCodes))).length := by
  induction codes with
  | nil =>
    rw [content_of_stop rfl]
    rfl
  | cons code rest ih =>
    obtain ⟨hcode, hrest⟩ := List.forall_mem_cons.mp h
    rw [content_of_next? (next?_encodeAll hcode rest), ih hrest, rdropWhile_cons]
    rw [if_congr (and_congr length_encodeAll_eq_zero (isBlank_iff.trans decide_eq_true_iff.symm))
      rfl rfl]
    split_ifs
    · rfl
    · exact (length_encodeAll_cons ..).symm

/-- The blank that is found is the first one. -/
theorem blank?_codes (h : ∀ c ∈ codes, Scalar.isScalar c = true) :
    blank? (utf8.encodeAll codes) =
      (codes.findIdx? (· ∈ blankCodes)).map fun n => (utf8.encodeAll (codes.take n)).length := by
  induction codes with
  | nil => exact blank?_of_stop rfl
  | cons code rest ih =>
    obtain ⟨hcode, hrest⟩ := List.forall_mem_cons.mp h
    rw [blank?_of_next? (next?_encodeAll hcode rest), List.findIdx?_cons, ih hrest]
    simp only [isBlank_iff, decide_eq_true_eq]
    split_ifs
    · rfl
    · rw [Option.map_map, Option.map_map]
      congr 1
      funext n
      exact (length_encodeAll_cons ..).symm

/-- All is blank when the first code point is blank and the rest is. -/
theorem isBlank_of_next? {bytes behind : List UInt8} {size : Nat}
    (h : next? bytes = some (code, size, behind)) :
    isBlank bytes = (Scalar.isBlank code && isBlank behind) := by
  have hne : bytes.isEmpty = false := by
    cases bytes with
    | nil => cases h
    | cons => rfl
  rw [isBlank, hne, if_neg Bool.false_ne_true]
  split
  · cases h.symm.trans ‹_›
  · cases h.symm.trans ‹_›
    rfl

/-- A break at the front that is no CR LF is one code point. -/
theorem frontBreak_of_mem (h : code ∈ breakCodes)
    (hpair : ¬ (code = 0x0D ∧ rest.head? = some 0x0A)) : frontBreak (code :: rest) = [code] := by
  unfold frontBreak
  split
  · rename_i hpattern
    cases hpattern
    exact absurd ⟨rfl, rfl⟩ hpair
  · rename_i hpattern
    cases hpattern
    exact if_pos h
  · rename_i hpattern
    cases hpattern

/-- The size of a break at the front, one byte more for a CR with a LF behind it. -/
theorem length_frontBreak (h : code ∈ breakCodes) (rest : List Nat) :
    (utf8.encodeAll (frontBreak (code :: rest))).length =
      if code = 0x0D ∧ rest.head? = some 0x0A then utf8.width code + 1 else utf8.width code := by
  split_ifs with hpair
  · obtain ⟨rfl, hhead⟩ := hpair
    obtain ⟨tail, rfl⟩ := List.head?_eq_some_iff.mp hhead
    rfl
  · rw [frontBreak_of_mem h hpair, length_encodeAll_cons]
    rfl

/-- The line at the front goes up to the first line break, zero or the end. -/
theorem line_codes (h : ∀ c ∈ codes, Scalar.isScalar c = true) :
    (lineEnd (utf8.encodeAll codes)).line =
      (utf8.encodeAll (codes.takeWhile (· ∉ finalCodes))).length := by
  induction codes with
  | nil =>
    rw [lineEnd_of_stop (.inr rfl)]
    rfl
  | cons code rest ih =>
    by_cases hzero : code = 0
    · rw [lineEnd_of_stop (.inl ((head?_encodeAll_cons_eq_zero h).mpr hzero)), hzero]
      rfl
    · have hfinal : code ∈ finalCodes ↔ code ∈ breakCodes := by
        rw [finalCodes, List.mem_cons, or_iff_right hzero]
      rw [lineEnd_encodeAll_of_ne_zero h hzero, List.takeWhile_cons]
      by_cases hbreak : code ∈ breakCodes
      · rw [if_pos hbreak, decide_eq_false (not_not.mpr (hfinal.mpr hbreak))]
        rfl
      · rw [if_neg hbreak, decide_eq_true (mt hfinal.mp hbreak), if_pos rfl, length_encodeAll_cons,
          ← ih (List.forall_mem_cons.mp h).2]

/-- The next line starts behind the break at the end of the line, where there is one. -/
theorem next_codes (h : ∀ c ∈ codes, Scalar.isScalar c = true) :
    (lineEnd (utf8.encodeAll codes)).next = (lineEnd (utf8.encodeAll codes)).line +
      (utf8.encodeAll (frontBreak (codes.dropWhile (· ∉ finalCodes)))).length := by
  induction codes with
  | nil =>
    rw [lineEnd_of_stop (.inr rfl)]
    rfl
  | cons code rest ih =>
    by_cases hzero : code = 0
    · rw [lineEnd_of_stop (.inl ((head?_encodeAll_cons_eq_zero h).mpr hzero)), hzero]
      rfl
    · have hfinal : code ∈ finalCodes ↔ code ∈ breakCodes := by
        rw [finalCodes, List.mem_cons, or_iff_right hzero]
      rw [lineEnd_encodeAll_of_ne_zero h hzero, List.dropWhile_cons]
      by_cases hbreak : code ∈ breakCodes
      · rw [if_pos hbreak, decide_eq_false (not_not.mpr (hfinal.mpr hbreak)),
          if_neg Bool.false_ne_true, Nat.zero_add, length_frontBreak hbreak]
      · rw [if_neg hbreak, decide_eq_true (mt hfinal.mp hbreak), if_pos rfl,
          ih (List.forall_mem_cons.mp h).2, Nat.add_assoc]

/-- Bytes are blank when all code points are. -/
theorem isBlank_codes (h : ∀ c ∈ codes, Scalar.isScalar c = true) :
    isBlank (utf8.encodeAll codes) = true ↔ ∀ code ∈ codes, code ∈ blankCodes := by
  induction codes with
  | nil =>
    rw [isBlank]
    exact iff_of_true rfl (List.forall_mem_nil _)
  | cons code rest ih =>
    obtain ⟨hcode, hrest⟩ := List.forall_mem_cons.mp h
    rw [isBlank_of_next? (next?_encodeAll hcode rest), Bool.and_eq_true, isBlank_iff, ih hrest,
      List.forall_mem_cons]

/-- The content is empty when all code points are blank. -/
theorem content_codes_eq_zero_iff (h : ∀ c ∈ codes, Scalar.isScalar c = true) :
    content (utf8.encodeAll codes) = 0 ↔ ∀ code ∈ codes, code ∈ blankCodes := by
  rw [content_codes h, length_encodeAll_eq_zero, List.rdropWhile_eq_nil_iff]
  simp only [decide_eq_true_eq]

/-- Units of UTF-32 are blank when all code points are. -/
theorem isBlank32_codes (h : ∀ c ∈ codes, Scalar.isScalar c = true) :
    isBlank32 (utf32.encodeAll codes) = true ↔ ∀ code ∈ codes, code ∈ blankCodes := by
  induction codes with
  | nil => exact iff_of_true rfl (List.forall_mem_nil _)
  | cons code rest ih =>
    obtain ⟨hcode, hrest⟩ := List.forall_mem_cons.mp h
    have hunit : (UInt32.ofNat code).toNat = code := by
      rw [UInt32.toNat_ofNat', Nat.mod_eq_of_lt]
      exact Nat.lt_of_le_of_lt (Scalar.isScalar_iff.mp hcode).1 (by decide)
    rw [encodeAll_cons]
    change (Scalar.isBlank (UInt32.ofNat code).toNat && isBlank32 (utf32.encodeAll rest)) = true ↔ _
    rw [Bool.and_eq_true, hunit, isBlank_iff, ih hrest, List.forall_mem_cons]

/-- The answers of the scans by the code points of a text, as encoded sizes, and three ways to ask
whether all of it is blank. -/
theorem scan_codes (codes : List Nat) (h : ∀ c ∈ codes, Scalar.isScalar c = true) :
    leading (utf8.encodeAll codes) =
        (utf8.encodeAll (codes.takeWhile (· ∈ whitespaceCodes))).length ∧
      content (utf8.encodeAll codes) =
        (utf8.encodeAll (codes.rdropWhile (· ∈ blankCodes))).length ∧
      blank? (utf8.encodeAll codes) =
        (codes.findIdx? (· ∈ blankCodes)).map (fun n => (utf8.encodeAll (codes.take n)).length) ∧
      ((lineEnd (utf8.encodeAll codes)).line =
          (utf8.encodeAll (codes.takeWhile (· ∉ finalCodes))).length ∧
        (lineEnd (utf8.encodeAll codes)).next = (lineEnd (utf8.encodeAll codes)).line +
          (utf8.encodeAll (frontBreak (codes.dropWhile (· ∉ finalCodes)))).length) ∧
      (isBlank (utf8.encodeAll codes) = true ↔ ∀ code ∈ codes, code ∈ blankCodes) ∧
      (isBlank32 (utf32.encodeAll codes) = true ↔ isBlank (utf8.encodeAll codes) = true) ∧
      (content (utf8.encodeAll codes) = 0 ↔ isBlank (utf8.encodeAll codes) = true) := by
  refine ⟨leading_codes h, content_codes h, blank?_codes h, ⟨line_codes h, next_codes h⟩,
    isBlank_codes h, ?_, ?_⟩
  · rw [isBlank32_codes h, isBlank_codes h]
  · rw [content_codes_eq_zero_iff h, isBlank_codes h]

/-- A line of `é` between blanks of two and three bytes ends with CR LF, and a zero ends what
follows. -/
theorem scan_codes_zero :
    let codes := [0xA0, 0x2003, 0xE9, 0x0D, 0x0A, 0x00, 0x20]
    (∀ c ∈ codes, Scalar.isScalar c = true) ∧ leading (utf8.encodeAll codes) = 5 ∧
      content (utf8.encodeAll codes) = 7 ∧ blank? (utf8.encodeAll codes) = some 0 ∧
      lineEnd (utf8.encodeAll codes) = ⟨7, 9⟩ ∧ isBlank (utf8.encodeAll codes) = false := by
  intro codes
  have hscalar : ∀ c ∈ codes, Scalar.isScalar c = true := by decide
  obtain ⟨hleading, hcontent, hblank, ⟨hline, hnext⟩, -, -, hempty⟩ := scan_codes codes hscalar
  have hlength : content (utf8.encodeAll codes) = 7 := hcontent.trans (by decide)
  have hbehind : (lineEnd (utf8.encodeAll codes)).line = 7 := hline.trans (by decide)
  refine ⟨hscalar, hleading.trans (by decide), hlength, hblank.trans (by decide), ?_, ?_⟩
  · have hsize : (utf8.encodeAll (frontBreak (codes.dropWhile (· ∉ finalCodes)))).length = 2 := by
      decide
    rw [hsize, hbehind] at hnext
    exact congrArg₂ LineEnd.mk hbehind hnext
  · rw [← Bool.not_eq_true, ← hempty, hlength]
    decide

end TextUnits.Scan
