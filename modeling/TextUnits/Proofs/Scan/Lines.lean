import TextUnits.Proofs.Encoding.Boundaries
import TextUnits.Proofs.Scan.Within
import Mathlib.Data.List.TakeWhile

/-!
# Scans of well-formed text

On the UTF-8 bytes of scalar values none of which is zero, a scan sees the scalar values: a leading
run of blanks is the longest one, a line is the longest stretch without a line break, and the count
of line ends is the number of line breaks, of which CR LF is one. That number adds up over two parts
of a text unless the text is parted within a CR LF.
-/

namespace TextUnits.Scan

open Encoding

/-- The code points that break a line: LF, VT, FF, CR, NEL, LS and PS. -/
def breakCodes : List Nat := [0x0A, 0x0B, 0x0C, 0x0D, 0x85, 0x2028, 0x2029]

/-- Line breaks in a sequence of code points. A CR with a LF behind it is no break of its own. -/
def lineBreaks : List Nat → Nat
  | [] => 0
  | code :: rest =>
    if code ∈ breakCodes ∧ ¬ (code = 0x0D ∧ rest.head? = some 0x0A) then 1 + lineBreaks rest
    else lineBreaks rest

/-- No CR LF lies across the two parts of a text. -/
def Apart (before later : List Nat) : Prop :=
  before.getLast? = some 0x0D → later.head? ≠ some 0x0A

/-- Scalar values none of which is zero. -/
def Legible (codes : List Nat) : Prop := ∀ code ∈ codes, Scalar.isScalar code = true ∧ code ≠ 0

instance (codes : List Nat) : Decidable (Legible codes) :=
  inferInstanceAs (Decidable (∀ code ∈ codes, Scalar.isScalar code = true ∧ code ≠ 0))

variable {codes before later rest : List Nat} {code : Nat}

theorem isNewline_iff : Scalar.isNewline code = true ↔ code ∈ breakCodes := by
  simp only [Scalar.isNewline, breakCodes, Bool.or_eq_true, Bool.and_eq_true, decide_eq_true_eq,
    beq_iff_eq, List.mem_cons, List.not_mem_nil, or_false]
  omega

/-- A text without line breaks keeps apart from all text behind it. -/
theorem apart_of_not_mem (h : ∀ code ∈ before, code ∉ breakCodes) : Apart before later := by
  intro hlast
  exact absurd (by decide) (h _ (List.mem_of_getLast? hlast))

/-- What stands in front of a part that is not empty does not matter. -/
theorem apart_append {front : List Nat} (hne : before ≠ []) (h : Apart before later) :
    Apart (front ++ before) later := by
  intro hlast
  rw [List.getLast?_append, List.getLast?_eq_some_getLast hne, Option.some_or,
    ← List.getLast?_eq_some_getLast hne] at hlast
  exact h hlast

theorem lineBreaks_of_not_mem (h : code ∉ breakCodes) :
    lineBreaks (code :: rest) = lineBreaks rest :=
  if_neg fun hbreak => h hbreak.1

theorem lineBreaks_of_mem (h : code ∈ breakCodes)
    (hpair : ¬ (code = 0x0D ∧ rest.head? = some 0x0A)) :
    lineBreaks (code :: rest) = 1 + lineBreaks rest :=
  if_pos ⟨h, hpair⟩

theorem lineBreaks_pair (rest : List Nat) :
    lineBreaks (0x0D :: 0x0A :: rest) = 1 + lineBreaks rest := by
  rw [lineBreaks, if_neg fun hbreak => hbreak.2 ⟨rfl, rfl⟩]
  exact lineBreaks_of_mem (by decide) fun hpair => absurd hpair.1 (by decide)

theorem lineBreaks_eq_zero (h : ∀ code ∈ codes, code ∉ breakCodes) : lineBreaks codes = 0 := by
  induction codes with
  | nil => rfl
  | cons code rest ih =>
    rw [lineBreaks_of_not_mem (h code List.mem_cons_self)]
    exact ih fun c hc => h c (List.mem_cons_of_mem code hc)

/-- The line breaks of two parts are those of the whole when no CR LF lies across them. -/
theorem lineBreaks_append (h : Apart before later) :
    lineBreaks (before ++ later) = lineBreaks before + lineBreaks later := by
  induction before with
  | nil => rw [List.nil_append, lineBreaks, Nat.zero_add]
  | cons code rest ih =>
    -- What stands behind the code point decides whether it is half of a CR LF.
    have hpair : (code = 0x0D ∧ (rest ++ later).head? = some 0x0A) ↔
        (code = 0x0D ∧ rest.head? = some 0x0A) := by
      cases rest with
      | nil =>
        refine ⟨fun hcr => absurd hcr.2 (h ?_),
          fun hcr => absurd hcr.2 (Option.some_ne_none _).symm⟩
        rw [hcr.1]
        rfl
      | cons second more => exact Iff.rfl
    have hrest : Apart rest later := by
      intro hlast
      apply h
      rw [List.getLast?_cons, hlast]
      rfl
    rw [List.cons_append, lineBreaks, lineBreaks, ih hrest]
    simp only [hpair]
    split_ifs
    · exact (Nat.add_assoc _ _ _).symm
    · rfl

/-- A CR LF across two parts is two line breaks in the parts and one in the whole. -/
theorem lineBreaks_append_of_pair (hlast : before.getLast? = some 0x0D)
    (hhead : later.head? = some 0x0A) :
    lineBreaks (before ++ later) + 1 = lineBreaks before + lineBreaks later := by
  obtain ⟨front, rfl⟩ := List.getLast?_eq_some_iff.mp hlast
  obtain ⟨tail, rfl⟩ := List.head?_eq_some_iff.mp hhead
  have hcr : ∀ rest, Apart front (0x0D :: rest) :=
    fun _ _ hlf => absurd (Option.some.inj hlf) (by decide)
  have hfront : lineBreaks (front ++ [0x0D]) = lineBreaks front + 1 := lineBreaks_append (hcr [])
  have htail : lineBreaks (0x0A :: tail) = 1 + lineBreaks tail :=
    lineBreaks_of_mem (by decide) fun hpair => absurd hpair.1 (by decide)
  rw [hfront, htail, List.append_assoc, List.singleton_append, lineBreaks_append (hcr _),
    lineBreaks_pair]
  omega

theorem Legible.of_append (h : Legible (before ++ later)) : Legible before ∧ Legible later :=
  ⟨fun code hc => h code (List.mem_append_left _ hc),
    fun code hc => h code (List.mem_append_right _ hc)⟩

theorem Legible.tail (h : Legible (code :: rest)) : Legible rest :=
  fun c hc => h c (List.mem_cons_of_mem code hc)

theorem Legible.isScalar (h : Legible codes) : ∀ code ∈ codes, Scalar.isScalar code = true :=
  fun code hc => (h code hc).1

/-- A code point is read whatever stands behind it. -/
theorem next?_encode (h : Scalar.isScalar code = true) (bytes : List UInt8) :
    next? (utf8.encode code ++ bytes) = some (code, utf8.width code, bytes) := by
  rw [next?_eq, decode_encode utf8 h bytes]
  change some (code, utf8.width code, (utf8.encode code ++ bytes).drop (utf8.width code)) = _
  rw [← length_encode utf8 code, List.drop_left]

/-- The code point at the front of well-formed text is its first one. -/
theorem next?_encodeAll (h : Scalar.isScalar code = true) (rest : List Nat) :
    next? (utf8.encodeAll (code :: rest)) =
      some (code, utf8.width code, utf8.encodeAll rest) := by
  rw [encodeAll_cons, next?_encode h]

/-- No code point is read where the one at the front lacks its last bytes. -/
theorem next?_of_lacking {bytes lost : List UInt8} (h : Scalar.isScalar code = true)
    (hlost : lost ≠ []) (hcode : utf8.encode code = bytes ++ lost) : next? bytes = none := by
  cases bytes with
  | nil => rfl
  | cons lead front =>
    have hdecode := decodeUtf8_encodeUtf8 h []
    have hlength := length_encode utf8 code
    change utf8.encode code = lead :: (front ++ lost) at hcode
    change decodeUtf8 (utf8.encode code ++ []) = _ at hdecode
    rw [List.append_nil, ← hlength, hcode, List.length_cons] at hdecode
    have hlt : front.length < (front ++ lost).length := by
      rw [List.length_append]
      exact Nat.lt_add_of_pos_right (List.length_pos_iff.mpr hlost)
    have hcut := decodeUtf8_take hdecode hlt
    rw [List.take_left] at hcut
    unfold next?
    dsimp only
    rw [hcut]
    rfl

/-- Text that is cut begins with its first code point, or it lacks the last bytes of it. -/
theorem exists_front {bytes : List UInt8} {rest : List Nat}
    (h : bytes <+: utf8.encodeAll (code :: rest)) :
    (∃ more, bytes = utf8.encode code ++ more ∧ more <+: utf8.encodeAll rest) ∨
      ∃ lost, lost ≠ [] ∧ utf8.encode code = bytes ++ lost := by
  rw [encodeAll_cons] at h
  by_cases hwhole : utf8.encode code <+: bytes
  · obtain ⟨more, rfl⟩ := hwhole
    exact .inl ⟨more, rfl, (List.prefix_append_right_inj _).mp h⟩
  · obtain ⟨lost, hlost⟩ :=
      (List.prefix_or_prefix_of_prefix h (List.prefix_append _ _)).resolve_right hwhole
    refine .inr ⟨lost, ?_, hlost.symm⟩
    rintro rfl
    rw [List.append_nil] at hlost
    exact hwhole (hlost ▸ List.prefix_refl _)

/-- A byte of ASCII begins well-formed text exactly when it is the first code point. -/
theorem head?_encodeAll (h : ∀ code ∈ codes, Scalar.isScalar code = true) {b : UInt8}
    (hb : b.toNat < 0x80) :
    (utf8.encodeAll codes).head? = some b ↔ codes.head? = some b.toNat := by
  cases codes with
  | nil => exact ⟨fun hnil => absurd hnil.symm (Option.some_ne_none b),
      fun hnil => absurd hnil.symm (Option.some_ne_none _)⟩
  | cons code rest =>
    obtain ⟨lead, tail, hencode, -, -, hascii⟩ := exists_lead (h code List.mem_cons_self)
    rw [encodeAll_cons, hencode]
    change some lead = some b ↔ some code = some b.toNat
    rw [Option.some.injEq, Option.some.injEq]
    constructor
    · rintro rfl
      exact (hascii hb).2.symm
    · rintro rfl
      have hone := encode_ascii hb
      rw [hencode] at hone
      exact (List.cons.inj hone).1

/-- A byte of ASCII ends well-formed text exactly when it is the last code point. -/
theorem getLast?_encodeAll (h : ∀ code ∈ codes, Scalar.isScalar code = true) {b : UInt8}
    (hb : b.toNat < 0x80) :
    (utf8.encodeAll codes).getLast? = some b ↔ codes.getLast? = some b.toNat := by
  rw [List.getLast?_eq_some_iff, List.getLast?_eq_some_iff]
  constructor
  · rintro ⟨front, hfront⟩
    obtain ⟨before, later, rfl, -, hlater⟩ := exists_of_ascii_byte h hfront hb
    rw [encodeAll_eq_nil_iff.mp hlater]
    exact ⟨before, rfl⟩
  · rintro ⟨before, rfl⟩
    refine ⟨utf8.encodeAll before, ?_⟩
    rw [encodeAll_append, encodeAll_cons, encode_ascii hb]
    rfl

theorem head?_encodeAll_ne_zero (h : Legible codes) : (utf8.encodeAll codes).head? ≠ some 0 := by
  intro hzero
  rw [head?_encodeAll h.isScalar (by decide)] at hzero
  exact (h _ (List.mem_of_head? hzero)).2 rfl

theorem length_encodeAll_cons (code : Nat) (rest : List Nat) :
    (utf8.encodeAll (code :: rest)).length =
      utf8.width code + (utf8.encodeAll rest).length := by
  rw [encodeAll_cons, List.length_append, length_encode]

/-- The leading run of blanks is the longest one. -/
theorem leading_encodeAll (h : Legible codes) :
    leading (utf8.encodeAll codes) =
      (utf8.encodeAll (codes.takeWhile Scalar.isBlank)).length := by
  induction codes with
  | nil =>
    rw [leading_of_stop (.inr rfl)]
    rfl
  | cons code rest ih =>
    rw [leading_of_next? (head?_encodeAll_ne_zero h)
      (next?_encodeAll (h code List.mem_cons_self).1 rest), List.takeWhile_cons]
    split_ifs
    · rw [ih h.tail, length_encodeAll_cons]
    · rfl

/-- A zero byte begins well-formed text exactly when U+0000 is its first code point. -/
theorem head?_encodeAll_cons_eq_zero (h : ∀ c ∈ code :: rest, Scalar.isScalar c = true) :
    (utf8.encodeAll (code :: rest)).head? = some 0 ↔ code = 0 := by
  rw [head?_encodeAll h (by decide), List.head?_cons, Option.some.injEq]
  rfl

/-- The end of the line at the front of well-formed text that does not start with U+0000. -/
theorem lineEnd_encodeAll_of_ne_zero (h : ∀ c ∈ code :: rest, Scalar.isScalar c = true)
    (hzero : code ≠ 0) :
    lineEnd (utf8.encodeAll (code :: rest)) =
      if code ∈ breakCodes then
        ⟨0, if code = 0x0D ∧ rest.head? = some 0x0A then utf8.width code + 1 else utf8.width code⟩
      else ⟨utf8.width code + (lineEnd (utf8.encodeAll rest)).line,
        utf8.width code + (lineEnd (utf8.encodeAll rest)).next⟩ := by
  obtain ⟨hcode, hrest⟩ := List.forall_mem_cons.mp h
  have hhead := head?_encodeAll hrest (b := 0x0A) (by decide)
  rw [lineEnd_of_next? (mt (head?_encodeAll_cons_eq_zero h).mp hzero) (next?_encodeAll hcode rest)]
  simp only [isNewline_iff, hhead]
  rfl

/-- The end of the line at the front of well-formed text without zeros. -/
theorem lineEnd_encodeAll_cons (h : Legible (code :: rest)) :
    lineEnd (utf8.encodeAll (code :: rest)) =
      if code ∈ breakCodes then
        ⟨0, if code = 0x0D ∧ rest.head? = some 0x0A then utf8.width code + 1 else utf8.width code⟩
      else ⟨utf8.width code + (lineEnd (utf8.encodeAll rest)).line,
        utf8.width code + (lineEnd (utf8.encodeAll rest)).next⟩ :=
  lineEnd_encodeAll_of_ne_zero h.isScalar (h code List.mem_cons_self).2

/-- The line at the front is the longest stretch without a line break. -/
theorem line_lineEnd_encodeAll (h : Legible codes) :
    (lineEnd (utf8.encodeAll codes)).line =
      (utf8.encodeAll (codes.takeWhile fun code => decide (code ∉ breakCodes))).length := by
  induction codes with
  | nil =>
    rw [lineEnd_of_stop (.inr rfl)]
    rfl
  | cons code rest ih =>
    rw [lineEnd_encodeAll_cons h, List.takeWhile_cons]
    by_cases hbreak : code ∈ breakCodes
    · rw [if_pos hbreak, decide_eq_false (not_not.mpr hbreak)]
      rfl
    · rw [if_neg hbreak, decide_eq_true hbreak, if_pos rfl, length_encodeAll_cons, ← ih h.tail]

theorem lineCount_eq (bytes : List UInt8) :
    lineCount bytes = if (lineEnd bytes).next = (lineEnd bytes).line then 0
      else 1 + lineCount (bytes.drop (lineEnd bytes).next) := by
  cases bytes with
  | nil =>
    rw [lineCount, lineEnd_of_stop (.inr rfl)]
    rfl
  | cons b rest =>
    rw [lineCount]
    split_ifs with hnone
    · rfl
    · have hle := (lineEnd_le (b :: rest)).1
      obtain ⟨n, hn⟩ : ∃ n, (lineEnd (b :: rest)).next = n + 1 :=
        Nat.exists_eq_succ_of_ne_zero (by omega)
      rw [hn]
      rfl

theorem drop_encodeAll_cons (code : Nat) (rest : List Nat) (n : Nat) :
    (utf8.encodeAll (code :: rest)).drop (utf8.width code + n) =
      (utf8.encodeAll rest).drop n := by
  rw [encodeAll_cons, ← length_encode, ← List.drop_drop, List.drop_left]

theorem lineCount_of_not_mem (h : Legible (code :: rest)) (hb : code ∉ breakCodes) :
    lineCount (utf8.encodeAll (code :: rest)) = lineCount (utf8.encodeAll rest) := by
  rw [lineCount_eq, lineEnd_encodeAll_cons h, if_neg hb]
  dsimp only
  rw [drop_encodeAll_cons, lineCount_eq (utf8.encodeAll rest)]
  simp only [Nat.add_left_cancel_iff]

theorem lineCount_of_mem (h : Legible (code :: rest)) (hb : code ∈ breakCodes)
    (hpair : ¬ (code = 0x0D ∧ rest.head? = some 0x0A)) :
    lineCount (utf8.encodeAll (code :: rest)) = 1 + lineCount (utf8.encodeAll rest) := by
  have hpos := utf8.width_pos code
  rw [lineCount_eq, lineEnd_encodeAll_cons h, if_pos hb, if_neg hpair]
  dsimp only
  rw [if_neg (by omega)]
  exact congrArg (1 + lineCount ·) (drop_encodeAll_cons code rest 0)

theorem lineCount_pair (h : Legible (0x0D :: 0x0A :: rest)) :
    lineCount (utf8.encodeAll (0x0D :: 0x0A :: rest)) = 1 + lineCount (utf8.encodeAll rest) := by
  have hcr : 0x0D ∈ breakCodes := by decide
  have hend : lineEnd (utf8.encodeAll (0x0D :: 0x0A :: rest)) = ⟨0, 2⟩ := by
    rw [lineEnd_encodeAll_cons h, if_pos hcr]
    rfl
  rw [lineCount_eq, hend]
  rfl

/-- The line ends that are counted are the line breaks. -/
theorem lineCount_encodeAll (h : Legible codes) :
    lineCount (utf8.encodeAll codes) = lineBreaks codes := by
  -- A CR LF takes two code points at once, so the induction is on their number.
  induction hn : codes.length using Nat.strongRecOn generalizing codes with
  | ind n ih =>
    cases codes with
    | nil =>
      rw [lineCount_eq, lineEnd_of_stop (.inr rfl)]
      rfl
    | cons code rest =>
      have hrest := ih rest.length (by rw [← hn]; exact Nat.lt_succ_self _) h.tail rfl
      by_cases hbreak : code ∈ breakCodes
      · by_cases hpair : code = 0x0D ∧ rest.head? = some 0x0A
        · obtain ⟨rfl, hhead⟩ := hpair
          cases rest with
          | nil => cases hhead
          | cons second more =>
            cases hhead
            rw [lineCount_pair h, lineBreaks_pair,
              ih more.length (by rw [← hn]; simp only [List.length_cons]; omega) h.tail.tail rfl]
        · rw [lineCount_of_mem h hbreak hpair, lineBreaks_of_mem hbreak hpair, hrest]
      · rw [lineCount_of_not_mem h hbreak, lineBreaks_of_not_mem hbreak, hrest]

/-- Well-formed text is found in well-formed text only between code points, also where that is
cut. -/
theorem exists_of_indexOf?_encodeAll {sought : List Nat} {bytes : List UInt8} {n : Nat}
    (hc : ∀ code ∈ codes, Scalar.isScalar code = true)
    (hs : ∀ code ∈ sought, Scalar.isScalar code = true) (hp : bytes <+: utf8.encodeAll codes)
    (h : Sequence.indexOf? (utf8.encodeAll sought) bytes = some n) :
    ∃ before later, codes = before ++ (sought ++ later) ∧
      (utf8.encodeAll before).length = n := by
  obtain ⟨front, rest, hparts, rfl⟩ := Sequence.exists_of_indexOf? h
  obtain ⟨lost, hlost⟩ := hp
  cases sought with
  | nil =>
    have hzero := Sequence.indexOf?_nil bytes
    exact ⟨[], codes, rfl, Option.some.inj (hzero.symm.trans h)⟩
  | cons code more =>
    have hfound : utf8.encodeAll codes =
        front ++ (utf8.encodeAll (code :: more) ++ (rest ++ lost)) := by
      rw [← hlost, hparts, List.append_assoc, List.append_assoc]
    have hhead : ∀ b ∈ (utf8.encodeAll (code :: more) ++ (rest ++ lost)).head?,
        Scalar.isContinuation b.toNat = false := by
      obtain ⟨lead, tail, hencode, hlead, -, -⟩ := exists_lead (hs code List.mem_cons_self)
      rw [encodeAll_cons, hencode]
      rintro b ⟨⟩
      exact hlead
    obtain ⟨before, behind, rfl, rfl, hbehind⟩ := exists_split hc hfound hhead
    obtain ⟨later, rfl, -⟩ := exists_of_beginning
      (fun c hm => hc c (List.mem_append_right _ hm)) hs hbehind
    exact ⟨before, later, rfl, rfl⟩

end TextUnits.Scan
