import TextUnits.Proofs.Text.WellFormed
import TextUnits.Proofs.Transcode.Marks
import Mathlib

/-!
# Texts of characters

A text is a sequence of characters exactly when each surrogate in it is one half of a pair, and then
of one sequence only. Its characters are the bytes that it is encoded as, but for a byte order mark
in front: a text that starts with U+FEFF, or with U+FFFE, which is the mark in the other order, is
encoded without it. Bytes are read without a mark in front as well, but there only U+FEFF is one.
-/

namespace TextUnits

namespace Text

open Encoding

/-- The unit of a value that is no surrogate is the text of one character. -/
theorem unitsOfChar_ofNat {u : UInt16} (h : u.toNat < 0xD800 ∨ 0xDFFF < u.toNat) :
    unitsOfChar (Char.ofNat u.toNat) = [u] := by
  have hword := u.toNat_lt
  have hvalid : u.toNat.isValidChar := by
    unfold Nat.isValidChar
    omega
  unfold unitsOfChar
  dsimp only
  rw [Char.toNat_ofNat, if_pos hvalid, if_pos (by omega), UInt16.ofNat_toNat]

/-- The two halves of a pair are the text of one character. -/
theorem unitsOfChar_pair {u v : UInt16} (hu : ¬ (u.toNat < 0xD800 ∨ 0xDFFF < u.toNat))
    (hv : u.toNat < 0xDC00 ∧ 0xDC00 ≤ v.toNat ∧ v.toNat ≤ 0xDFFF) :
    unitsOfChar (Char.ofNat (0x10000 + (u.toNat - 0xD800) * 0x400 + (v.toNat - 0xDC00))) =
      [u, v] := by
  generalize hn : 0x10000 + (u.toNat - 0xD800) * 0x400 + (v.toNat - 0xDC00) = n
  have hvalid : n.isValidChar := by
    unfold Nat.isValidChar
    omega
  have hhigh : 0xD800 + (n - 0x10000) / 0x400 = u.toNat := by omega
  have hlow : 0xDC00 + n % 0x400 = v.toNat := by omega
  unfold unitsOfChar
  dsimp only
  rw [Char.toNat_ofNat, if_pos hvalid, if_neg (by omega), hhigh, hlow, UInt16.ofNat_toNat,
    UInt16.ofNat_toNat]

/-- The units of a character are read as that character, whatever stands behind them. -/
theorem chars?_unitsOfChar_append (c : Char) (rest : Text) :
    chars? (unitsOfChar c ++ rest) = (chars? rest).map (c :: ·) := by
  have hrange := Scalar.isScalar_iff.mp (isScalar_toNat c)
  unfold unitsOfChar
  dsimp only
  split_ifs with hone
  · have hvalue : (UInt16.ofNat c.toNat).toNat = c.toNat := by
      rw [UInt16.toNat_ofNat', Nat.mod_eq_of_lt (by omega)]
    rw [List.singleton_append, chars?.eq_def]
    dsimp only
    rw [hvalue, if_pos (by omega), Char.ofNat_toNat]
  · have hhigh : (UInt16.ofNat (0xD800 + (c.toNat - 0x10000) / 0x400)).toNat =
        0xD800 + (c.toNat - 0x10000) / 0x400 := by
      rw [UInt16.toNat_ofNat', Nat.mod_eq_of_lt (by omega)]
    have hlow : (UInt16.ofNat (0xDC00 + c.toNat % 0x400)).toNat = 0xDC00 + c.toNat % 0x400 := by
      rw [UInt16.toNat_ofNat', Nat.mod_eq_of_lt (by omega)]
    have hjoin : 0x10000 + (0xD800 + (c.toNat - 0x10000) / 0x400 - 0xD800) * 0x400 +
        (0xDC00 + c.toNat % 0x400 - 0xDC00) = c.toNat := by omega
    rw [List.cons_append, List.singleton_append, chars?.eq_def]
    dsimp only
    rw [hhigh, hlow, if_neg (by omega), if_pos (by omega), hjoin, Char.ofNat_toNat]

/-- A text is read as characters exactly when it consists of their units. -/
theorem chars?_eq_some_iff {t : Text} {chars : List Char} :
    chars? t = some chars ↔ t = chars.flatMap unitsOfChar := by
  constructor
  · intro h
    -- the cases are those of the reader: the end, a unit alone, a half alone, a pair, no pair
    fun_induction chars? t generalizing chars with
    | case1 =>
      cases h
      rfl
    | case2 u rest hu ih =>
      obtain ⟨more, hmore, rfl⟩ := Option.map_eq_some_iff.mp h
      rw [List.flatMap_cons, unitsOfChar_ofNat hu, ← ih hmore]
      rfl
    | case3 u hu => cases h
    | case4 u hu v tail hv ih =>
      obtain ⟨more, hmore, rfl⟩ := Option.map_eq_some_iff.mp h
      rw [List.flatMap_cons, unitsOfChar_pair hu hv, ← ih hmore]
      rfl
    | case5 u hu v tail hv => cases h
  · rintro rfl
    induction chars with
    | nil => rfl
    | cons c more ih => rw [List.flatMap_cons, chars?_unitsOfChar_append, ih, Option.map_some]

/-- The units of characters tell the characters. -/
theorem flatMap_unitsOfChar_inj {chars other : List Char} :
    chars.flatMap unitsOfChar = other.flatMap unitsOfChar ↔ chars = other := by
  constructor
  · intro h
    have hchars := chars?_eq_some_iff.mpr h
    rw [chars?_eq_some_iff.mpr rfl, Option.some.injEq] at hchars
    exact hchars
  · exact congrArg _

/-- Scalar values are those of characters. -/
theorem exists_chars {codes : List Nat} (h : ∀ code ∈ codes, Scalar.isScalar code = true) :
    ∃ chars : List Char, codes = chars.map Char.toNat := by
  induction codes with
  | nil => exact ⟨[], rfl⟩
  | cons code more ih =>
    obtain ⟨chars, rfl⟩ := ih fun other hm => h other (List.mem_cons_of_mem code hm)
    have hrange := Scalar.isScalar_iff.mp (h code List.mem_cons_self)
    have hvalid : code.isValidChar := by
      unfold Nat.isValidChar
      omega
    exact ⟨Char.ofNat code :: chars, by rw [List.map_cons, Char.toNat_ofNat, if_pos hvalid]⟩

/-- Whether characters start like a byte order mark of UTF-16 in one of the two orders. -/
def startsLikeMark (chars : List Char) : Bool :=
  chars.head? == some '\uFEFF' || chars.head? == some '\uFFFE'

/-- Characters without the mark that they may start with. -/
def behindMark (chars : List Char) : List Char :=
  if startsLikeMark chars then chars.tail else chars

/-- Characters that start like a mark start with it in one of the two orders. -/
theorem exists_of_startsLikeMark {chars : List Char} (h : startsLikeMark chars = true) :
    ∃ o more, chars.flatMap unitsOfChar = utf16.markUnits o ++ more.flatMap unitsOfChar ∧
      behindMark chars = more ∧ more.length < chars.length := by
  have hbehind : behindMark chars = chars.tail := if_pos h
  cases chars with
  | nil => cases h
  | cons c more =>
    simp only [startsLikeMark, List.head?_cons, Bool.or_eq_true, beq_iff_eq, Option.some.injEq]
      at h
    rcases h with rfl | rfl
    · exact ⟨.le, more, rfl, hbehind, Nat.lt_succ_self _⟩
    · exact ⟨.be, more, rfl, hbehind, Nat.lt_succ_self _⟩

/-- Only characters that start like a mark are not all of what stands behind it. -/
theorem behindMark_eq_self_iff {chars : List Char} :
    behindMark chars = chars ↔ startsLikeMark chars = false := by
  constructor
  · intro hsame
    rw [← Bool.not_eq_true]
    intro hstarts
    obtain ⟨o, more, -, hbehind, hshorter⟩ := exists_of_startsLikeMark hstarts
    rw [← hbehind, hsame] at hshorter
    exact absurd hshorter (Nat.lt_irrefl _)
  · intro h
    exact if_neg (by rw [h]; exact Bool.false_ne_true)

/-- A character starts with its own value when that is one unit, and with a first half when not. -/
theorem exists_head_unitsOfChar (c : Char) :
    ∃ u rest, unitsOfChar c = u :: rest ∧
      (u.toNat = c.toNat ∨ 0x10000 ≤ c.toNat ∧ 0xD800 ≤ u.toNat ∧ u.toNat ≤ 0xDBFF) := by
  have hrange := Scalar.isScalar_iff.mp (isScalar_toNat c)
  unfold unitsOfChar
  dsimp only
  split_ifs with hone
  · refine ⟨_, [], rfl, .inl ?_⟩
    rw [UInt16.toNat_ofNat', Nat.mod_eq_of_lt (by omega)]
  · refine ⟨_, _, rfl, .inr ?_⟩
    rw [UInt16.toNat_ofNat', Nat.mod_eq_of_lt (by omega)]
    omega

/-- The first unit of a text shows whether its characters start like a mark. -/
theorem startsLikeMark_iff {chars : List Char} :
    startsLikeMark chars = true ↔
      (chars.flatMap unitsOfChar).head? = some 0xFEFF ∨
        (chars.flatMap unitsOfChar).head? = some 0xFFFE := by
  cases chars with
  | nil => simp [startsLikeMark]
  | cons c more =>
    obtain ⟨u, rest, hu, hclass⟩ := exists_head_unitsOfChar c
    have hchar : ∀ {other : Char}, c = other ↔ c.toNat = other.toNat := Char.toNat_inj.symm
    have hunit : ∀ {other : UInt16}, u = other ↔ u.toNat = other.toNat := UInt16.toNat_inj.symm
    have hvalues : ('\uFEFF').toNat = 0xFEFF ∧ ('\uFFFE').toNat = 0xFFFE := ⟨rfl, rfl⟩
    have hwords : (0xFEFF : UInt16).toNat = 0xFEFF ∧ (0xFFFE : UInt16).toNat = 0xFFFE := ⟨rfl, rfl⟩
    simp only [startsLikeMark, List.head?_cons, Bool.or_eq_true, beq_iff_eq, Option.some.injEq,
      List.flatMap_cons, hu, List.cons_append, hchar, hunit, hvalues, hwords]
    omega

/-- Characters are encoded in UTF-8 without the mark that they may start with. -/
theorem toUtf8_chars (chars : List Char) :
    toUtf8 (chars.flatMap unitsOfChar) .default =
      .ok ((behindMark chars).flatMap String.utf8EncodeChar) := by
  cases hstarts : startsLikeMark chars with
  | false =>
    have hmarks : chars.head? ≠ some '\uFEFF' ∧ chars.head? ≠ some '\uFFFE' := by
      simpa only [startsLikeMark, Bool.or_eq_false_iff, beq_eq_false_iff_ne] using hstarts
    rw [behindMark_eq_self_iff.mpr hstarts, ← encodeAll_utf16_toNat, ← encodeAll_utf8_toNat]
    exact toUtf8_encodeAll (fun _ => isScalar_of_mem_map) (head?_map_toNat_ne hmarks.1)
      (head?_map_toNat_ne hmarks.2)
  | true =>
    obtain ⟨o, more, hunits, hbehind, -⟩ := exists_of_startsLikeMark hstarts
    let r : Request .utf16 .utf8 :=
      ⟨some (chars.flatMap unitsOfChar), .native, .native, .lenient, none⟩
    have hselected : r.selected = some (utf16.markUnits o ++ more.flatMap unitsOfChar) :=
      congrArg some hunits
    have hread : (more.flatMap unitsOfChar).map (utf16.reorder .host) =
        utf16.encodeAll (more.map Char.toNat) := by
      rw [encodeAll_utf16_toNat]
      exact map_reorder_host utf16 _
    have hwhole := Request.whole_of_mark (r := r) hselected rfl hread
      (fun _ => isScalar_of_mem_map) false
    rw [encodeAll_utf8_toNat, ← hbehind] at hwhole
    exact hwhole.trans (congrArg Except.ok (map_reorder_host utf8 _))

/-- The bytes of characters are read as these characters, but for U+FEFF in front. -/
theorem ofUtf8_chars (chars : List Char) :
    ofUtf8 (chars.flatMap String.utf8EncodeChar) .default =
      .ok ((if chars.head? = some '\uFEFF' then chars.tail else chars).flatMap unitsOfChar) := by
  let r : Request .utf8 .utf16 :=
    ⟨some (chars.flatMap String.utf8EncodeChar), .detect, .native, .lenient, none⟩
  split_ifs with hmark
  · obtain ⟨more, rfl⟩ := List.head?_eq_some_iff.mp hmark
    have hselected : r.selected = some (utf8.markUnits .le ++ more.flatMap String.utf8EncodeChar) :=
      rfl
    have hread : (more.flatMap String.utf8EncodeChar).map (utf8.reorder .le) =
        utf8.encodeAll (more.map Char.toNat) := by
      rw [encodeAll_utf8_toNat]
      exact map_reorder_host utf8 _
    have hwhole := Request.whole_of_mark (r := r) hselected rfl hread
      (fun _ => isScalar_of_mem_map) false
    rw [encodeAll_utf16_toNat] at hwhole
    exact hwhole.trans (congrArg Except.ok (map_reorder_host utf16 _))
  · have hunits : r.units = some ((utf8.encodeAll (chars.map Char.toNat)).map
        (utf8.reorder .host)) := by
      rw [encodeAll_utf8_toNat]
      exact congrArg some (map_reorder_host utf8 _).symm
    have hwhole := Request.whole_of_encodeAll hunits rfl rfl (fun _ => isScalar_of_mem_map)
      (head?_map_toNat_ne hmark) (fun h => by cases h) false
    rw [encodeAll_utf16_toNat] at hwhole
    exact hwhole.trans (congrArg Except.ok (map_reorder_host utf16 _))

end Text

end TextUnits
