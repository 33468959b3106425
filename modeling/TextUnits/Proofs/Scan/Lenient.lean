import TextUnits.Proofs.Encoding.Grammar
import TextUnits.Proofs.Scan.Within

/-!
# Bytes read leniently

A scan reads one code point after the other, U+FFFD for malformed input, and stops where the end of
the bytes cuts a sequence off. What it reads are the steps of the walk over the bytes. Sequences of
the grammar are read as what they denote, whatever stands behind them, and a blank is always such a
sequence. What is cut off is read as one U+FFFD when it is to be read at all.
-/

namespace TextUnits.Scan

open Encoding Step

/-- Code points of bytes, read leniently: malformed input and a sequence cut off are U+FFFD. -/
def lenient (bytes : List UInt8) : List Nat :=
  (utf8.steps bytes).map fun step => step.code?.getD Scalar.replacement

/-- The sequence at the end of bytes that they cut off. -/
def cut (bytes : List UInt8) : List UInt8 := bytes.drop (sizeAll (utf8.steps bytes))

variable {bytes rest : List UInt8} {code size : Nat}

/-- No code point is read at the end and where one is cut off. -/
theorem of_next?_eq_none (h : next? bytes = none) :
    bytes = [] ∨ (bytes ≠ [] ∧ utf8.decode bytes = .truncated) := by
  rw [next?_eq, Option.map_eq_none_iff] at h
  have hcut : utf8.decode bytes = .truncated := by
    cases hread : utf8.decode bytes with
    | truncated => rfl
    | scalar code size =>
      rw [hread] at h
      cases h
    | invalid size =>
      rw [hread] at h
      cases h
  exact (em (bytes = [])).imp id fun hne => ⟨hne, hcut⟩

theorem ne_nil_of_next? (h : next? bytes = some (code, size, rest)) : bytes ≠ [] := by
  rintro rfl
  cases h

/-- The walk over bytes starts with the code point at their front. -/
theorem steps_of_next? (h : next? bytes = some (code, size, rest)) :
    ∃ step, utf8.steps bytes = step :: utf8.steps rest ∧ step.code? = some code ∧
      step.size = size := by
  obtain ⟨hread, hcode, hsize, hrest⟩ := of_next?_eq_some h
  refine ⟨_, (steps_of_decode (ne_nil_of_next? h) hread).trans ?_, hcode, hsize⟩
  rw [hsize, hrest]

/-- A blank at the front is a sequence. -/
theorem denotes_of_isBlank (h : next? bytes = some (code, size, rest))
    (hb : Scalar.isBlank code = true) :
    ∃ front, bytes = front ++ rest ∧ front.length = size ∧ Denotes front code := by
  obtain ⟨hread, hcode, hsize, hrest⟩ := of_next?_eq_some h
  change decodeUtf8 bytes ≠ _ at hread
  change (decodeUtf8 bytes).code? = _ at hcode
  change (decodeUtf8 bytes).size = _ at hsize
  rcases decodeUtf8_cases (ne_nil_of_next? h) with
    ⟨front, more, other, rfl, hd⟩ | ⟨-, hcut⟩ | ⟨-, count, hbad⟩
  · rw [decodeUtf8_of_denotes hd] at hcode hsize
    cases hcode
    rw [← hsize, Step.size, List.drop_left] at hrest
    exact ⟨front, by rw [hrest], hsize, hd⟩
  · exact absurd hcut hread
  · rw [hbad] at hcode
    cases hcode
    cases hb

/-- A sequence at the front is the code point there. -/
theorem next?_of_denotes {front : List UInt8} (h : Denotes front code) (rest : List UInt8) :
    next? (front ++ rest) = some (code, front.length, rest) := by
  have hread : utf8.decode (front ++ rest) = .scalar code front.length :=
    decodeUtf8_of_denotes h rest
  rw [next?_eq, hread]
  change some (code, front.length, (front ++ rest).drop front.length) = _
  rw [List.drop_left]

/-- A code point that is read of bytes is read as well when more bytes stand behind them. -/
theorem next?_append (h : next? bytes = some (code, size, rest)) (more : List UInt8) :
    next? (bytes ++ more) = some (code, size, rest ++ more) := by
  obtain ⟨hread, hcode, hsize, hrest⟩ := of_next?_eq_some h
  have hsame : utf8.decode (bytes ++ more) = utf8.decode bytes := decodeUtf8_append hread more
  rw [next?_eq, hsame, hcode, hsize, Option.map_some, hrest,
    List.drop_append_of_le_length (next?_within h).2.1]

theorem lenient_nil : lenient [] = [] := by
  rw [lenient, steps]
  rfl

theorem lenient_of_next? (h : next? bytes = some (code, size, rest)) :
    lenient bytes = code :: lenient rest := by
  obtain ⟨step, hsteps, hcode, -⟩ := steps_of_next? h
  rw [lenient, hsteps, List.map_cons, hcode]
  rfl

/-- Where no code point is read there is nothing to read, or a sequence cut off. -/
theorem lenient_of_stop (h : next? bytes = none) :
    bytes = [] ∨ lenient bytes = [Scalar.replacement] := by
  rcases of_next?_eq_none h with hnil | ⟨hne, hcut⟩
  · exact .inl hnil
  · rw [lenient, steps_of_truncated hne hcut]
    exact .inr rfl

theorem lenient_eq_nil_iff : lenient bytes = [] ↔ bytes = [] := by
  constructor
  · intro h
    cases hn : next? bytes with
    | none =>
      refine (lenient_of_stop hn).resolve_right fun hcut => ?_
      rw [h] at hcut
      cases hcut
    | some front =>
      rw [lenient_of_next? hn] at h
      cases h
  · rintro rfl
    exact lenient_nil

/-- Sequences are read leniently as what they denote, in front of what stands behind them. -/
theorem lenient_append {front : List UInt8} {codes : List Nat} (h : Spells front codes)
    (rest : List UInt8) : lenient (front ++ rest) = codes ++ lenient rest := by
  induction h with
  | nil => rfl
  | cons hd _ ih =>
    rw [List.append_assoc, lenient_of_next? (next?_of_denotes hd _), ih]
    rfl

theorem lenient_of_spells {front : List UInt8} {codes : List Nat} (h : Spells front codes) :
    lenient front = codes := by
  have happend := lenient_append h []
  rwa [List.append_nil, lenient_nil, List.append_nil] at happend

/-- What is cut off lies behind the code point at the front. -/
theorem cut_of_next? (h : next? bytes = some (code, size, rest)) : cut bytes = cut rest := by
  obtain ⟨step, hsteps, -, hsize⟩ := steps_of_next? h
  rw [cut, cut, hsteps, sizeAll, hsize, ← List.drop_drop, ← (next?_within h).2.2]

theorem cut_of_stop (h : next? bytes = none) : cut bytes = bytes := by
  rcases of_next?_eq_none h with rfl | ⟨hne, hcut⟩
  · exact List.drop_nil
  · rw [cut, steps_of_truncated hne hcut]
    rfl

theorem cut_append {front : List UInt8} {codes : List Nat} (h : Spells front codes)
    (rest : List UInt8) : cut (front ++ rest) = cut rest := by
  induction h with
  | nil => rfl
  | cons hd _ ih => rw [List.append_assoc, cut_of_next? (next?_of_denotes hd _), ih]

/-- Sequences are not cut off. -/
theorem cut_of_spells {codes : List Nat} (h : Spells bytes codes) : cut bytes = [] := by
  have happend := cut_append h []
  rwa [List.append_nil, cut_of_stop (rfl : next? [] = none)] at happend

/-- Blanks are sequences. -/
theorem spells_of_blanks (h : ∀ code ∈ lenient bytes, Scalar.isBlank code = true) :
    Spells bytes (lenient bytes) := by
  induction bytes using front_induction with
  | stop bytes hn =>
    rcases lenient_of_stop hn with rfl | hcut
    · rw [lenient_nil]
      exact .nil
    · rw [hcut, List.forall_mem_singleton] at h
      cases h
  | step bytes code size rest hn ih =>
    rw [lenient_of_next? hn] at h ⊢
    obtain ⟨hblank, hmore⟩ := List.forall_mem_cons.mp h
    obtain ⟨front, rfl, -, hd⟩ := denotes_of_isBlank hn hblank
    exact .cons hd (ih hmore)

/-- What is cut off is read leniently as one code point. -/
theorem lenient_cut (bytes : List UInt8) :
    cut bytes = [] ∨ lenient (cut bytes) = [Scalar.replacement] := by
  induction bytes using front_induction with
  | stop bytes hn =>
    rw [cut_of_stop hn]
    exact lenient_of_stop hn
  | step bytes code size rest hn ih => rwa [cut_of_next? hn]

end TextUnits.Scan
