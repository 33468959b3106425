import TextUnits.Proofs.Encoding.Decoding
import TextUnits.Scan
import TextUnits.Sequence
import Mathlib.Tactic.Common

/-!
# Scans stay within their text

What a scan answers is an offset of the bytes that it read: the code point at the front takes at
least one byte and at most all of them, a leading run of blanks and a line end within the bytes,
and an occurrence of a sequence lies in the sequence that was searched.
-/

namespace TextUnits

namespace Scan

/-- The code point at the front is that of the decoding step there. -/
theorem next?_eq (bytes : List UInt8) :
    next? bytes = (Encoding.utf8.decode bytes).code?.map fun code =>
      (code, (Encoding.utf8.decode bytes).size,
        bytes.drop (Encoding.utf8.decode bytes).size) := by
  cases bytes with
  | nil => rfl
  | cons b rest =>
    by_cases hcut : Encoding.utf8.decode (b :: rest) = .truncated
    · have hread : Encoding.decodeUtf8 (b :: rest) = .truncated := hcut
      rw [hcut, next?, hread]
      rfl
    · rw [Encoding.drop_size hcut]
      rfl

/-- A code point that is read is that of a step which is not cut off. -/
theorem of_next?_eq_some {bytes rest : List UInt8} {code size : Nat}
    (h : next? bytes = some (code, size, rest)) :
    Encoding.utf8.decode bytes ≠ .truncated ∧
      (Encoding.utf8.decode bytes).code? = some code ∧
      (Encoding.utf8.decode bytes).size = size ∧ rest = bytes.drop size := by
  rw [next?_eq] at h
  obtain ⟨c, hcode, heq⟩ := Option.map_eq_some_iff.mp h
  simp only [Prod.mk.injEq] at heq
  obtain ⟨rfl, rfl, rfl⟩ := heq
  refine ⟨fun hcut => ?_, hcode, rfl, rfl⟩
  rw [hcut] at hcode
  cases hcode

/-- The code point at the front takes at least one byte, and what is behind it are the bytes
behind its size. -/
theorem next?_within {bytes rest : List UInt8} {code size : Nat}
    (h : next? bytes = some (code, size, rest)) :
    0 < size ∧ size ≤ bytes.length ∧ rest = bytes.drop size := by
  obtain ⟨hread, -, rfl, hrest⟩ := of_next?_eq_some h
  have hw := Encoding.utf8.decode_within bytes
  exact ⟨Encoding.size_pos hw hread, Encoding.size_le hw, hrest⟩

/-- Induction along the code points of bytes: bytes without one at the front, and bytes behind
whose first code point the statement holds. -/
@[elab_as_elim]
theorem front_induction {motive : List UInt8 → Prop}
    (stop : ∀ bytes, next? bytes = none → motive bytes)
    (step : ∀ bytes code size rest, next? bytes = some (code, size, rest) → motive rest →
      motive bytes)
    (bytes : List UInt8) : motive bytes := by
  induction hn : bytes.length using Nat.strongRecOn generalizing bytes with
  | ind n ih =>
    cases hf : next? bytes with
    | none => exact stop bytes hf
    | some front =>
      obtain ⟨code, size, rest⟩ := front
      exact step bytes code size rest hf (ih rest.length (hn ▸ length_of_next? hf) rest rfl)

/-- A run of blanks is empty where a zero byte stands or nothing can be read. -/
theorem leading_of_stop {bytes : List UInt8} (h : bytes.head? = some 0 ∨ next? bytes = none) :
    leading bytes = 0 := by
  rw [leading]
  split_ifs with hz
  · rfl
  · rcases h with h | h
    · exact absurd h hz
    · split
      · rfl
      · rename_i hs
        rw [h] at hs
        cases hs

/-- A run of blanks goes on behind a blank. -/
theorem leading_of_next? {bytes rest : List UInt8} {code size : Nat}
    (hz : bytes.head? ≠ some 0) (hn : next? bytes = some (code, size, rest)) :
    leading bytes = if Scalar.isBlank code then size + leading rest else 0 := by
  rw [leading, if_neg hz]
  split
  · rename_i hs
    rw [hn] at hs
    cases hs
  · rename_i hs
    rw [hn] at hs
    cases hs
    rfl

/-- A line ends at once where a zero byte stands or nothing can be read. -/
theorem lineEnd_of_stop {bytes : List UInt8} (h : bytes.head? = some 0 ∨ next? bytes = none) :
    lineEnd bytes = ⟨0, 0⟩ := by
  rw [lineEnd]
  split_ifs with hz
  · rfl
  · rcases h with h | h
    · exact absurd h hz
    · split
      · rfl
      · rename_i hs
        rw [h] at hs
        cases hs

/-- A line ends at a line end, of which CR LF is one, and goes on behind other code points. -/
theorem lineEnd_of_next? {bytes rest : List UInt8} {code size : Nat}
    (hz : bytes.head? ≠ some 0) (hn : next? bytes = some (code, size, rest)) :
    lineEnd bytes =
      if Scalar.isNewline code then
        ⟨0, if code = 0x0D ∧ rest.head? = some 0x0A then size + 1 else size⟩
      else ⟨size + (lineEnd rest).line, size + (lineEnd rest).next⟩ := by
  rw [lineEnd, if_neg hz]
  split
  · rename_i hs
    rw [hn] at hs
    cases hs
  · rename_i hs
    rw [hn] at hs
    cases hs
    rfl

/-- No blank is found where nothing can be read. -/
theorem blank?_of_stop {bytes : List UInt8} (h : next? bytes = none) : blank? bytes = none := by
  rw [blank?]
  split
  · rfl
  · rename_i hs
    rw [h] at hs
    cases hs

/-- A blank is found at the front, or else behind the code point there. -/
theorem blank?_of_next? {bytes rest : List UInt8} {code size : Nat}
    (hn : next? bytes = some (code, size, rest)) :
    blank? bytes = if Scalar.isBlank code then some 0 else (blank? rest).map (size + ·) := by
  rw [blank?]
  split
  · rename_i hs
    rw [hn] at hs
    cases hs
  · rename_i hs
    rw [hn] at hs
    cases hs
    rfl

/-- The leading run of blanks lies within the bytes. -/
theorem leading_le (bytes : List UInt8) : leading bytes ≤ bytes.length := by
  induction bytes using front_induction with
  | stop bytes hn =>
    rw [leading_of_stop (Or.inr hn)]
    exact Nat.zero_le _
  | step bytes code size rest hn ih =>
    obtain ⟨-, hsize, hrest⟩ := next?_within hn
    by_cases hz : bytes.head? = some 0
    · rw [leading_of_stop (Or.inl hz)]
      exact Nat.zero_le _
    · rw [leading_of_next? hz hn]
      split_ifs
      · rw [hrest, List.length_drop] at ih
        rw [← hrest] at ih
        omega
      · exact Nat.zero_le _

/-- A line lies in front of the next line, and that within the bytes. -/
theorem lineEnd_le (bytes : List UInt8) :
    (lineEnd bytes).line ≤ (lineEnd bytes).next ∧ (lineEnd bytes).next ≤ bytes.length := by
  induction bytes using front_induction with
  | stop bytes hn =>
    rw [lineEnd_of_stop (Or.inr hn)]
    exact ⟨Nat.le_refl _, Nat.zero_le _⟩
  | step bytes code size rest hn ih =>
    obtain ⟨-, hsize, hrest⟩ := next?_within hn
    have hlength : rest.length = bytes.length - size := by rw [hrest, List.length_drop]
    by_cases hz : bytes.head? = some 0
    · rw [lineEnd_of_stop (Or.inl hz)]
      exact ⟨Nat.le_refl _, Nat.zero_le _⟩
    · rw [lineEnd_of_next? hz hn]
      split_ifs with hline hpair
      · have hone : 1 ≤ rest.length := by
          cases rest with
          | nil => cases hpair.2
          | cons b tail => exact Nat.succ_le_succ (Nat.zero_le _)
        exact ⟨Nat.zero_le _, by dsimp only; omega⟩
      · exact ⟨Nat.zero_le _, hsize⟩
      · dsimp only
        omega

/-- Bytes that start with a blank have a line, or else a line end, that is not empty. -/
theorem lineEnd_next_pos {bytes : List UInt8} (h : leading bytes ≠ 0) :
    0 < (lineEnd bytes).next := by
  cases hn : next? bytes with
  | none => exact absurd (leading_of_stop (Or.inr hn)) h
  | some front =>
    obtain ⟨code, size, rest⟩ := front
    obtain ⟨hpos, -, -⟩ := next?_within hn
    by_cases hz : bytes.head? = some 0
    · exact absurd (leading_of_stop (Or.inl hz)) h
    · rw [lineEnd_of_next? hz hn]
      split_ifs <;> dsimp only <;> omega

end Scan

namespace Sequence

variable {α : Type} [DecidableEq α]

/-- A remainder and the beginning in front of it are as long as the sequence. -/
theorem length_of_after? {start xs rest : List α} (h : after? start xs = some rest) :
    start.length + rest.length = xs.length := by
  rw [eq_append_of_after? h, List.length_append]

/-- A beginning is no longer than the sequence. -/
theorem length_le_of_begins {start xs : List α} (h : begins start xs = true) :
    start.length ≤ xs.length := by
  obtain ⟨rest, hr⟩ := Option.isSome_iff_exists.mp h
  have hlength := length_of_after? hr
  omega

/-- An occurrence of a sequence lies in the sequence that was searched. -/
theorem indexOf?_le {sought xs : List α} {n : Nat} (h : indexOf? sought xs = some n) :
    n + sought.length ≤ xs.length := by
  induction xs generalizing n with
  | nil =>
    unfold indexOf? at h
    split_ifs at h with hempty
    cases h
    rw [List.isEmpty_iff.mp hempty]
    exact Nat.le_refl _
  | cons x xs ih =>
    unfold indexOf? at h
    split_ifs at h with hbegins
    · cases h
      rw [Nat.zero_add]
      exact length_le_of_begins hbegins
    · obtain ⟨m, hm, rfl⟩ := Option.map_eq_some_iff.mp h
      have hle := ih hm
      rw [List.length_cons]
      omega

/-- A sequence without items is found at the front. -/
theorem indexOf?_nil (xs : List α) : indexOf? [] xs = some 0 := by
  cases xs <;> rfl

/-- Where an occurrence of a sequence is found it stands. -/
theorem exists_of_indexOf? {sought xs : List α} {n : Nat} (h : indexOf? sought xs = some n) :
    ∃ front rest, xs = front ++ (sought ++ rest) ∧ front.length = n := by
  induction xs generalizing n with
  | nil =>
    unfold indexOf? at h
    split_ifs at h with hempty
    cases h
    rw [List.isEmpty_iff.mp hempty]
    exact ⟨[], [], rfl, rfl⟩
  | cons x xs ih =>
    unfold indexOf? at h
    split_ifs at h with hbegins
    · cases h
      obtain ⟨rest, hrest⟩ := Option.isSome_iff_exists.mp hbegins
      have happend := eq_append_of_after? hrest
      exact ⟨[], rest, happend, rfl⟩
    · obtain ⟨m, hm, rfl⟩ := Option.map_eq_some_iff.mp h
      obtain ⟨front, rest, hxs, hfront⟩ := ih hm
      exact ⟨x :: front, rest, congrArg (x :: ·) hxs, congrArg (· + 1) hfront⟩

/-- Whether a sequence begins with another tells whether that is a prefix of it. -/
theorem begins_iff {start xs : List α} : begins start xs = true ↔ start <+: xs := by
  rw [begins, Option.isSome_iff_exists]
  constructor
  · rintro ⟨rest, hrest⟩
    exact ⟨rest, (eq_append_of_after? hrest).symm⟩
  · rintro ⟨rest, rfl⟩
    exact ⟨rest, after?_append start rest⟩

/-- A sequence that does not begin with another has nothing behind it. -/
theorem after?_eq_none_iff {start xs : List α} : after? start xs = none ↔ ¬ start <+: xs := by
  rw [← begins_iff, begins, Bool.not_eq_true, Option.isSome_eq_false_iff, Option.isNone_iff_eq_none]

/-- Whether a sequence ends with another tells whether that is a suffix of it. -/
theorem ends_iff {final xs : List α} : ends final xs = true ↔ final <:+ xs :=
  begins_iff.trans List.reverse_prefix

/-- A sequence is found at the front where it stands there. -/
theorem indexOf?_of_begins {sought xs : List α} (h : begins sought xs = true) :
    indexOf? sought xs = some 0 := by
  cases xs with
  | nil =>
    rw [List.prefix_nil.mp (begins_iff.mp h)]
    rfl
  | cons x xs => exact if_pos h

/-- In front of the occurrence that is found stands no other. -/
theorem not_prefix_of_indexOf? {sought xs : List α} {n : Nat} (h : indexOf? sought xs = some n) :
    ∀ m < n, ¬ sought <+: xs.drop m := by
  induction xs generalizing n with
  | nil =>
    unfold indexOf? at h
    split_ifs at h
    cases h
    exact fun m hm => absurd hm (Nat.not_lt_zero m)
  | cons x xs ih =>
    unfold indexOf? at h
    split_ifs at h with hbegins
    · cases h
      exact fun m hm => absurd hm (Nat.not_lt_zero m)
    · obtain ⟨n, hn, rfl⟩ := Option.map_eq_some_iff.mp h
      intro m hm
      cases m with
      | zero => exact fun hfront => hbegins (begins_iff.mpr hfront)
      | succ m => exact ih hn m (Nat.lt_of_succ_lt_succ hm)

/-- A sequence that occurs nowhere does not occur at the front. -/
theorem indexOf?_cons_eq_none {sought xs : List α} {x : α}
    (h : indexOf? sought (x :: xs) = none) :
    begins sought (x :: xs) = false ∧ indexOf? sought xs = none := by
  unfold indexOf? at h
  split_ifs at h with hbegins
  exact ⟨by rwa [Bool.not_eq_true] at hbegins, Option.map_eq_none_iff.mp h⟩

/-- A sequence that is not found occurs nowhere. -/
theorem not_infix_of_indexOf? {sought xs : List α} (h : indexOf? sought xs = none) :
    ¬ sought <:+: xs := by
  induction xs with
  | nil =>
    unfold indexOf? at h
    split_ifs at h with hempty
    rw [List.infix_nil]
    rwa [List.isEmpty_iff] at hempty
  | cons x xs ih =>
    obtain ⟨hbegins, hrest⟩ := indexOf?_cons_eq_none h
    rw [List.infix_cons_iff, not_or]
    exact ⟨fun hfront => Bool.eq_false_iff.mp hbegins (begins_iff.mpr hfront), ih hrest⟩

/-- A run of items lies within the sequence. -/
theorem run_le {β : Type} (test : β → Bool) (xs : List β) : run test xs ≤ xs.length :=
  (List.takeWhile_sublist test).length_le

/-- Behind a run of items stands none that passes the test. -/
theorem not_of_mem_head?_drop_run {β : Type} (test : β → Bool) (xs : List β) :
    ∀ x ∈ (xs.drop (run test xs)).head?, test x = false := by
  induction xs with
  | nil =>
    intro x hx
    cases hx
  | cons y ys ih =>
    intro x hx
    rw [run, List.takeWhile_cons] at hx
    cases hy : test y with
    | true =>
      rw [hy] at hx
      exact ih x hx
    | false =>
      rw [hy] at hx
      cases hx
      exact hy

end Sequence

end TextUnits
