import TextUnits.Proofs.Scan.Lenient
import Mathlib.Data.List.TakeDrop

/-!
# Blanks at the ends of bytes

Two scans look for the blanks to take away, one up to a zero byte or the first code point that is no
blank, the other over all bytes for the end of the last that is no blank. They meet: in front and at
the end whole code points are taken away, all of them blanks. But the second scan stops where a
sequence is cut off without counting that as content, so the sequence is taken away too.
-/

namespace TextUnits.Scan

open Encoding Step

variable {bytes rest : List UInt8} {code size : Nat}

theorem content_of_stop (h : next? bytes = none) : content bytes = 0 := by
  rw [content]
  split
  · rfl
  · rename_i hs
    rw [h] at hs
    cases hs

/-- The content goes on behind a code point unless only blanks are left. -/
theorem content_of_next? (h : next? bytes = some (code, size, rest)) :
    content bytes =
      if content rest = 0 ∧ Scalar.isBlank code = true then 0 else size + content rest := by
  rw [content]
  split
  · rename_i hs
    rw [h] at hs
    cases hs
  · rename_i hs
    rw [h] at hs
    cases hs
    rfl

/-- The leading run of blanks is made of sequences, and no other run starts behind it. -/
theorem leading_spells (bytes : List UInt8) :
    ∃ start rest codes, bytes = start ++ rest ∧ start.length = leading bytes ∧
      Spells start codes ∧ (∀ code ∈ codes, Scalar.isBlank code = true) ∧ leading rest = 0 := by
  induction bytes using front_induction with
  | stop bytes hn =>
    have hnone := leading_of_stop (.inr hn)
    exact ⟨[], bytes, [], rfl, hnone.symm, .nil, List.forall_mem_nil _, hnone⟩
  | step bytes code size rest hn ih =>
    by_cases hblank : bytes.head? ≠ some 0 ∧ Scalar.isBlank code = true
    · obtain ⟨front, rfl, hlength, hd⟩ := denotes_of_isBlank hn hblank.2
      obtain ⟨start, behind, codes, rfl, hstart, hspells, hall, hnone⟩ := ih
      rw [leading_of_next? hblank.1 hn, if_pos hblank.2]
      refine ⟨front ++ start, behind, code :: codes, (List.append_assoc ..).symm, ?_,
        .cons hd hspells, List.forall_mem_cons.mpr ⟨hblank.2, hall⟩, hnone⟩
      rw [List.length_append, hlength, hstart]
    · have hnone : leading bytes = 0 := by
        by_cases hzero : bytes.head? = some 0
        · exact leading_of_stop (.inl hzero)
        · rw [leading_of_next? hzero hn, if_neg fun hb => hblank ⟨hzero, hb⟩]
      exact ⟨[], bytes, [], rfl, hnone.symm, .nil, List.forall_mem_nil _, hnone⟩

/-- Behind the content stand blanks and what is cut off, and no code point lies across its end. -/
theorem content_spells (bytes : List UInt8) :
    ∃ kept blanks codes middle, bytes = kept ++ (blanks ++ cut bytes) ∧
      kept.length = content bytes ∧ Spells blanks codes ∧
      (∀ code ∈ codes, Scalar.isBlank code = true) ∧
      utf8.steps bytes = middle ++ utf8.steps (blanks ++ cut bytes) ∧
      sizeAll middle = kept.length := by
  induction bytes using front_induction with
  | stop bytes hn =>
    rw [cut_of_stop hn]
    exact ⟨[], [], [], [], rfl, (content_of_stop hn).symm, .nil, List.forall_mem_nil _, rfl, rfl⟩
  | step bytes code size rest hn ih =>
    obtain ⟨kept, blanks, codes, middle, hsplit, hlength, hspells, hall, hsteps, hsize⟩ := ih
    rw [content_of_next? hn, cut_of_next? hn]
    by_cases hnone : content rest = 0 ∧ Scalar.isBlank code = true
    · -- all that stands behind this blank are blanks, so it belongs to them
      obtain ⟨front, rfl, -, hd⟩ := denotes_of_isBlank hn hnone.2
      have hkept : kept = [] := List.eq_nil_of_length_eq_zero (hlength.trans hnone.1)
      rw [hkept, List.nil_append] at hsplit
      rw [if_pos hnone]
      refine ⟨[], front ++ blanks, code :: codes, [], ?_, rfl, .cons hd hspells,
        List.forall_mem_cons.mpr ⟨hnone.2, hall⟩, ?_, rfl⟩
      · rw [List.nil_append, List.append_assoc, ← hsplit]
      · rw [List.nil_append, List.append_assoc, ← hsplit]
    · obtain ⟨-, hle, hrest⟩ := next?_within hn
      obtain ⟨step, hfirst, -, hstep⟩ := steps_of_next? hn
      have htake : (bytes.take size).length = size := List.length_take_of_le hle
      rw [if_neg hnone]
      refine ⟨bytes.take size ++ kept, blanks, codes, step :: middle, ?_, ?_, hspells, hall, ?_, ?_⟩
      · rw [List.append_assoc, ← hsplit, hrest, List.take_append_drop]
      · rw [List.length_append, htake, hlength]
      · rw [hfirst, hsteps, List.cons_append]
      · rw [sizeAll, hstep, hsize, List.length_append, htake]

theorem content_le (bytes : List UInt8) : content bytes ≤ bytes.length := by
  obtain ⟨kept, blanks, -, -, hsplit, hlength, -⟩ := content_spells bytes
  rw [← hlength, hsplit, List.length_append]
  exact Nat.le_add_right _ _

/-- Bytes that go on have the code point of all bytes at their front, or it is cut off. -/
theorem lenient_of_beginning {kept behind : List UInt8} (hk : kept ≠ [])
    (h : next? (kept ++ behind) = some (code, size, rest)) :
    lenient kept = [Scalar.replacement] ∨ lenient kept = code :: lenient (kept.drop size) := by
  cases hn : next? kept with
  | none => exact .inl ((lenient_of_stop hn).resolve_left hk)
  | some front =>
    obtain ⟨first, width, more⟩ := front
    have hsame := next?_append hn behind
    rw [h] at hsame
    cases hsame
    rw [lenient_of_next? hn, (next?_within hn).2.2]
    exact .inr rfl

/-- The content does not end with a blank. -/
theorem last_of_content (bytes : List UInt8) :
    ∀ code ∈ (lenient (bytes.take (content bytes))).getLast?, Scalar.isBlank code = false := by
  induction bytes using front_induction with
  | stop bytes hn =>
    rw [content_of_stop hn, List.take_zero, lenient_nil]
    nofun
  | step bytes code size rest hn ih =>
    rw [content_of_next? hn]
    split_ifs with hnone
    · rw [List.take_zero, lenient_nil]
      nofun
    obtain ⟨hpos, hle, hrest⟩ := next?_within hn
    have hsplit := List.take_append_drop (size + content rest) bytes
    rw [← hsplit] at hn
    have hkept : bytes.take (size + content rest) ≠ [] := by
      rw [Ne, List.take_eq_nil_iff]
      rintro (hzero | rfl)
      · omega
      · exact absurd hle (Nat.not_le.mpr hpos)
    have hbehind : (bytes.take (size + content rest)).drop size = rest.take (content rest) := by
      rw [List.drop_take, Nat.add_sub_cancel_left, ← hrest]
    rcases lenient_of_beginning hkept hn with hcut | hread
    · rw [hcut]
      rintro _ ⟨⟩
      rfl
    · rw [hread, hbehind, List.getLast?_cons]
      cases hlast : (lenient (rest.take (content rest))).getLast? with
      | some last =>
        rintro _ ⟨⟩
        exact ih last hlast
      | none =>
        -- nothing but this code point is kept, so it is no blank
        rintro _ ⟨⟩
        rw [List.getLast?_eq_none_iff, lenient_eq_nil_iff, List.take_eq_nil_iff] at hlast
        rw [← Bool.not_eq_true]
        refine fun hblank => hnone ⟨?_, hblank⟩
        rcases hlast with hzero | hnil
        · exact hzero
        · rw [hnil]
          exact content_of_stop rfl

theorem next?_of_head_zero (h : bytes.head? = some 0) : next? bytes = some (0, 1, bytes.tail) := by
  obtain ⟨tail, rfl⟩ := List.head?_eq_some_iff.mp h
  exact next?_of_denotes (.one (by decide : (0 : UInt8).toNat ≤ 0x7F)) tail

/-- No run of blanks starts at a zero, at a code point that is no blank and where none is read. -/
theorem leading_eq_zero_iff :
    leading bytes = 0 ↔
      ∀ code size rest, next? bytes = some (code, size, rest) →
        bytes.head? = some 0 ∨ Scalar.isBlank code = false := by
  constructor
  · intro h code size rest hn
    by_cases hzero : bytes.head? = some 0
    · exact .inl hzero
    · rw [leading_of_next? hzero hn, ite_eq_right_iff] at h
      refine .inr (Bool.not_eq_true _ ▸ fun hblank => ?_)
      have hpos := (next?_within hn).1
      have hnone := h hblank
      omega
  · intro h
    by_cases hzero : bytes.head? = some 0
    · exact leading_of_stop (.inl hzero)
    cases hn : next? bytes with
    | none => exact leading_of_stop (.inr hn)
    | some front =>
      obtain ⟨code, size, rest⟩ := front
      have hblank := (h code size rest hn).resolve_left hzero
      rw [leading_of_next? hzero hn, hblank, if_neg Bool.false_ne_true]

/-- Bytes at whose front no run of blanks starts do not start with white space. -/
theorem first_of_leading (h : leading bytes = 0) :
    ∀ code ∈ (lenient bytes).head?, Scalar.isWhitespace code = false := by
  cases hn : next? bytes with
  | none =>
    rcases lenient_of_stop hn with rfl | hcut
    · rw [lenient_nil]
      nofun
    · rw [hcut]
      rintro _ ⟨⟩
      rfl
  | some front =>
    obtain ⟨code, size, rest⟩ := front
    rw [lenient_of_next? hn]
    rintro _ ⟨⟩
    rcases leading_eq_zero_iff.mp h code size rest hn with hzero | hblank
    · rw [next?_of_head_zero hzero] at hn
      cases hn
      rfl
    · rw [Scalar.isBlank, Bool.or_eq_false_iff] at hblank
      exact hblank.2

/-- No run of blanks starts at the front of a beginning when none starts at the front of all. -/
theorem leading_of_beginning {kept behind : List UInt8} (h : leading (kept ++ behind) = 0) :
    leading kept = 0 := by
  rw [leading_eq_zero_iff] at h ⊢
  intro code size rest hn
  rcases h code size _ (next?_append hn behind) with hzero | hblank
  · cases kept with
    | nil => cases hn
    | cons b tail => exact .inl hzero
  · exact .inr hblank

/-- Leading blanks count as content only when something else follows. -/
theorem content_append {start : List UInt8} {codes : List Nat} (h : Spells start codes)
    (hall : ∀ code ∈ codes, Scalar.isBlank code = true) (rest : List UInt8) :
    content (start ++ rest) = if content rest = 0 then 0 else start.length + content rest := by
  induction h with
  | nil =>
    rw [List.nil_append, List.length_nil, Nat.zero_add]
    split_ifs with hnone
    · exact hnone
    · rfl
  | @cons bytes more code codes hd _ ih =>
    obtain ⟨hblank, hmore⟩ := List.forall_mem_cons.mp hall
    rw [List.append_assoc, content_of_next? (next?_of_denotes hd _), ih hmore]
    by_cases hnone : content rest = 0
    · rw [if_pos hnone, if_pos hnone, if_pos ⟨rfl, hblank⟩]
    · rw [if_neg hnone, if_neg hnone, if_neg (fun h => by omega), List.length_append,
        Nat.add_assoc]

/-- What is read at the front of sequences is the first of them. -/
theorem exists_of_spells {codes : List Nat} (h : Spells bytes codes)
    (hn : next? bytes = some (code, size, rest)) :
    ∃ front more, bytes = front ++ rest ∧ front.length = size ∧ Denotes front code ∧
      Spells rest more := by
  cases h with
  | nil => cases hn
  | cons hd hs =>
    rw [next?_of_denotes hd] at hn
    cases hn
    exact ⟨_, _, rfl, rfl, hd, hs⟩

/-- Behind sequences at the front of sequences stand sequences. -/
theorem exists_spells_of_append {start : List UInt8} {codes all : List Nat}
    (h : Spells start codes) (hs : Spells (start ++ rest) all) : ∃ more, Spells rest more := by
  induction h generalizing all with
  | nil => exact ⟨all, hs⟩
  | cons hd _ ih =>
    rw [List.append_assoc] at hs
    obtain ⟨-, more, -, -, -, hmore⟩ := exists_of_spells hs (next?_of_denotes hd _)
    exact ih hmore

/-- The content of sequences is made of sequences. -/
theorem exists_spells_content {codes : List Nat} (h : Spells bytes codes) :
    ∃ more, Spells (bytes.take (content bytes)) more := by
  induction bytes using front_induction generalizing codes with
  | stop bytes hn =>
    rw [content_of_stop hn]
    exact ⟨[], .nil⟩
  | step bytes code size rest hn ih =>
    obtain ⟨front, behind, rfl, rfl, hd, hbehind⟩ := exists_of_spells h hn
    obtain ⟨more, hmore⟩ := ih hbehind
    rw [content_of_next? hn]
    split_ifs
    · exact ⟨[], .nil⟩
    · rw [List.take_append, Nat.add_sub_cancel_left, List.take_of_length_le (Nat.le_add_right _ _)]
      exact ⟨_, .cons hd hmore⟩

/-- How bytes are divided when the blanks at both ends are taken away. -/
structure Trims (bytes start kept finish : List UInt8) : Prop where
  /-- The parts are the bytes. -/
  split : bytes = start ++ (kept ++ finish)
  /-- No code point lies across two parts. -/
  reading : ∃ middle, utf8.steps bytes = utf8.steps start ++ (middle ++ utf8.steps finish) ∧
    sizeAll middle = kept.length
  /-- In front only blanks are taken away. -/
  front : ∀ code ∈ lenient start, Scalar.isBlank code = true
  /-- At the end blanks are taken away, and what is cut off. -/
  back : ∃ blanks, finish = blanks ++ cut bytes ∧
    ∀ code ∈ lenient blanks, Scalar.isBlank code = true
  /-- What is left does not start with white space. -/
  first : ∀ code ∈ (lenient kept).head?, Scalar.isWhitespace code = false
  /-- What is left does not end with a blank. -/
  last : ∀ code ∈ (lenient kept).getLast?, Scalar.isBlank code = false

/-- Taking away the leading run of blanks and what stands behind the content divides bytes so, and
leaves sequences of sequences. -/
theorem exists_trims (bytes : List UInt8) :
    let kept := (bytes.take (content bytes)).drop (leading bytes)
    ∃ start finish, Trims bytes start kept finish ∧ leading kept = 0 ∧
      ∀ all, Spells bytes all → ∃ codes, Spells kept codes := by
  intro trimmed
  obtain ⟨start, rest, codes, hsplit, hlength, hspells, hall, hnone⟩ := leading_spells bytes
  obtain ⟨kept, blanks, others, middle, hrest, hkept, hblanks, hothers, hsteps, hsize⟩ :=
    content_spells rest
  have hcontent := content_append hspells hall rest
  have hread := hspells.steps_append rest
  have hcut := cut_append hspells rest
  rw [← hsplit] at hcontent hread hcut
  have hbegins : rest.take (content rest) = kept := by
    rw [← hkept]
    exact (congrArg (List.take kept.length) hrest).trans List.take_left
  -- what both scans leave is the content of what stands behind the leading run
  have htrimmed : trimmed = kept := by
    dsimp only [trimmed]
    rw [hcontent, ← hlength]
    split_ifs with hempty
    · rw [List.take_zero, List.drop_nil, ← hbegins, hempty, List.take_zero]
    · rw [List.drop_take, Nat.add_sub_cancel_left, hsplit, List.drop_left, hbegins]
  have hlast := last_of_content rest
  rw [hbegins] at hlast
  rw [hrest] at hnone
  have hleading := leading_of_beginning hnone
  rw [htrimmed]
  refine ⟨start, blanks ++ cut rest, ⟨?_, ⟨middle, ?_, hsize⟩, ?_, ⟨blanks, ?_, ?_⟩,
    first_of_leading hleading, hlast⟩, hleading, fun all hwhole => ?_⟩
  · rw [hsplit, ← hrest]
  · rw [hread, hsteps]
  · rwa [lenient_of_spells hspells]
  · rw [hcut]
  · rwa [lenient_of_spells hblanks]
  · rw [hsplit] at hwhole
    obtain ⟨behind, hbehind⟩ := exists_spells_of_append hspells hwhole
    obtain ⟨codes, hcodes⟩ := exists_spells_content hbehind
    rw [hbegins] at hcodes
    exact ⟨codes, hcodes⟩

variable {start kept finish : List UInt8}

/-- Only blanks are taken away at the end exactly when nothing is cut off there. -/
theorem Trims.back_iff (h : Trims bytes start kept finish) :
    (∀ code ∈ lenient finish, Scalar.isBlank code = true) ↔ cut bytes = [] := by
  obtain ⟨blanks, rfl, hall⟩ := h.back
  rw [lenient_append (spells_of_blanks hall), List.forall_mem_append, and_iff_right hall]
  constructor
  · intro hblank
    refine (lenient_cut bytes).resolve_right fun hread => ?_
    rw [hread, List.forall_mem_singleton] at hblank
    cases hblank
  · intro hnone
    rw [hnone, lenient_nil]
    exact List.forall_mem_nil _

/-- All bytes are content exactly when nothing is cut off, unless they end with a blank. -/
theorem content_eq_length_iff
    (hlast : ∀ code ∈ (lenient bytes).getLast?, Scalar.isBlank code = false) :
    content bytes = bytes.length ↔ cut bytes = [] := by
  obtain ⟨kept, blanks, codes, middle, hsplit, hlength, hspells, hall, hsteps, -⟩ :=
    content_spells bytes
  have hsum := congrArg List.length hsplit
  rw [List.length_append, List.length_append, hlength] at hsum
  constructor
  · intro hwhole
    exact List.eq_nil_of_length_eq_zero (by omega)
  · intro hnone
    have hread : lenient bytes = middle.map (fun step => step.code?.getD Scalar.replacement) ++
        codes := by
      rw [lenient, hsteps, List.map_append]
      refine congrArg (_ ++ ·) ?_
      rw [hnone, List.append_nil]
      exact lenient_of_spells hspells
    -- blanks behind the content would be the last that is read of the bytes
    have hcodes : codes = [] := by
      by_contra hne
      have hend : (lenient bytes).getLast? = some (codes.getLast hne) := by
        rw [hread, List.getLast?_append_of_ne_nil _ hne, List.getLast?_eq_some_getLast hne]
      cases (hlast _ hend).symm.trans (hall _ (List.getLast_mem hne))
    have hblanks : blanks = [] := by rw [← lenient_eq_nil_iff, lenient_of_spells hspells, hcodes]
    rw [hnone, hblanks] at hsum
    exact hsum.symm

/-- What is left when blanks are taken away loses nothing more unless it is cut off itself. -/
theorem Trims.again_iff (h : Trims bytes start kept finish) (hl : leading kept = 0) :
    (kept.take (content kept)).drop (leading kept) = kept ↔ cut kept = [] := by
  rw [hl, List.drop_zero, List.take_eq_self_iff, ← content_eq_length_iff h.last]
  have hle := content_le kept
  omega

end TextUnits.Scan
