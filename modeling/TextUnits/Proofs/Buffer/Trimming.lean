import TextUnits.Proofs.Buffer.Reachable
import TextUnits.Proofs.Scan.Trimming

/-!
# Trimming a buffer

Taking the blanks away at both ends needs no room, so it always succeeds and leaves the room as it
was. What it takes away are blanks, but for one thing: a sequence that the content cuts off at its
end goes with the blanks in front of it, although no blank is ever cut off. So trimming a second
time changes nothing more exactly when what the first one left does not end in such a sequence.
-/

namespace TextUnits.Buffer

open Scan

variable {o : BufferOptions} {b : Buffer}

/-- Trimming keeps the room, and leaves a sound buffer sound. -/
theorem exists_trim (hb : b.Sound) :
    ∃ changed, perform .trim b = .ok () changed ∧ changed.content = trimmed b.content ∧
      changed.capacity = b.capacity ∧ changed.Sound := by
  have hshorter : (trimmed b.content).length ≤ b.capacity := by
    have hlength := hb.length_content
    have hle := hb.length_le
    rw [trimmed, List.length_drop, List.length_take]
    omega
  have hroom : (trimmed b.content).length ≤ max b.capacity b.limit :=
    Nat.le_trans hshorter (Nat.le_max_left _ _)
  have hedited : Operation.edited b .trim = .ok (trimmed b.content) := rfl
  obtain ⟨changed, hperform, hholds⟩ := exists_perform_of_room hb hedited hroom
  refine ⟨changed, hperform, hholds.content_eq, ?_, hholds.sound hb (Nat.not_lt.mpr hroom)⟩
  rw [hholds.capacity_eq, Nat.max_eq_left hshorter]

/-- Trimming a buffer, whatever its content is, takes away a beginning and an end and keeps the
room. The beginning is made of blanks, and what is left starts with no white space and ends with no
blank. The end is made of blanks and of the sequence that the content cuts off: it holds nothing but
blanks exactly when there is no such sequence. Trimming again succeeds too, and it leaves the content
as it is exactly when that does not end in a sequence cut off. A content that is made of sequences
ends in none, neither before it is trimmed nor behind it. -/
theorem Reachable.trim_divides (h : Reachable o b) :
    ∃ changed again start finish,
      perform .trim b = .ok () changed ∧ perform .trim changed = .ok () again ∧
      changed.capacity = b.capacity ∧ again.capacity = b.capacity ∧
      Trims b.content start changed.content finish ∧
      ((∀ code ∈ lenient finish, Scalar.isBlank code = true) ↔ cut b.content = []) ∧
      (again.content = changed.content ↔ cut changed.content = []) ∧
      ∀ codes, Encoding.Spells b.content codes → cut b.content = [] ∧ cut changed.content = [] := by
  obtain ⟨changed, hperform, hcontent, hcapacity, hsound⟩ := exists_trim h.soundFor.toSound
  obtain ⟨again, hagain, htwice, hroom, -⟩ := exists_trim hsound
  obtain ⟨start, finish, htrims, hleading, hspells⟩ := exists_trims b.content
  rw [← trimmed, ← hcontent] at htrims hleading hspells
  refine ⟨changed, again, start, finish, hperform, hagain, hcapacity, hroom.trans hcapacity, htrims,
    htrims.back_iff, ?_, fun codes hcodes => ?_⟩
  · rw [htwice]
    exact htrims.again_iff hleading
  · obtain ⟨more, hmore⟩ := hspells codes hcodes
    exact ⟨cut_of_spells hcodes, cut_of_spells hmore⟩

/-- White space in front of a letter, and a blank and a zero behind it. -/
theorem Reachable.trim_divides_letter :
    Reachable ⟨some (Double.ofNat 8), none⟩ ⟨[0x20, 0x61, 0x20, 0x00], 4, 8, .default⟩ ∧
      ∃ changed again, perform .trim ⟨[0x20, 0x61, 0x20, 0x00], 4, 8, .default⟩ = .ok () changed ∧
        perform .trim changed = .ok () again ∧ changed.content = [0x61] ∧
        again.content = [0x61] ∧ again.capacity = 4 := by
  have hreach : Reachable ⟨some (Double.ofNat 8), none⟩
      ⟨[0x20, 0x61, 0x20, 0x00], 4, 8, .default⟩ :=
    .ofBytes [0x20, 0x61, 0x20, 0x00] (eq_ok_of_toOption (by decide +kernel))
  have hchanged : perform .trim ⟨[0x20, 0x61, 0x20, 0x00], 4, 8, .default⟩ =
      .ok () ⟨[0x61, 0x61, 0x20, 0x00], 1, 8, .default⟩ := by with_unfolding_all rfl
  obtain ⟨changed, again, -, -, hperform, hagain, -, hcapacity, -, -, htwice, -⟩ :=
    hreach.trim_divides
  cases hchanged.symm.trans hperform
  exact ⟨hreach, _, again, hperform, hagain, rfl, htwice.mpr (by decide +kernel), hcapacity⟩

/-- A lead in front of white space is left, but taken away when it is trimmed again, although it is
read leniently as no blank. -/
theorem Reachable.not_trim_again :
    Reachable ⟨some (Double.ofNat 8), none⟩ ⟨[0xE2, 0x20, 0x20], 3, 8, .default⟩ ∧
      perform .trim ⟨[0xE2, 0x20, 0x20], 3, 8, .default⟩ =
        .ok () ⟨[0xE2, 0x20, 0x20], 1, 8, .default⟩ ∧
      perform .trim ⟨[0xE2, 0x20, 0x20], 1, 8, .default⟩ =
        .ok () ⟨[0xE2, 0x20, 0x20], 0, 8, .default⟩ ∧
      content ⟨[0xE2, 0x20, 0x20], 1, 8, .default⟩ = [0xE2] ∧
      content ⟨[0xE2, 0x20, 0x20], 0, 8, .default⟩ = [] ∧
      lenient [0xE2] = [Scalar.replacement] ∧ Scalar.isBlank Scalar.replacement = false := by
  have hreach : Reachable ⟨some (Double.ofNat 8), none⟩ ⟨[0xE2, 0x20, 0x20], 3, 8, .default⟩ :=
    .ofBytes [0xE2, 0x20, 0x20] (eq_ok_of_toOption (by decide +kernel))
  refine ⟨hreach, ?_, ?_, rfl, rfl, by decide +kernel, by decide⟩
  · with_unfolding_all rfl
  · with_unfolding_all rfl

end TextUnits.Buffer
