import TextUnits.Proofs.Encoding.RoundTrip
import TextUnits.Proofs.Transcode.Reading
import Mathlib.Data.List.Basic

/-!
# The grammar of UTF-8 as it is read

Which bytes spell which code points, told without the reader: a byte of ASCII, or a lead with one,
two or three continuation bytes behind it and the payload of all of them in one number. Leads that
could only start a longer form than needed are left out among those of two bytes, but not among the
others. The reader follows this grammar byte for byte, and where it stops no sequence starts.
-/

namespace TextUnits.Encoding

open Step

/-- A byte that continues a sequence. -/
def Continues (b : UInt8) : Prop := 0x80 ≤ b.toNat ∧ b.toNat ≤ 0xBF

instance (b : UInt8) : Decidable (Continues b) :=
  inferInstanceAs (Decidable (0x80 ≤ b.toNat ∧ b.toNat ≤ 0xBF))

/-- Sequences of UTF-8 and the code points that they denote. -/
inductive Denotes : List UInt8 → Nat → Prop where
  /-- A byte up to `7F`. -/
  | one {a : UInt8} (ha : a.toNat ≤ 0x7F) : Denotes [a] a.toNat
  /-- A lead from `C2` to `DF` with one byte behind it. -/
  | two {a b : UInt8} (hl : 0xC2 ≤ a.toNat) (hu : a.toNat ≤ 0xDF) (hb : Continues b) :
      Denotes [a, b] ((a.toNat - 0xC0) * 0x40 + (b.toNat - 0x80))
  /-- A lead from `E0` to `EF` with two bytes behind it, for no surrogate. -/
  | three {a b c : UInt8} {code : Nat} (hl : 0xE0 ≤ a.toNat) (hu : a.toNat ≤ 0xEF)
      (hb : Continues b) (hc : Continues c)
      (hcode : code = ((a.toNat - 0xE0) * 0x40 + (b.toNat - 0x80)) * 0x40 + (c.toNat - 0x80))
      (hs : Scalar.isScalar code = true) : Denotes [a, b, c] code
  /-- A lead from `F0` to `F4` with three bytes behind it, for no surrogate and nothing beyond the
  last code point. -/
  | four {a b c d : UInt8} {code : Nat} (hl : 0xF0 ≤ a.toNat) (hu : a.toNat ≤ 0xF4)
      (hb : Continues b) (hc : Continues c) (hd : Continues d)
      (hcode : code = (((a.toNat - 0xF0) * 0x40 + (b.toNat - 0x80)) * 0x40 +
        (c.toNat - 0x80)) * 0x40 + (d.toNat - 0x80))
      (hs : Scalar.isScalar code = true) : Denotes [a, b, c, d] code

/-- Bytes that are sequences one behind the other, and the code points that these denote. -/
inductive Spells : List UInt8 → List Nat → Prop where
  /-- No sequence. -/
  | nil : Spells [] []
  /-- A sequence, then more. -/
  | cons {bytes rest : List UInt8} {code : Nat} {codes : List Nat} (hd : Denotes bytes code)
      (hs : Spells rest codes) : Spells (bytes ++ rest) (code :: codes)

/-- Bytes of the sequence that a lead from `C2` to `F4` announces, the lead included. -/
def announced (lead : Nat) : Nat := if lead ≤ 0xDF then 2 else if lead ≤ 0xEF then 3 else 4

/-- The bytes start with a lead that announces more of them than there are. -/
def IsCut (bytes : List UInt8) : Prop :=
  ∃ lead rest, bytes = lead :: rest ∧ 0xC2 ≤ lead.toNat ∧ lead.toNat ≤ 0xF4 ∧
    bytes.length < announced lead.toNat

variable {lead : UInt8} {bytes front rest tail : List UInt8} {code size : Nat} {codes : List Nat}

theorem isContinuation_iff_continues {b : UInt8} :
    Scalar.isContinuation b.toNat = true ↔ Continues b := Scalar.isContinuation_iff b.toNat_lt

theorem leadSize?_eq_announced {lead : Nat} (hl : 0xC2 ≤ lead) (hu : lead ≤ 0xF4) :
    leadSize? lead = some (announced lead) := by
  unfold leadSize? announced
  split_ifs <;> first | rfl | omega

/-- Sequences are not empty. -/
theorem Denotes.length_pos (h : Denotes front code) : 0 < front.length := by
  cases h <;> exact Nat.succ_pos _

/-- A sequence is read as what it denotes, whatever stands behind it. -/
theorem decodeUtf8_of_denotes (h : Denotes front code) (rest : List UInt8) :
    decodeUtf8 (front ++ rest) = .scalar code front.length := by
  cases h with
  | one ha =>
    rw [List.singleton_append, decodeUtf8]
    exact if_pos (Nat.lt_succ_of_le ha)
  | @two a b hl hu hb =>
    have hscalar : Scalar.isScalar ((a.toNat - 0xC0) * 0x40 + (b.toNat - 0x80)) = true := by
      rw [Scalar.isScalar_iff]
      unfold Continues at hb
      omega
    refine decodeUtf8_of_payload [b] hl (by omega) ?_ rfl ?_ ?_ hscalar
    · rw [leadSize?_eq_announced hl (by omega), announced, if_pos hu]
      rfl
    · simpa only [List.forall_mem_singleton] using isContinuation_iff_continues.mpr hb
    · unfold Continues at hb
      simp only [assemble, List.length_singleton, List.foldl_cons, List.foldl_nil]
      omega
  | @three a b c _ hl hu hb hc hcode hs =>
    refine decodeUtf8_of_payload [b, c] (by omega) (by omega) ?_ rfl ?_ ?_ hs
    · rw [leadSize?_eq_announced (by omega) (by omega), announced, if_neg (by omega), if_pos hu]
      rfl
    · simp [isContinuation_iff_continues.mpr hb, isContinuation_iff_continues.mpr hc]
    · unfold Continues at hb hc
      simp only [assemble, List.length_cons, List.length_nil, List.foldl_cons, List.foldl_nil]
      omega
  | @four a b c d _ hl hu hb hc hd hcode hs =>
    refine decodeUtf8_of_payload [b, c, d] (by omega) (by omega) ?_ rfl ?_ ?_ hs
    · rw [leadSize?_eq_announced (by omega) (by omega), announced, if_neg (by omega),
        if_neg (by omega)]
      rfl
    · simp [isContinuation_iff_continues.mpr hb, isContinuation_iff_continues.mpr hc,
        isContinuation_iff_continues.mpr hd]
    · unfold Continues at hb hc hd
      simp only [assemble, List.length_cons, List.length_nil, List.foldl_cons, List.foldl_nil]
      omega

/-- A byte from 80 on that is no lead from `C2` to `F4` is refused alone. -/
theorem decodeUtf8_of_no_lead (ha : 0x80 ≤ lead.toNat)
    (hn : ¬ (0xC2 ≤ lead.toNat ∧ lead.toNat ≤ 0xF4)) (rest : List UInt8) :
    decodeUtf8 (lead :: rest) = .invalid 1 := by
  unfold decodeUtf8
  dsimp only
  rw [if_neg (by omega)]
  split_ifs with hoctet
  · rfl
  · have hlow : lead.toNat < 0xC0 := by
      simp only [Scalar.isForbiddenOctet, Bool.or_eq_true, beq_iff_eq, decide_eq_true_eq] at hoctet
      omega
    rw [leadSize?, if_pos hlow]

/-- What is read behind a lead depends on the bytes that it announces. -/
theorem decodeUtf8_of_lead (hl : 0xC2 ≤ lead.toNat) (hu : lead.toNat ≤ 0xF4)
    (rest : List UInt8) :
    (rest.length + 1 < announced lead.toNat → decodeUtf8 (lead :: rest) = .truncated) ∧
      ∀ tail more, rest = tail ++ more → tail.length + 1 = announced lead.toNat →
        decodeUtf8 (lead :: rest) =
          if tail.all fun b => Scalar.isContinuation b.toNat then
            if Scalar.isScalar (assemble lead.toNat tail) = true then
              .scalar (assemble lead.toNat tail) (tail.length + 1)
            else .invalid (tail.length + 1)
          else .invalid 1 := by
  obtain ⟨hascii, hoctet⟩ := lead_of_range hl (Nat.lt_succ_of_le hu)
  unfold decodeUtf8
  dsimp only
  rw [if_neg hascii, if_neg hoctet, leadSize?_eq_announced hl hu]
  dsimp only
  refine ⟨fun hcut => ?_, ?_⟩
  · rw [if_pos]
    rw [List.length_take]
    omega
  · rintro tail more rfl hlength
    have htake : (tail ++ more).take (announced lead.toNat - 1) = tail := by
      rw [← hlength, Nat.add_sub_cancel, List.take_left]
    rw [htake, if_neg (by omega), ← hlength]

/-- A lead with the bytes that it announces denotes their payload. -/
theorem denotes_of_lead (hl : 0xC2 ≤ lead.toNat) (hu : lead.toNat ≤ 0xF4)
    (hlength : tail.length + 1 = announced lead.toNat) (hc : ∀ b ∈ tail, Continues b)
    (hs : Scalar.isScalar (assemble lead.toNat tail) = true) :
    Denotes (lead :: tail) (assemble lead.toNat tail) := by
  unfold announced at hlength
  split_ifs at hlength with htwo hthree
  · obtain ⟨b, rfl⟩ := List.length_eq_one_iff.mp (Nat.succ.inj hlength)
    have hb := hc b (List.mem_singleton_self b)
    have hcode : assemble lead.toNat [b] = (lead.toNat - 0xC0) * 0x40 + (b.toNat - 0x80) := by
      unfold Continues at hb
      simp only [assemble, List.length_singleton, List.foldl_cons, List.foldl_nil]
      omega
    rw [hcode]
    exact .two hl htwo hb
  · obtain ⟨b, c, rfl⟩ := List.length_eq_two.mp (Nat.succ.inj hlength)
    rw [List.forall_mem_cons, List.forall_mem_singleton] at hc
    refine .three (by omega) hthree hc.1 hc.2 ?_ hs
    unfold Continues at hc
    simp only [assemble, List.length_cons, List.length_nil, List.foldl_cons, List.foldl_nil]
    omega
  · obtain ⟨b, c, d, rfl⟩ := List.length_eq_three.mp (Nat.succ.inj hlength)
    rw [List.forall_mem_cons, List.forall_mem_cons, List.forall_mem_singleton] at hc
    refine .four (by omega) hu hc.1 hc.2.1 hc.2.2 ?_ hs
    unfold Continues at hc
    simp only [assemble, List.length_cons, List.length_nil, List.foldl_cons, List.foldl_nil]
    omega

/-- As many bytes as a lead announces, when they are there. -/
theorem length_take_announced {lead : Nat} (h : ¬ rest.length + 1 < announced lead) :
    (rest.take (announced lead - 1)).length + 1 = announced lead := by
  have hleast : 2 ≤ announced lead := by
    unfold announced
    split_ifs <;> decide
  rw [List.length_take]
  omega

/-- What is read of bytes that are not cut off does not depend on what stands behind them. -/
theorem decodeUtf8_append (h : decodeUtf8 bytes ≠ .truncated) (more : List UInt8) :
    decodeUtf8 (bytes ++ more) = decodeUtf8 bytes := by
  cases bytes with
  | nil => exact absurd rfl h
  | cons lead rest =>
    rw [List.cons_append]
    by_cases hascii : lead.toNat ≤ 0x7F
    · exact (decodeUtf8_of_denotes (.one hascii) (rest ++ more)).trans
        (decodeUtf8_of_denotes (.one hascii) rest).symm
    by_cases hlead : 0xC2 ≤ lead.toNat ∧ lead.toNat ≤ 0xF4
    · obtain ⟨hl, hu⟩ := hlead
      obtain ⟨hcut, hwhole⟩ := decodeUtf8_of_lead hl hu rest
      have hlength := length_take_announced fun hshort => h (hcut hshort)
      have hsplit := List.take_append_drop (announced lead.toNat - 1) rest
      have hread := (decodeUtf8_of_lead hl hu (rest ++ more)).2 (rest.take _)
        (rest.drop _ ++ more) (by rw [← List.append_assoc, hsplit]) hlength
      rw [hread, hwhole _ _ hsplit.symm hlength]
    · rw [decodeUtf8_of_no_lead (by omega) hlead, decodeUtf8_of_no_lead (by omega) hlead]

/-- At the front of bytes there is a sequence, which is read, or a lead that is cut off, or neither,
which is refused. -/
theorem decodeUtf8_cases (hne : bytes ≠ []) :
    (∃ front more code, bytes = front ++ more ∧ Denotes front code) ∨
      (IsCut bytes ∧ decodeUtf8 bytes = .truncated) ∨
      (¬ IsCut bytes ∧ ∃ size, decodeUtf8 bytes = .invalid size) := by
  obtain ⟨lead, rest, rfl⟩ := List.exists_cons_of_ne_nil hne
  by_cases hascii : lead.toNat ≤ 0x7F
  · exact .inl ⟨[lead], rest, lead.toNat, rfl, .one hascii⟩
  by_cases hlead : 0xC2 ≤ lead.toNat ∧ lead.toNat ≤ 0xF4
  · obtain ⟨hl, hu⟩ := hlead
    obtain ⟨hcut, hwhole⟩ := decodeUtf8_of_lead hl hu rest
    by_cases hroom : rest.length + 1 < announced lead.toNat
    · exact .inr (.inl ⟨⟨lead, rest, rfl, hl, hu, hroom⟩, hcut hroom⟩)
    have hnot : ¬ IsCut (lead :: rest) := by
      rintro ⟨_, _, ⟨⟩, -, -, hshort⟩
      exact hroom hshort
    have hlength := length_take_announced hroom
    have hsplit := (List.take_append_drop (announced lead.toNat - 1) rest).symm
    have hread := hwhole _ _ hsplit hlength
    split_ifs at hread with hc hs
    · simp only [List.all_eq_true, isContinuation_iff_continues] at hc
      exact .inl ⟨_, _, _, congrArg (lead :: ·) hsplit, denotes_of_lead hl hu hlength hc hs⟩
    · exact .inr (.inr ⟨hnot, _, hread⟩)
    · exact .inr (.inr ⟨hnot, _, hread⟩)
  · have hnot : ¬ IsCut (lead :: rest) := by
      rintro ⟨_, _, ⟨⟩, hl, hu, -⟩
      exact hlead ⟨hl, hu⟩
    exact .inr (.inr ⟨hnot, 1, decodeUtf8_of_no_lead (by omega) hlead rest⟩)

/-- The walk over a sequence and more bytes takes the sequence first. -/
theorem steps_of_denotes (h : Denotes front code) (rest : List UInt8) :
    utf8.steps (front ++ rest) = .scalar code front.length :: utf8.steps rest := by
  have hread : utf8.decode (front ++ rest) = .scalar code front.length :=
    decodeUtf8_of_denotes h rest
  have hnonempty : front ++ rest ≠ [] :=
    List.append_ne_nil_of_left_ne_nil (List.ne_nil_of_length_pos h.length_pos) rest
  rw [steps_of_decode hnonempty (by rw [hread]; exact Step.noConfusion), hread]
  exact congrArg (fun more => _ :: utf8.steps more) List.drop_left

/-- Sequences one behind the other are read in front of whatever is read of the rest. -/
theorem Spells.read (h : Spells front codes) (rest : List UInt8) :
    let all := accepted true (utf8.steps (front ++ rest))
    let behind := accepted true (utf8.steps rest)
    codesOf all = codes ++ codesOf behind ∧ sizeAll all = front.length + sizeAll behind := by
  induction h with
  | nil => exact ⟨rfl, (Nat.zero_add _).symm⟩
  | @cons bytes more code codes hd _ ih =>
    dsimp only at ih ⊢
    rw [List.append_assoc, steps_of_denotes hd, accepted_cons_of_not_stops rfl, codesOf_cons rfl,
      ih.1, sizeAll, ih.2, Step.size, List.length_append, Nat.add_assoc]
    exact ⟨rfl, rfl⟩

/-- The walk over sequences does not depend on what stands behind them. -/
theorem Spells.steps_append (h : Spells front codes) (rest : List UInt8) :
    utf8.steps (front ++ rest) = utf8.steps front ++ utf8.steps rest := by
  induction h with
  | nil =>
    rw [steps.eq_def utf8 []]
    rfl
  | cons hd _ ih => rw [List.append_assoc, steps_of_denotes hd, steps_of_denotes hd, ih]; rfl

/-- Bytes spell no more than one sequence of code points. -/
theorem Spells.unique {other : List Nat} (h : Spells bytes codes) (ho : Spells bytes other) :
    codes = other := by
  have hread := (h.read []).1
  rw [(ho.read []).1] at hread
  exact (List.append_cancel_right hread).symm

/-- The longest beginning of bytes that is made of sequences. -/
structure LongestSpelling (bytes front : List UInt8) (codes : List Nat) : Prop where
  /-- It stands at the front. -/
  beginning : front <+: bytes
  /-- It spells the code points. -/
  spells : Spells front codes
  /-- No other beginning that spells code points reaches beyond it. -/
  longest : ∀ other more, other <+: bytes → Spells other more → other <+: front

/-- Bytes as a whole are made of sequences exactly when their longest beginning is all of them. -/
theorem LongestSpelling.spells_iff {all : List Nat} (h : LongestSpelling bytes front codes) :
    Spells bytes all ↔ front = bytes ∧ codes = all := by
  constructor
  · intro hall
    have hwhole := h.longest bytes all (List.prefix_refl bytes) hall
    have heq : front = bytes := h.beginning.eq_of_length_le hwhole.length_le
    subst heq
    exact ⟨rfl, h.spells.unique hall⟩
  · rintro ⟨rfl, rfl⟩
    exact h.spells

/-- What the status of a strict reading tells of the bytes that it stops in front of. -/
structure StopsAt (rest : List UInt8) (status : Status) : Prop where
  /-- It succeeds when there are none. -/
  success : status = .success ↔ rest = []
  /-- The argument is invalid when they start with a lead that is cut off. -/
  cut : status = .invalidArgument ↔ IsCut rest
  /-- A code point is invalid in any other case. -/
  malformed : status = .invalidCodePoint ↔ rest ≠ [] ∧ ¬ IsCut rest

theorem not_isCut_nil : ¬ IsCut [] := by
  rintro ⟨_, _, ⟨⟩, -⟩

/-- A strict reading takes sequences from the front of its bytes, and its status tells what stands
behind them. -/
theorem spells_steps (bytes : List UInt8) :
    ∃ front rest, bytes = front ++ rest ∧
      Spells front (codesOf (accepted true (utf8.steps bytes))) ∧
      sizeAll (accepted true (utf8.steps bytes)) = front.length ∧
      StopsAt rest (ending true (utf8.steps bytes)) := by
  induction bytes using walk_induction (e := .utf8) with
  | nil =>
    rw [steps]
    exact ⟨[], [], rfl, .nil, rfl, iff_of_true rfl rfl,
      iff_of_false Status.noConfusion not_isCut_nil,
      iff_of_false Status.noConfusion fun h => h.1 rfl⟩
  | cut bytes hne hcut =>
    have hiscut : IsCut bytes := by
      rcases decodeUtf8_cases hne with ⟨front, more, code, rfl, hd⟩ | ⟨hiscut, -⟩ | ⟨-, size, hread⟩
      · cases hcut.symm.trans (decodeUtf8_of_denotes hd more)
      · exact hiscut
      · cases hcut.symm.trans hread
    rw [steps_of_truncated hne hcut]
    exact ⟨[], bytes, rfl, .nil, rfl, iff_of_false Status.noConfusion hne, iff_of_true rfl hiscut,
      iff_of_false Status.noConfusion fun h => h.2 hiscut⟩
  | step bytes hne hstep ih =>
    rcases decodeUtf8_cases hne with ⟨front, more, code, rfl, hd⟩ | ⟨-, hread⟩ | ⟨hnot, size, hread⟩
    · have hread : utf8.decode (front ++ more) = .scalar code front.length :=
        decodeUtf8_of_denotes hd more
      rw [hread, Step.size, List.drop_left] at ih
      obtain ⟨taken, rest, rfl, hspells, hsize, hstops⟩ := ih
      rw [steps_of_denotes hd, accepted_cons_of_not_stops rfl, codesOf_cons rfl,
        ending_cons_of_not_stops rfl]
      refine ⟨front ++ taken, rest, (List.append_assoc ..).symm, .cons hd hspells, ?_, hstops⟩
      rw [sizeAll, hsize, List.length_append, Step.size]
    · exact absurd hread hstep
    · have hinvalid : utf8.decode bytes = .invalid size := hread
      rw [steps_of_decode hne hstep, hinvalid, accepted_cons_of_stops rfl, ending_cons_of_stops rfl]
      exact ⟨[], bytes, rfl, .nil, rfl, iff_of_false Status.noConfusion hne,
        iff_of_false Status.noConfusion hnot, iff_of_true rfl ⟨hne, hnot⟩⟩

/-- A strict reading takes the longest beginning of its bytes that is made of sequences. -/
theorem longestSpelling_steps (bytes : List UInt8) :
    ∃ front rest, bytes = front ++ rest ∧
      LongestSpelling bytes front (codesOf (accepted true (utf8.steps bytes))) ∧
      sizeAll (accepted true (utf8.steps bytes)) = front.length ∧
      StopsAt rest (ending true (utf8.steps bytes)) := by
  obtain ⟨front, rest, hsplit, hspells, hsize, hstops⟩ := spells_steps bytes
  have hbeginning : front <+: bytes := ⟨rest, hsplit.symm⟩
  refine ⟨front, rest, hsplit, ⟨hbeginning, hspells, fun other more hother hread => ?_⟩, hsize,
    hstops⟩
  obtain ⟨behind, rfl⟩ := hother
  have hall := (hread.read behind).2
  rw [hsize] at hall
  exact List.prefix_of_prefix_length_le (List.prefix_append other behind) hbeginning
    (hall ▸ Nat.le_add_right _ _)

end TextUnits.Encoding
