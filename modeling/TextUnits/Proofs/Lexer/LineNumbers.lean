import TextUnits.Proofs.Lexer.Coverage
import TextUnits.Proofs.Lexer.Lines
import TextUnits.Proofs.Lexer.Markers
import TextUnits.Proofs.Transcode.RoundTrip

/-!
# Line numbers

At every point of a run the cursor stands between two code points of its source and not within a
CR LF, and its line is one more than the number of line breaks in front of it. The same holds of the
place where its token starts. One token preserves this, so a call of `next` does, which reads on
past tokens, and so any number of calls.
-/

namespace TextUnits.Lexer

open Encoding Scan

/-- Line breaks in bytes that are read as UTF-8. -/
def lineBreaksIn (bytes : List UInt8) : Nat := lineBreaks (Step.codesOf (utf8.steps bytes))

/-- Texts of the comment markers that settings stand for. -/
def Settings.markers (s : Settings) : List Text :=
  [s.lineOpener.getD defaultLineOpener, s.blockOpener.getD defaultBlockOpener,
    s.blockCloser.getD defaultBlockCloser]

/-- An offset of a text lies between two parts of it and has the number of its line. -/
structure Numbered (before later : List Nat) (offset line : Nat) : Prop where
  /-- The first part lies in front of the offset. -/
  offset_eq : offset = (utf8.encodeAll before).length
  /-- The line is one more than the number of line breaks in it. -/
  line_eq : line = 1 + lineBreaks before
  /-- No CR LF lies across the offset. -/
  apart : Apart before later

variable {codes : List Nat} {o : Options} {c : Cursor}

/-- A token that starts at a numbered place of a text. -/
def Token.Counts (codes : List Nat) (t : Token) : Prop :=
  ∃ before later, before ++ later = codes ∧ Numbered before later t.offset t.line

namespace Cursor

/-- A cursor at a numbered place of a text, with what is behind the place not read yet. -/
def Counts (codes : List Nat) (c : Cursor) : Prop :=
  ∃ before later, before ++ later = codes ∧ c.rest = utf8.encodeAll later ∧
    Numbered before later c.offset c.line

/-- The cursor that a number of calls leaves. -/
def afterCalls (o : Options) (c : Cursor) : Nat → Cursor
  | 0 => c
  | calls + 1 => ((c.afterCalls o calls).next o).cursor

theorem start_counts (codes : List Nat) : (start (utf8.encodeAll codes)).Counts codes :=
  ⟨[], codes, rfl, rfl, rfl, rfl, fun hlast => absurd hlast.symm (Option.some_ne_none _)⟩

/-- A token in front of the end leaves the cursor at a numbered place. -/
theorem Counts.take {before later : List Nat} {tag : Tag} {size : Nat}
    (hrest : c.rest = utf8.encodeAll later) (hc : Numbered before later c.offset c.line)
    (hr : Reads later tag size) : (c.take tag size).Counts (before ++ later) := by
  obtain ⟨taken, behind, rfl, rfl, hlines, hapart⟩ := hr
  -- What the token leaves keeps apart from it, or else from what was in front of it.
  have hbefore : Apart before taken := by
    intro hlast hhead
    apply hc.apart hlast
    rw [List.head?_append, hhead]
    rfl
  have hbehind : Apart (before ++ taken) behind := by
    cases taken with
    | nil =>
      rw [List.append_nil]
      exact hc.apart
    | cons code more => exact apart_append (List.cons_ne_nil _ _) hapart
  refine ⟨before ++ taken, behind, List.append_assoc _ _ _, ?_, ?_, ?_, hbehind⟩
  · rw [Cursor.take, hrest, encodeAll_append]
    exact List.drop_left
  · rw [Cursor.take, hc.offset_eq, encodeAll_append, List.length_append]
  · rw [Cursor.take, hrest, encodeAll_append]
    dsimp only
    rw [List.take_left, hlines, hc.line_eq, lineBreaks_append hbefore, Nat.add_assoc]

/-- One token preserves that the cursor counts lines, and starts at a numbered place. -/
theorem Counts.step (ho : o.Unbroken) (h : Legible codes) (hc : c.Counts codes) :
    (c.step o).Counts codes ∧ (c.step o).token.Counts codes := by
  obtain ⟨before, later, rfl, hrest, hplace⟩ := hc
  by_cases hend : c.rest = []
  · have hlater : later = [] := encodeAll_eq_nil_iff.mp (hrest.symm.trans hend)
    rw [step_of_end hend]
    refine ⟨Counts.take hrest hplace ?_, before, later, rfl, hplace⟩
    exact ⟨[], later, rfl, rfl, rfl, fun hlast => absurd hlast.symm (Option.some_ne_none _)⟩
  · have hlater : later ≠ [] := by
      rintro rfl
      exact hend hrest
    rw [step_of_scan hend]
    refine ⟨Counts.take hrest hplace ?_, before, later, rfl, hplace⟩
    rw [hrest]
    exact scan_reads ho h.of_append.2 hlater

/-- A call preserves that the cursor counts lines, also past tokens that it passes over. -/
theorem Counts.next (ho : o.Unbroken) (h : Legible codes) (hc : c.Counts codes) :
    (c.next o).cursor.Counts codes ∧ (c.next o).cursor.token.Counts codes := by
  induction hn : c.rest.length using Nat.strongRecOn generalizing c with
  | ind n ih =>
    have hstep := hc.step ho h
    cases hv : verdict o c.rest.isEmpty (c.step o).token with
    | some status =>
      rw [next_of_verdict hv]
      exact hstep
    | none =>
      by_cases hlt : (c.step o).rest.length < c.rest.length
      · rw [next_of_skip hv hlt]
        exact ih _ (hn ▸ hlt) hstep.1 rfl
      · rw [next_of_stall hv hlt]
        exact hstep

theorem Counts.afterCalls (ho : o.Unbroken) (h : Legible codes) (hc : c.Counts codes)
    (calls : Nat) : (c.afterCalls o calls).Counts codes := by
  induction calls with
  | zero => exact hc
  | succ calls ih => exact (ih.next ho h).1

end Cursor

/-- The line breaks of well-formed text are those of its code points. -/
theorem lineBreaksIn_encodeAll (h : ∀ code ∈ codes, Scalar.isScalar code = true) :
    lineBreaksIn (utf8.encodeAll codes) = lineBreaks codes := by
  rw [lineBreaksIn, steps_encodeAll utf8 h, (Step.accepted_scalars false utf8.width codes).2.2]

theorem Numbered.line_eq_lineBreaksIn {source : List UInt8} {before later : List Nat}
    {offset line : Nat} (hc : Numbered before later offset line)
    (h : ∀ code ∈ before ++ later, Scalar.isScalar code = true)
    (hs : utf8.encodeAll (before ++ later) <+: source) :
    line = 1 + lineBreaksIn (source.take offset) := by
  obtain ⟨rest, rfl⟩ := hs
  rw [hc.line_eq, hc.offset_eq, encodeAll_append, List.append_assoc, List.take_left,
    lineBreaksIn_encodeAll fun code hm => h code (List.mem_append_left _ hm)]

/-- A marker whose text has no line break has bytes that have none. -/
theorem Settings.unbroken_of_marker {name : String} {t : Text} {bytes : List UInt8}
    (h : marker name t = .ok bytes) (ht : ∀ u ∈ t, u.toNat ∉ breakCodes) : Unbroken bytes := by
  unfold marker at h
  split_ifs at h
  obtain ⟨codes, rfl, hcodes⟩ := Text.exists_codes_of_toUtf8 h
  refine ⟨codes, rfl, fun code hc => ⟨(hcodes code hc).1, ?_⟩⟩
  rcases (hcodes code hc).2 with ⟨u, hu, rfl⟩ | hhigh | rfl
  · exact ht u hu
  · simp only [breakCodes, List.mem_cons, List.not_mem_nil, or_false]
    omega
  · decide

theorem Settings.unbroken_of_resolve {s : Settings} (h : s.resolve = .ok o)
    (hm : ∀ t ∈ s.markers, ∀ u ∈ t, u.toNat ∉ breakCodes) : o.Unbroken := by
  obtain ⟨hline, hopener, hcloser⟩ := resolve_markers h
  simp only [markers, List.mem_cons, List.not_mem_nil, or_false, forall_eq_or_imp, forall_eq] at hm
  exact ⟨unbroken_of_marker hline hm.1, unbroken_of_marker hopener hm.2.1,
    unbroken_of_marker hcloser hm.2.2⟩

/-- Behind every call on a text that is read as scalar values without a zero, under all settings
whose markers have no line break, the line of the cursor is one more than the number of line breaks
in front of the cursor, and the line of its token one more than that in front of the token. -/
theorem openBytes_lines {source : List UInt8} {s : Settings} {r : Reader} (hl : Legible codes)
    (hm : ∀ t ∈ s.markers, ∀ u ∈ t, u.toNat ∉ breakCodes)
    (hs : s.readable source = .ok (utf8.encodeAll codes)) (h : openBytes source s = .ok r)
    (calls : Nat) :
    let c := r.cursor.afterCalls r.options (calls + 1)
    c.line = 1 + lineBreaksIn (source.take c.offset) ∧
      c.token.line = 1 + lineBreaksIn (source.take c.token.offset) := by
  intro c
  obtain ⟨bytes, hbytes, hstart, hresolve⟩ := opened_of_openBytes h
  cases hbytes.symm.trans hs
  have ho := Settings.unbroken_of_resolve hresolve hm
  have hcounts : r.cursor.Counts codes := hstart ▸ Cursor.start_counts codes
  have hpart := Settings.readable_isPrefix hs
  obtain ⟨⟨before, later, rfl, -, hplace⟩, front, behind, hsplit, htoken⟩ :=
    (hcounts.afterCalls ho hl calls).next ho hl
  refine ⟨hplace.line_eq_lineBreaksIn hl.isScalar hpart, ?_⟩
  rw [← hsplit] at hl hpart
  exact htoken.line_eq_lineBreaksIn hl.isScalar hpart

/-- A CR LF, and a text in quotes with a line separator, in front of a name: its line is the
third. -/
theorem openBytes_lines_third :
    ∃ r, openBytes [0x61, 0x0D, 0x0A, 0x22, 0xE2, 0x80, 0xA8, 0x22, 0x62] .default = .ok r ∧
      (r.cursor.afterCalls r.options 4).token.offset = 8 ∧
      (r.cursor.afterCalls r.options 4).token.line =
        1 + lineBreaksIn [0x61, 0x0D, 0x0A, 0x22, 0xE2, 0x80, 0xA8, 0x22] ∧
      (r.cursor.afterCalls r.options 4).token.line = 3 := by
  have hlegible : Legible [0x61, 0x0D, 0x0A, 0x22, 0x2028, 0x22, 0x62] := by
    unfold Legible
    decide
  have hdefault : Settings.default.markers = [[0x2F, 0x2F], [0x2F, 0x2A], [0x2A, 0x2F]] := by
    with_unfolding_all rfl
  have hplain : (0x2F : UInt16).toNat ∉ breakCodes ∧ (0x2A : UInt16).toNat ∉ breakCodes := by
    decide
  have hmarkers : ∀ t ∈ Settings.default.markers, ∀ u ∈ t, u.toNat ∉ breakCodes := by
    simp only [hdefault, List.mem_cons, List.not_mem_nil, or_false, forall_eq_or_imp, forall_eq,
      hplain, and_self, not_false_eq_true]
  have hopen : openBytes [0x61, 0x0D, 0x0A, 0x22, 0xE2, 0x80, 0xA8, 0x22, 0x62] .default =
      .ok ⟨⟨false, false, false, false, [0x2F, 0x2F], [0x2F, 0x2A], [0x2A, 0x2F]⟩,
        .start [0x61, 0x0D, 0x0A, 0x22, 0xE2, 0x80, 0xA8, 0x22, 0x62]⟩ := by
    with_unfolding_all rfl
  have hlines := (openBytes_lines hlegible hmarkers rfl hopen 3).2
  have hoffset : (Cursor.afterCalls
      ⟨false, false, false, false, [0x2F, 0x2F], [0x2F, 0x2A], [0x2A, 0x2F]⟩
      (.start [0x61, 0x0D, 0x0A, 0x22, 0xE2, 0x80, 0xA8, 0x22, 0x62]) 4).token.offset = 8 := by
    decide +kernel
  dsimp only at hlines
  rw [hoffset] at hlines
  refine ⟨_, hopen, hoffset, hlines, hlines.trans ?_⟩
  decide +kernel

end TextUnits.Lexer
