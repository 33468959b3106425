import TextUnits.Lexer.Comments
import TextUnits.Proofs.Lexer.Extent
import TextUnits.Proofs.Lexer.Loops
import TextUnits.Proofs.Lexer.Markers

/-!
# When a lexer moves on

Reading on comes to an end on every source exactly when no comment can be without bytes. Where
one can, some byte starts a comment without bytes, and calls stand still there: a call that
passes over comments never ends, and one that keeps them gives that comment again and again.
Since markers are checked before they are encoded, settings with a lone byte order mark as a
marker are accepted and can lead there. The main statement says which ones.
-/

namespace TextUnits.Lexer

variable {o : Options} {c : Cursor}

/-- The same options with comments passed over. -/
def Options.passingComments (o : Options) : Options := { o with skipComments := true }

/-- The same options with no token passed over. -/
def Options.keepingAll (o : Options) : Options :=
  { o with
    skipWhitespace := false
    skipNewlines := false
    skipComments := false }

namespace Cursor

/-- A token in front of the end takes bytes where no comment is without any. -/
theorem rest_step_lt (hm : o.Moves) (hr : c.rest ≠ []) :
    (c.step o).rest.length < c.rest.length := by
  obtain ⟨hpos, hle⟩ := scan_within o hr
  have hsize := hpos hm
  rw [step_of_scan hr, take, List.length_drop]
  omega

/-- A token that is passed over stands in front of the end. -/
theorem rest_ne_nil_of_skip (hv : verdict o c.rest.isEmpty (c.step o).token = none) :
    c.rest ≠ [] := by
  intro hr
  rw [hr] at hv
  cases hv

/-- A call in front of the end takes bytes where no comment is without any. -/
theorem rest_next_lt (hm : o.Moves) (hr : c.rest ≠ []) :
    (c.next o).cursor.rest.length < c.rest.length := by
  have hlt := rest_step_lt hm hr
  cases hv : verdict o c.rest.isEmpty (c.step o).token with
  | some status =>
    rw [next_of_verdict hv]
    exact hlt
  | none =>
    rw [next_of_skip hv hlt]
    exact Nat.lt_of_le_of_lt rest_next_le hlt

/-- Every call ends by itself where no comment is without bytes. -/
theorem exists_returns (hm : o.Moves) (c : Cursor) : ∃ a, c.Returns o a := by
  induction hn : c.rest.length using Nat.strongRecOn generalizing c with
  | ind n ih =>
    cases hv : verdict o c.rest.isEmpty (c.step o).token with
    | some status => exact ⟨_, .ends c status hv⟩
    | none =>
      have hlt := rest_step_lt hm (rest_ne_nil_of_skip hv)
      obtain ⟨later, hl⟩ := ih _ (hn ▸ hlt) (c.step o) rfl
      exact ⟨_, .skips c later hv hl⟩

/-- Calls come to an end on every source where no comment is without bytes. -/
theorem exists_completes_of_moves (hm : o.Moves) (c : Cursor) :
    ∃ steps, c.Completes o steps := by
  induction hn : c.rest.length using Nat.strongRecOn generalizing c with
  | ind n ih =>
    obtain ⟨a, ha⟩ := exists_returns hm c
    by_cases hs : a.status = .success
    · have hnext := (next_of_returns ha).1
      have hr : c.rest ≠ [] := by
        intro hr
        have hv : verdict o c.rest.isEmpty (c.step o).token = some .endOfInput := by
          rw [hr]
          rfl
        rw [← hnext, next_of_verdict hv] at hs
        cases hs
      have hlt := rest_next_lt hm hr
      rw [hnext] at hlt
      obtain ⟨later, hl⟩ := ih _ (hn ▸ hlt) a.cursor rfl
      exact ⟨_, .more c a later ha hs hl⟩
    · exact ⟨_, .last c a ha hs⟩

end Cursor

/-- Bytes at whose front a comment without bytes stands. -/
def Options.StandsStill (o : Options) (bytes : List UInt8) : Prop :=
  bytes ≠ [] ∧ scan o bytes = (.named .comment, 0)

/-- A zero byte is no layout. -/
theorem layout?_zero : layout? [0x00] = none := by
  rw [layout?, Scan.leading_of_stop (Or.inl rfl)]
  rfl

/-- A letter is no layout. -/
theorem layout?_letter {b : UInt8} (hn : Scan.next? [b] = some (b.toNat, 1, []))
    (hb : Scalar.isBlank b.toNat = false) (hz : [b].head? ≠ some 0) : layout? [b] = none := by
  rw [layout?, Scan.leading_of_next? hz hn, hb]
  rfl

/-- An opener of line comments without bytes opens one in front of a zero byte, which ends the
line at once. -/
theorem standsStill_of_lineOpener (h : o.lineOpener = []) : o.StandsStill [0x00] := by
  refine ⟨List.cons_ne_nil _ _, ?_⟩
  have hline : lineComment? o [0x00] = some ⟨.comment, 0⟩ := by
    rw [lineComment?, h, Sequence.after?, Option.map_some, Scan.lineEnd_of_stop (Or.inl rfl)]
    rfl
  rw [scan, scanNamed?, layout?_zero, hline]
  rfl

/-- Markers of block comments without bytes open and close one in front of a letter that starts
no line comment. -/
theorem standsStill_of_blockMarkers {b : UInt8} (hl : layout? [b] = none)
    (hline : Sequence.after? o.lineOpener [b] = none) (ho : o.blockOpener = [])
    (hc : o.blockCloser = []) : o.StandsStill [b] := by
  refine ⟨List.cons_ne_nil _ _, ?_⟩
  have hblock : blockComment? o [b] = some ⟨.comment, 0⟩ := by
    rw [blockComment?, ho, hc, Sequence.after?, Option.map_some]
    rfl
  rw [scan, scanNamed?, hl, lineComment?, hline, hblock]
  rfl

/-- Where a comment can be without bytes there are bytes at whose front one stands. -/
theorem exists_standsStill (h : ¬ o.Moves) : ∃ bytes, o.StandsStill bytes := by
  by_cases hl : o.lineOpener = []
  · exact ⟨_, standsStill_of_lineOpener hl⟩
  · have hblock : o.blockOpener = [] ∧ o.blockCloser = [] := by
      unfold Options.Moves at h
      simp only [not_and_or, not_or, Classical.not_not] at h
      rcases h with h | h
      · exact absurd h hl
      · exact h
    have hletter : ∀ b, Scan.next? [b] = some (b.toNat, 1, []) →
        Scalar.isBlank b.toNat = false → [b].head? ≠ some 0 →
        Sequence.after? o.lineOpener [b] = none → ∃ bytes, o.StandsStill bytes :=
      fun b hn hb hz ha => ⟨_, standsStill_of_blockMarkers (layout?_letter hn hb hz) ha
        hblock.1 hblock.2⟩
    cases hopener : o.lineOpener with
    | nil => exact absurd hopener hl
    | cons first more =>
      by_cases hfirst : first = 0x61
      · apply hletter 0x62 rfl rfl (by decide)
        rw [hopener, Sequence.after?, if_neg (by rw [hfirst]; decide)]
      · apply hletter 0x61 rfl rfl (by decide)
        rw [hopener, Sequence.after?, if_neg hfirst]

namespace Options.StandsStill

variable {bytes : List UInt8}

/-- A comment without bytes leaves the bytes as they are. -/
theorem rest_step (h : o.StandsStill c.rest) : (c.step o).rest = c.rest := by
  rw [Cursor.step_of_scan h.1, h.2]
  rfl

/-- A comment without bytes is passed over or ends a call, as comments are. -/
theorem verdict_eq (h : o.StandsStill c.rest) :
    Cursor.verdict o c.rest.isEmpty (c.step o).token =
      if o.skipComments then none else some .success := by
  have hempty : c.rest.isEmpty = false := by
    rw [List.isEmpty_eq_false_iff]
    exact h.1
  rw [hempty, Cursor.step_of_scan h.1, h.2]
  rfl

/-- A call at a comment without bytes takes none. -/
theorem not_rest_next_lt (h : o.StandsStill c.rest) :
    ¬ (c.next o).cursor.rest.length < c.rest.length := by
  have hrest := h.rest_step
  have hv := h.verdict_eq
  split_ifs at hv with hs
  · rw [Cursor.next_of_stall hv (by rw [hrest]; exact Nat.lt_irrefl _), hrest]
    exact Nat.lt_irrefl _
  · rw [Cursor.next_of_verdict hv, hrest]
    exact Nat.lt_irrefl _

/-- A call that passes over comments never ends at a comment without bytes. -/
theorem not_returns (h : o.StandsStill c.rest) (hs : o.skipComments = true) (a : Advance) :
    ¬ c.Returns o a := by
  intro ha
  have hv := h.verdict_eq
  rw [if_pos hs] at hv
  exact Cursor.not_returns_of_stall ha hv h.rest_step

/-- Calls never come to an end from a comment without bytes, whether comments are passed over or
kept. -/
theorem not_completes (h : o.StandsStill c.rest) (steps : List Advance) :
    ¬ c.Completes o steps := by
  intro hc
  by_cases hs : o.skipComments = true
  · cases hc with
    | last _ a ha _ => exact h.not_returns hs a ha
    | more _ a _ ha _ _ => exact h.not_returns hs a ha
  · have hv := h.verdict_eq
    rw [if_neg hs] at hv
    exact Cursor.not_completes_of_standstill hc hv h.rest_step

end Options.StandsStill

/-- Every call in front of the end takes bytes exactly when no comment is without any. -/
theorem Options.moves_iff_next (o : Options) :
    o.Moves ↔ ∀ c : Cursor, c.rest ≠ [] → (c.next o).cursor.rest.length < c.rest.length := by
  constructor
  · exact fun hm c hr => Cursor.rest_next_lt hm hr
  · intro h
    by_contra hm
    obtain ⟨bytes, hb⟩ := exists_standsStill hm
    exact hb.not_rest_next_lt (c := .start bytes) (h (.start bytes) hb.1)

/-- Every call that passes over comments ends by itself exactly when no comment is without
bytes. -/
theorem Options.moves_iff_returns (hs : o.skipComments = true) :
    o.Moves ↔ ∀ c : Cursor, ∃ a, c.Returns o a := by
  constructor
  · exact fun hm c => Cursor.exists_returns hm c
  · intro h
    by_contra hm
    obtain ⟨bytes, hb⟩ := exists_standsStill hm
    obtain ⟨a, ha⟩ := h (.start bytes)
    exact hb.not_returns (c := .start bytes) hs a ha

/-- Calls come to an end on every source exactly when no comment is without bytes. -/
theorem Options.moves_iff_completes (o : Options) :
    o.Moves ↔ ∀ bytes, ∃ steps, (Cursor.start bytes).Completes o steps := by
  constructor
  · exact fun hm bytes => Cursor.exists_completes_of_moves hm (.start bytes)
  · intro h
    by_contra hm
    obtain ⟨bytes, hb⟩ := exists_standsStill hm
    obtain ⟨steps, hc⟩ := h bytes
    exact hb.not_completes (c := .start bytes) steps hc

namespace Settings

/-- Settings under which no comment is without bytes: the opener of line comments is no lone mark,
and the markers of block comments are not both one. -/
def Steady (s : Settings) : Prop :=
  ¬ (s.lineOpener.getD defaultLineOpener).IsLoneMark ∧
    ¬ ((s.blockOpener.getD defaultBlockOpener).IsLoneMark ∧
      (s.blockCloser.getD defaultBlockCloser).IsLoneMark)

/-- Settings that keep all tokens resolve to options that do. -/
theorem resolve_keepingAll {s : Settings} (h : s.resolve = .ok o) :
    s.keepingAll.resolve = .ok o.keepingAll := by
  obtain ⟨hl, ho, hc⟩ := resolve_markers h
  have hdashes : o.allowDashes = s.allowDashes.getD false := by
    unfold resolve at h
    rw [hl, ho, hc] at h
    exact (congrArg Options.allowDashes (Except.ok.inj h)).symm
  unfold resolve keepingAll
  dsimp only
  rw [hl, ho, hc, ← hdashes]
  rfl

/-- No comment is without bytes under resolved options exactly when the settings are steady. -/
theorem moves_iff_steady {s : Settings} (h : s.resolve = .ok o) : o.Moves ↔ s.Steady := by
  obtain ⟨hl, ho, hc⟩ := resolve_markers h
  unfold Options.Moves Steady
  rw [← marker_eq_nil_iff hl, ← marker_eq_nil_iff ho, ← marker_eq_nil_iff hc, not_and_or]

/-- For settings that are accepted, a marker has bytes exactly when its text is no lone mark. Calls
in front of the end take bytes, calls that pass over comments end by themselves, and the tokens of
every source can be collected, also to strip its comments, exactly when the settings are steady. -/
theorem resolve_progress {s : Settings} (h : s.resolve = .ok o) :
    ((o.lineOpener ≠ [] ↔ ¬ (s.lineOpener.getD defaultLineOpener).IsLoneMark) ∧
      (o.blockOpener ≠ [] ↔ ¬ (s.blockOpener.getD defaultBlockOpener).IsLoneMark) ∧
      (o.blockCloser ≠ [] ↔ ¬ (s.blockCloser.getD defaultBlockCloser).IsLoneMark)) ∧
    (s.Steady ↔
      ∀ c : Cursor, c.rest ≠ [] → (c.next o).cursor.rest.length < c.rest.length) ∧
    (s.Steady ↔ ∀ c : Cursor, ∃ a, c.Returns o.passingComments a) ∧
    (s.Steady ↔ ∀ bytes, ∃ steps, (Cursor.start bytes).Completes o steps) ∧
    (s.Steady ↔ s.keepingAll.resolve = .ok o.keepingAll ∧
      ∀ bytes, ∃ steps, (Cursor.start bytes).Completes o.keepingAll steps) := by
  obtain ⟨hl, ho, hc⟩ := resolve_markers h
  rw [← moves_iff_steady h, and_iff_right (resolve_keepingAll h)]
  refine ⟨⟨?_, ?_, ?_⟩, o.moves_iff_next, ?_, o.moves_iff_completes, ?_⟩
  · exact not_congr (marker_eq_nil_iff hl)
  · exact not_congr (marker_eq_nil_iff ho)
  · exact not_congr (marker_eq_nil_iff hc)
  · exact o.passingComments.moves_iff_returns rfl
  · exact o.keepingAll.moves_iff_completes

/-- The default settings are accepted and steady, so under them every call in front of the end
takes bytes. -/
theorem resolve_progress_default :
    ∃ o, Settings.default.resolve = .ok o ∧ Settings.default.Steady ∧
      ∀ c : Cursor, c.rest ≠ [] → (c.next o).cursor.rest.length < c.rest.length := by
  have hresolve : Settings.default.resolve =
      .ok ⟨false, false, false, false, [0x2F, 0x2F], [0x2F, 0x2A], [0x2A, 0x2F]⟩ := by
    with_unfolding_all rfl
  have hsteady : Settings.default.Steady := by
    unfold Steady Text.IsLoneMark
    decide
  exact ⟨_, hresolve, hsteady, (resolve_progress hresolve).2.1.mp hsteady⟩

/-- A lone mark as the opener of line comments is accepted and has no bytes. At a zero byte a call
then takes nothing, one that passes over comments does not end, and neither do calls that collect
tokens or strip comments. -/
theorem resolve_lone_mark :
    ∃ o, resolve { Settings.default with lineOpener := some [0xFEFF] } = .ok o ∧
      o.lineOpener = [] ∧
      ((Cursor.start [0x00]).next o).cursor.rest = [0x00] ∧
      (∀ a, ¬ (Cursor.start [0x00]).Returns o.passingComments a) ∧
      (∀ steps, ¬ (Cursor.start [0x00]).Completes o steps) ∧
      ∀ steps, ¬ (Cursor.start [0x00]).Completes o.keepingAll steps := by
  let o : Options := ⟨false, false, false, false, [], [0x2F, 0x2A], [0x2A, 0x2F]⟩
  have hresolve : resolve { Settings.default with lineOpener := some [0xFEFF] } = .ok o := by
    with_unfolding_all rfl
  have hstill : o.StandsStill (Cursor.start [0x00]).rest := standsStill_of_lineOpener rfl
  have hpassing : o.passingComments.StandsStill (Cursor.start [0x00]).rest :=
    standsStill_of_lineOpener rfl
  have hkeeping : o.keepingAll.StandsStill (Cursor.start [0x00]).rest :=
    standsStill_of_lineOpener rfl
  refine ⟨o, hresolve, rfl, ?_, hpassing.not_returns rfl, hstill.not_completes,
    hkeeping.not_completes⟩
  rw [Cursor.next_of_verdict hstill.verdict_eq]
  exact hstill.rest_step

end Settings

end TextUnits.Lexer
