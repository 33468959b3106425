import TextUnits.Proofs.Scan.CodePoints
import TextUnits.Proofs.Transcode.Reconversion

/-!
# Lines cut off one after another

Line ends are counted by looking for the first one, going on behind it, and stopping where the line
and the next one have the same offset. Every round before the last takes bytes off the front, so on
all bytes the rounds come to an end, and the pieces that they cut off can be told. On well-formed
text without zeros these are its lines, each with the one line break behind it, and a last line. Two
texts have as many line ends together as one behind the other, but for a CR LF across the place
where they meet: it counts once in the whole and twice in the parts.
-/

namespace TextUnits.Scan

open Encoding

/-- The rounds of the count: how many line ends it has passed, the bytes behind them, and the number
that it ends with. -/
inductive Counts : Nat → List UInt8 → Nat → Prop where
  /-- The offsets are equal, so that no line end was found. -/
  | ends {count : Nat} {rest : List UInt8} (h : (lineEnd rest).next = (lineEnd rest).line) :
      Counts count rest count
  /-- A line end was found, and the next round starts behind it. -/
  | goesOn {count total : Nat} {rest : List UInt8} (h : (lineEnd rest).next ≠ (lineEnd rest).line)
      (later : Counts (count + 1) (rest.drop (lineEnd rest).next) total) : Counts count rest total

/-- A line and the line break behind it. -/
structure Line where
  /-- Bytes of the line. -/
  text : List UInt8
  /-- Bytes of the line break. -/
  ending : List UInt8

/-- The line at the front of bytes and what lies between it and the next one. -/
def Line.front (bytes : List UInt8) : Line :=
  ⟨bytes.take (lineEnd bytes).line,
    (bytes.drop (lineEnd bytes).line).take ((lineEnd bytes).next - (lineEnd bytes).line)⟩

/-- Lines that are cut off the front of bytes with their line ends, until no line end is found, and
the line that is found then. -/
inductive CutsInto : List UInt8 → List Line → List UInt8 → Prop where
  /-- No line end is found. -/
  | last {bytes : List UInt8} (h : (lineEnd bytes).next = (lineEnd bytes).line) :
      CutsInto bytes [] (bytes.take (lineEnd bytes).line)
  /-- A line end is found, and the bytes behind it are cut. -/
  | first {bytes last : List UInt8} {lines : List Line}
      (h : (lineEnd bytes).next ≠ (lineEnd bytes).line)
      (later : CutsInto (bytes.drop (lineEnd bytes).next) lines last) :
      CutsInto bytes (Line.front bytes :: lines) last

/-- Lines with their line breaks, and a last line behind them. -/
def joined (lines : List Line) (last : List UInt8) : List UInt8 :=
  lines.flatMap (fun line => line.text ++ line.ending) ++ last

/-- Bytes of a text without line breaks. -/
def BreakFree (bytes : List UInt8) : Prop :=
  ∃ codes, bytes = utf8.encodeAll codes ∧ Legible codes ∧ ∀ code ∈ codes, code ∉ breakCodes

/-- Bytes of one line break. -/
def IsBreak (bytes : List UInt8) : Prop :=
  bytes = [0x0D, 0x0A] ∨ ∃ code ∈ breakCodes, bytes = utf8.encode code

/-- Bytes in lines: each line but the last has one line break behind it. -/
structure Lined (bytes : List UInt8) (lines : List Line) (last : List UInt8) : Prop where
  /-- The pieces in a row are the bytes. -/
  whole : joined lines last = bytes
  /-- No line holds a line break. -/
  text : ∀ line ∈ lines, BreakFree line.text
  /-- Behind a line stands a single line break. -/
  ending : ∀ line ∈ lines, IsBreak line.ending
  /-- The last line holds no line break either. -/
  lastLine : BreakFree last
  /-- No CR LF is divided: where a line ends with CR, what follows does not start with LF. -/
  undivided : ∀ front line back, lines = front ++ line :: back → line.ending = [0x0D] →
    (joined back last).head? ≠ some 0x0A

variable {bytes rest text ending last : List UInt8} {lines : List Line} {count total : Nat}
  {codes before later : List Nat} {code : Nat}

/-- A round that finds a line end leaves fewer bytes. -/
theorem length_drop_next (h : (lineEnd bytes).next ≠ (lineEnd bytes).line) :
    (bytes.drop (lineEnd bytes).next).length < bytes.length := by
  have hle := lineEnd_le bytes
  rw [List.length_drop]
  omega

/-- All bytes can be cut to the end. -/
theorem exists_cutsInto (bytes : List UInt8) : ∃ lines last, CutsInto bytes lines last := by
  induction hn : bytes.length using Nat.strongRecOn generalizing bytes with
  | ind n ih =>
    by_cases hend : (lineEnd bytes).next = (lineEnd bytes).line
    · exact ⟨[], _, .last hend⟩
    · obtain ⟨lines, last, hcuts⟩ := ih _ (hn ▸ length_drop_next hend) _ rfl
      exact ⟨_, last, .first hend hcuts⟩

/-- Bytes are cut in one way only. -/
theorem CutsInto.unique {others : List Line} (h : CutsInto bytes lines last)
    (ho : CutsInto bytes others rest) : others = lines ∧ rest = last := by
  induction h generalizing others with
  | last hend =>
    cases ho with
    | last => exact ⟨rfl, rfl⟩
    | first hother => exact absurd hend hother
  | first hend _ ih =>
    cases ho with
    | last hother => exact absurd hother hend
    | first _ hlater =>
      obtain ⟨rfl, rfl⟩ := ih hlater
      exact ⟨rfl, rfl⟩

/-- The count goes on by one with every line that is cut off. -/
theorem CutsInto.counts (h : CutsInto bytes lines last) (count : Nat) :
    Counts count bytes (count + lines.length) := by
  induction h generalizing count with
  | last hend => exact .ends hend
  | first hend _ ih =>
    refine .goesOn hend ?_
    rw [List.length_cons, ← Nat.add_assoc, Nat.add_right_comm]
    exact ih (count + 1)

/-- The count ends with the line ends that it had passed and those in front of it. -/
theorem Counts.eq (h : Counts count bytes total) : total = count + lineCount bytes := by
  induction h with
  | @ends _ rest hend => rw [lineCount_eq rest, if_pos hend, Nat.add_zero]
  | @goesOn _ _ rest hend _ ih => rw [ih, lineCount_eq rest, if_neg hend, Nat.add_assoc]

/-- As many lines are cut off as there are line ends. -/
theorem CutsInto.length_eq (h : CutsInto bytes lines last) : lines.length = lineCount bytes := by
  have hcount := (h.counts 0).eq
  rwa [Nat.zero_add, Nat.zero_add] at hcount

/-- The count comes to an end on all bytes, with the number of line ends. -/
theorem counts_iff : Counts 0 bytes total ↔ total = lineCount bytes := by
  constructor
  · intro h
    rw [h.eq, Nat.zero_add]
  · rintro rfl
    obtain ⟨lines, last, hcuts⟩ := exists_cutsInto bytes
    have hcounts := hcuts.counts 0
    rwa [Nat.zero_add, hcuts.length_eq] at hcounts

/-- Bytes without line breaks are a last line alone. -/
theorem lined_nil (h : BreakFree bytes) : Lined bytes [] bytes where
  whole := rfl
  text := List.forall_mem_nil _
  ending := List.forall_mem_nil _
  lastLine := h
  undivided front line back hsplit := by
    cases front <;> cases hsplit

/-- A line with its line break stands in front of other lines. -/
theorem Lined.cons (h : Lined rest lines last) (htext : BreakFree text) (hending : IsBreak ending)
    (hpair : ending = [0x0D] → rest.head? ≠ some 0x0A) :
    Lined (text ++ (ending ++ rest)) (⟨text, ending⟩ :: lines) last where
  whole := by
    rw [← h.whole, joined, joined, List.flatMap_cons, List.append_assoc, List.append_assoc]
  text := List.forall_mem_cons.mpr ⟨htext, h.text⟩
  ending := List.forall_mem_cons.mpr ⟨hending, h.ending⟩
  lastLine := h.lastLine
  undivided front other back hsplit := by
    cases front with
    | nil =>
      obtain ⟨rfl, rfl⟩ := List.cons.inj hsplit
      rw [h.whole]
      exact hpair
    | cons first front => exact h.undivided front other back (List.cons.inj hsplit).2

theorem IsBreak.length_pos (h : IsBreak bytes) : 0 < bytes.length := by
  rcases h with rfl | ⟨code, -, rfl⟩
  · decide
  · rw [length_encode]
    exact utf8.width_pos code

/-- The line break at the front of a text is a single one, and no half of a CR LF. -/
theorem exists_behind_frontBreak (h : Legible (code :: codes)) (hb : code ∈ breakCodes) :
    ∃ later, code :: codes = frontBreak (code :: codes) ++ later ∧
      IsBreak (utf8.encodeAll (frontBreak (code :: codes))) ∧
      (utf8.encodeAll (frontBreak (code :: codes)) = [0x0D] →
        (utf8.encodeAll later).head? ≠ some 0x0A) := by
  by_cases hpair : code = 0x0D ∧ codes.head? = some 0x0A
  · obtain ⟨rfl, hhead⟩ := hpair
    obtain ⟨tail, rfl⟩ := List.head?_eq_some_iff.mp hhead
    refine ⟨tail, rfl, .inl rfl, fun hcr => ?_⟩
    have hlength : 2 = 1 := congrArg List.length hcr
    cases hlength
  · rw [frontBreak_of_mem hb hpair]
    refine ⟨codes, rfl, .inr ⟨code, hb, List.append_nil _⟩, fun hcr hlf => hpair ⟨?_, ?_⟩⟩
    · have hsingle : ∀ c ∈ [code], Scalar.isScalar c = true :=
        List.forall_mem_singleton.mpr (h code List.mem_cons_self).1
      have hfirst := (head?_encodeAll hsingle (b := 0x0D) (by decide)).mp (by rw [hcr]; rfl)
      exact Option.some.inj hfirst
    · exact (head?_encodeAll h.tail.isScalar (by decide)).mp hlf

/-- Either a text has no line break, or it has a first one with a line in front of it. -/
theorem lineEnd_cases (h : Legible codes) :
    ((∀ code ∈ codes, code ∉ breakCodes) ∧ lineEnd (utf8.encodeAll codes) =
        ⟨(utf8.encodeAll codes).length, (utf8.encodeAll codes).length⟩) ∨
      ∃ line mark behind, codes = line ++ (mark ++ behind) ∧
        (∀ code ∈ line, code ∉ breakCodes) ∧ IsBreak (utf8.encodeAll mark) ∧
        (utf8.encodeAll mark = [0x0D] → (utf8.encodeAll behind).head? ≠ some 0x0A) ∧
        lineEnd (utf8.encodeAll codes) = ⟨(utf8.encodeAll line).length,
          (utf8.encodeAll line).length + (utf8.encodeAll mark).length⟩ := by
  have hline := line_codes h.isScalar
  have hnext := next_codes h.isScalar
  have hplain : ∀ code ∈ codes.takeWhile (· ∉ finalCodes), code ∉ breakCodes := by
    intro code hc hbreak
    have hpass := List.mem_takeWhile_imp (p := fun code => decide (code ∉ finalCodes)) hc
    exact of_decide_eq_true hpass (List.mem_cons_of_mem 0 hbreak)
  have hparts := List.takeWhile_append_dropWhile (p := (· ∉ finalCodes)) (l := codes)
  have hstop := List.head?_dropWhile_not (· ∉ finalCodes) codes
  rw [hline] at hnext
  cases hbehind : codes.dropWhile (· ∉ finalCodes) with
  | nil =>
    rw [hbehind, List.append_nil] at hparts
    rw [hbehind] at hnext
    rw [hparts] at hline hnext hplain
    exact .inl ⟨hplain, congrArg₂ LineEnd.mk hline hnext⟩
  | cons code tail =>
    rw [hbehind] at hparts hnext hstop
    have hrest : Legible (code :: tail) := by
      rw [← hparts] at h
      exact h.of_append.2
    have hbreak : code ∈ breakCodes := by
      have hfinal : code ∈ finalCodes := by simpa using hstop
      exact (List.mem_cons.mp hfinal).resolve_left (hrest code List.mem_cons_self).2
    obtain ⟨later, hlater, hmark, hpair⟩ := exists_behind_frontBreak hrest hbreak
    refine .inr ⟨_, _, later, ?_, hplain, hmark, hpair, congrArg₂ LineEnd.mk hline hnext⟩
    rw [← hlater, hparts]

/-- What is cut off, and what is left, where the offsets are those of a line and its line break. -/
theorem Line.front_append
    (h : lineEnd (text ++ (ending ++ rest)) = ⟨text.length, text.length + ending.length⟩) :
    Line.front (text ++ (ending ++ rest)) = ⟨text, ending⟩ ∧
      (text ++ (ending ++ rest)).drop (lineEnd (text ++ (ending ++ rest))).next = rest := by
  rw [Line.front, h]
  dsimp only
  rw [Nat.add_sub_cancel_left, ← List.drop_drop, List.drop_left, List.drop_left, List.take_left,
    List.take_left]
  exact ⟨rfl, rfl⟩

/-- A text is cut into its lines. -/
theorem CutsInto.lined (h : CutsInto bytes lines last) (hl : Legible codes)
    (hbytes : bytes = utf8.encodeAll codes) : Lined bytes lines last := by
  induction h generalizing codes with
  | last hend =>
    subst hbytes
    rcases lineEnd_cases hl with ⟨hplain, hfound⟩ | ⟨line, mark, behind, -, -, hmark, -, hfound⟩
    · rw [hfound]
      dsimp only
      rw [List.take_length]
      exact lined_nil ⟨codes, rfl, hl, hplain⟩
    · have hpos := hmark.length_pos
      rw [hfound] at hend
      dsimp only at hend
      omega
  | first hend _ ih =>
    subst hbytes
    rcases lineEnd_cases hl with
      ⟨-, hfound⟩ | ⟨line, mark, behind, rfl, hplain, hmark, hpair, hfound⟩
    · rw [hfound] at hend
      exact absurd rfl hend
    · rw [encodeAll_append, encodeAll_append] at hfound ih ⊢
      obtain ⟨hfront, hrest⟩ := Line.front_append hfound
      rw [hrest] at ih
      rw [hfront]
      obtain ⟨hline, hbehind⟩ := hl.of_append
      exact (ih hbehind.of_append.2 rfl).cons ⟨line, rfl, hline, hplain⟩ hmark hpair

/-- The line ends of two texts in a row: as many as the texts have, less one for a CR LF across
them. -/
theorem lineCount_append (hb : Legible before) (hl : Legible later) :
    lineCount (utf8.encodeAll before ++ utf8.encodeAll later) +
        (if before.getLast? = some 0x0D ∧ later.head? = some 0x0A then 1 else 0) =
      lineCount (utf8.encodeAll before) + lineCount (utf8.encodeAll later) := by
  have hboth : Legible (before ++ later) :=
    fun code hc => (List.mem_append.mp hc).elim (hb code) (hl code)
  rw [← encodeAll_append, lineCount_encodeAll hboth, lineCount_encodeAll hb, lineCount_encodeAll hl]
  split_ifs with hpair
  · exact lineBreaks_append_of_pair hpair.1 hpair.2
  · exact lineBreaks_append fun hlast hhead => hpair ⟨hlast, hhead⟩

/-- Well-formed UTF-8 without zero bytes encodes scalar values none of which is zero. -/
theorem exists_legible (h : utf8.WellFormed .host bytes) (hz : 0 ∉ bytes) :
    ∃ codes, Legible codes ∧ bytes = utf8.encodeAll codes := by
  obtain ⟨codes, hc, rfl⟩ := h
  rw [map_reorder_utf8] at hz ⊢
  refine ⟨codes, fun code hm => ⟨hc code hm, ?_⟩, rfl⟩
  rintro rfl
  exact hz (List.mem_flatMap.mpr ⟨0, hm, by decide⟩)

/-- On well-formed UTF-8 without zero bytes the count of line ends comes to an end with one number,
which adds up over two texts but for a CR LF across them, and cutting at the line ends comes to an
end with one sequence of pieces: the lines of the text, as many with a line break behind them as
there are line ends. -/
theorem lineCount_lines (a b : List UInt8) (ha : utf8.WellFormed .host a)
    (hb : utf8.WellFormed .host b) (hza : 0 ∉ a) (hzb : 0 ∉ b) :
    (∀ total, Counts 0 a total ↔ total = lineCount a) ∧
      lineCount (a ++ b) + (if a.getLast? = some 0x0D ∧ b.head? = some 0x0A then 1 else 0) =
        lineCount a + lineCount b ∧
      ∃ lines last, (∀ others rest, CutsInto a others rest ↔ others = lines ∧ rest = last) ∧
        Lined a lines last ∧ lines.length = lineCount a := by
  obtain ⟨before, hbefore, rfl⟩ := exists_legible ha hza
  obtain ⟨later, hlater, rfl⟩ := exists_legible hb hzb
  refine ⟨fun total => counts_iff, ?_, ?_⟩
  · rw [← lineCount_append hbefore hlater]
    simp only [getLast?_encodeAll hbefore.isScalar (b := 0x0D) (by decide),
      head?_encodeAll hlater.isScalar (b := 0x0A) (by decide)]
    rfl
  · obtain ⟨lines, last, hcuts⟩ := exists_cutsInto (utf8.encodeAll before)
    refine ⟨lines, last, fun others rest => ⟨hcuts.unique, ?_⟩, hcuts.lined hbefore rfl,
      hcuts.length_eq⟩
    rintro ⟨rfl, rfl⟩
    exact hcuts

/-- A CR behind `é`, and a text that starts with LF and ends with a line separator: three line ends
in the parts and two in the whole. -/
theorem lineCount_lines_pair :
    let a : List UInt8 := [0xC3, 0xA9, 0x0D]
    let b : List UInt8 := [0x0A, 0x78, 0xE2, 0x80, 0xA8]
    utf8.WellFormed .host a ∧ utf8.WellFormed .host b ∧ 0 ∉ a ∧ 0 ∉ b ∧ Counts 0 a 1 ∧
      lineCount a = 1 ∧ lineCount b = 2 ∧ lineCount (a ++ b) = 2 ∧
      ∃ lines last, Lined a lines last ∧ lines.length = 1 := by
  intro a b
  have ha : utf8.WellFormed .host a := ⟨[0xE9, 0x0D], by decide, rfl⟩
  have hb : utf8.WellFormed .host b := ⟨[0x0A, 0x78, 0x2028], by decide, rfl⟩
  have hza : 0 ∉ a := by decide
  have hzb : 0 ∉ b := by decide
  have hfirst : lineCount a = 1 :=
    lineCount_encodeAll (show Legible [0xE9, 0x0D] by decide)
  have hsecond : lineCount b = 2 :=
    lineCount_encodeAll (show Legible [0x0A, 0x78, 0x2028] by decide)
  obtain ⟨hcounts, hsum, lines, last, -, hlined, hlength⟩ := lineCount_lines a b ha hb hza hzb
  have hacross : a.getLast? = some 0x0D ∧ b.head? = some 0x0A := ⟨rfl, rfl⟩
  rw [if_pos hacross, hfirst, hsecond] at hsum
  rw [hfirst] at hlength
  exact ⟨ha, hb, hza, hzb, (hcounts 1).mpr hfirst.symm, hfirst, hsecond, Nat.add_right_cancel hsum,
    lines, last, hlined, hlength⟩

end TextUnits.Scan
