import TextUnits.Proofs.Lexer.Extent
import TextUnits.Proofs.Lexer.Loops

/-!
# Tokens cover a source

A reader that passes over no tokens cuts its source into stretches, whatever the bytes are. The
tokens stand one behind the other from the start of the source, each takes at least one byte and
none reaches past the end. They cover the whole source, or its beginning up to a number that
breaks off, which is a token as well. At the end of the source every further call gives the same
empty token at the same place.
-/

namespace TextUnits.Lexer

/-- Options under which no token is passed over. -/
structure Options.KeepsAll (o : Options) : Prop where
  /-- White space is kept. -/
  whitespace : o.skipWhitespace = false
  /-- Line ends are kept. -/
  newlines : o.skipNewlines = false
  /-- Comments are kept. -/
  comments : o.skipComments = false

/-- A token that is a stretch of a source. -/
structure Token.Stretch (source : List UInt8) (t : Token) : Prop where
  /-- It is not empty. -/
  length_pos : 0 < t.length
  /-- It does not reach past the end. -/
  within : t.offset + t.length ≤ source.length
  /-- Its bytes are those of the source. -/
  bytes_eq : t.bytes = (source.drop t.offset).take t.length

/-- Calls whose tokens are stretches of a source, the first from a given place and each other one
from where the one before it ends, up to a given place. Each call moves its cursor behind its
token. -/
def Tiles (source : List UInt8) : Nat → List Advance → Nat → Prop
  | start, [], stop => start = stop
  | start, a :: later, stop =>
    a.cursor.token.offset = start ∧ a.cursor.token.Stretch source ∧
      a.cursor.offset = start + a.cursor.token.length ∧
      Tiles source a.cursor.offset later stop

/-- A run that reads all of a source. -/
structure ReadsAll (source : List UInt8) (steps : List Advance) (last : Advance) : Prop where
  /-- The last call finds the end of the source. -/
  status : last.status = .endOfInput
  /-- The tokens in front of it reach from the start of the source to its end. -/
  tiles : Tiles source 0 steps source.length
  /-- Their bytes are the source. -/
  read : steps.flatMap (·.cursor.token.bytes) = source
  /-- The cursor stands at the end. -/
  offset : last.cursor.offset = source.length
  /-- The last token is the end of the source. -/
  kind : last.cursor.token.isKind .eof = true
  /-- It is empty. -/
  length : last.cursor.token.length = 0

/-- A run that ends with a number that breaks off. -/
structure BreaksOff (source : List UInt8) (steps : List Advance) (last : Advance) : Prop where
  /-- The last call finds the number. -/
  status : last.status = .invalidArgument
  /-- The last token is that number. -/
  kind : last.cursor.token.isKind .error = true
  /-- The tokens with it reach from the start of the source to the cursor. -/
  tiles : Tiles source 0 (steps ++ [last]) last.cursor.offset
  /-- The cursor stands within the source. -/
  offset_le : last.cursor.offset ≤ source.length
  /-- Their bytes are the source in front of the cursor. -/
  read : (steps ++ [last]).flatMap (·.cursor.token.bytes) = source.take last.cursor.offset

/-- Tokens that stand one behind the other end within the source, not in front of where they
start, and their bytes are those of the source between the two places. -/
theorem Tiles.bytes_eq {source : List UInt8} {calls : List Advance} {start stop : Nat}
    (hs : start ≤ source.length) (h : Tiles source start calls stop) :
    start ≤ stop ∧ stop ≤ source.length ∧
      calls.flatMap (·.cursor.token.bytes) = (source.drop start).take (stop - start) := by
  induction calls generalizing start with
  | nil =>
    cases h
    refine ⟨Nat.le_refl _, hs, ?_⟩
    rw [Nat.sub_self, List.take_zero]
    rfl
  | cons a later ih =>
    obtain ⟨hoffset, ⟨hpos, hwithin, hbytes⟩, hcursor, hlater⟩ := h
    rw [hoffset] at hwithin hbytes
    obtain ⟨hle, hstop, hrest⟩ := ih (by omega) hlater
    refine ⟨by omega, hstop, ?_⟩
    have hsum : stop - start = a.cursor.token.length + (stop - a.cursor.offset) := by omega
    rw [List.flatMap_cons, hrest, hsum, List.take_add, List.drop_drop, ← hbytes, hcursor]

namespace Cursor

variable {o : Options} {c : Cursor} {source : List UInt8}

/-- A cursor that stands within a source, with the bytes behind it not read yet. -/
structure Stands (source : List UInt8) (c : Cursor) : Prop where
  /-- The bytes not read yet are those behind the place. -/
  rest_eq : c.rest = source.drop c.offset
  /-- The place lies within the source. -/
  offset_le : c.offset ≤ source.length

/-- The start of a source stands within it. -/
theorem start_stands (source : List UInt8) : (start source).Stands source :=
  ⟨rfl, Nat.zero_le _⟩

/-- The bytes not read yet are as many as the place leaves. -/
theorem Stands.length_rest (h : c.Stands source) : c.rest.length = source.length - c.offset := by
  rw [h.rest_eq, List.length_drop]

/-- A token that does not reach past the end leaves the cursor within the source. -/
theorem Stands.take (h : c.Stands source) (tag : Tag) {size : Nat} (hs : size ≤ c.rest.length) :
    (c.take tag size).Stands source := by
  have hlength := h.length_rest
  have hoffset := h.offset_le
  constructor
  · dsimp only [Cursor.take]
    rw [h.rest_eq, List.drop_drop]
  · dsimp only [Cursor.take]
    omega

/-- A token that does not reach past the end has as many bytes as it takes. -/
theorem length_take_token (tag : Tag) {size : Nat} (hs : size ≤ c.rest.length) :
    (c.take tag size).token.length = size := by
  dsimp only [Cursor.take, Token.length]
  rw [List.length_take, Nat.min_eq_left hs]

/-- A token that is not empty and does not reach past the end is a stretch of the source. -/
theorem Stands.stretch (h : c.Stands source) (tag : Tag) {size : Nat} (hpos : 0 < size)
    (hs : size ≤ c.rest.length) : (c.take tag size).token.Stretch source := by
  have hsize := length_take_token tag hs
  have hlength := h.length_rest
  have hoffset := h.offset_le
  constructor
  · rw [hsize]
    exact hpos
  · rw [hsize]
    dsimp only [Cursor.take]
    omega
  · rw [hsize]
    dsimp only [Cursor.take]
    rw [h.rest_eq]

/-- The token at a cursor in front of the end is a stretch of the source that starts at the
cursor, and it leaves the cursor behind it. -/
theorem Stands.step (hm : o.Moves) (hc : c.Stands source) (hr : c.rest ≠ []) :
    (c.step o).Stands source ∧ (c.step o).token.offset = c.offset ∧
      (c.step o).token.Stretch source ∧
      (c.step o).offset = c.offset + (c.step o).token.length := by
  obtain ⟨hpos, hle⟩ := scan_within o hr
  rw [step_of_scan hr, length_take_token _ hle]
  exact ⟨hc.take _ hle, rfl, hc.stretch _ (hpos hm) hle, rfl⟩

/-- At the end of a source a call gives the end. -/
theorem next_of_end (hr : c.rest = []) :
    c.next o = ⟨.endOfInput, c.take (.named .eof) 0, [(c.take (.named .eof) 0).token]⟩ := by
  have hv : verdict o c.rest.isEmpty (c.step o).token = some .endOfInput := by
    rw [hr]
    rfl
  rw [next_of_verdict hv, step_of_end hr]

/-- In front of the end a call that passes over no tokens reads the token at the cursor, which
breaks it off only if it is a number that breaks off. -/
theorem next_of_keepsAll (hk : o.KeepsAll) (hr : c.rest ≠ []) :
    ∃ status, c.next o = ⟨status, c.step o, [(c.step o).token]⟩ ∧
      (status = .success ∨ status = .invalidArgument ∧ (c.step o).token.isKind .error = true) := by
  have hskips : ∀ tag, o.skips tag = false := by
    intro tag
    unfold Options.skips
    split
    · exact hk.whitespace
    · exact hk.newlines
    · exact hk.comments
    · rfl
  have hempty : c.rest.isEmpty = false := by rwa [List.isEmpty_eq_false_iff]
  cases hkind : (c.step o).token.isKind .error with
  | true =>
    refine ⟨.invalidArgument, next_of_verdict ?_, Or.inr ⟨rfl, rfl⟩⟩
    rw [verdict, hempty, hkind]
    rfl
  | false =>
    refine ⟨.success, next_of_verdict ?_, Or.inl rfl⟩
    rw [verdict, hempty, hkind, hskips]
    rfl

/-- Calls that pass over no tokens come to an end on every source. All but the last read tokens
that adjoin from the cursor on, and the last one finds the end of the source behind them, or
reads a number that breaks off. -/
theorem exists_completes (hm : o.Moves) (hk : o.KeepsAll) (hc : c.Stands source) :
    ∃ steps last, c.Completes o (steps ++ [last]) ∧ (∀ a ∈ steps, a.status = .success) ∧
      ((last.status = .invalidArgument ∧ last.cursor.token.isKind .error = true ∧
          Tiles source c.offset (steps ++ [last]) last.cursor.offset) ∨
        (Tiles source c.offset steps source.length ∧
          ∃ d : Cursor, d.rest = [] ∧ d.Stands source ∧ last = d.next o)) := by
  induction hn : c.rest.length using Nat.strongRecOn generalizing c with
  | ind n ih =>
    by_cases hr : c.rest = []
    · have hnext := next_of_end (o := o) hr
      have hstatus : (c.next o).status = .endOfInput := by rw [hnext]
      have hlength := hc.length_rest
      have hoffset := hc.offset_le
      rw [hr, List.length_nil] at hlength
      refine ⟨[], c.next o, .last c _ (returns_of_next ?_) ?_, ?_, Or.inr ⟨?_, c, hr, hc, rfl⟩⟩
      · rw [hstatus]
        decide
      · rw [hstatus]
        decide
      · intro a ha
        exact absurd ha List.not_mem_nil
      · change c.offset = source.length
        omega
    · obtain ⟨status, hnext, hstatus⟩ := next_of_keepsAll hk hr
      obtain ⟨hstands, hplace, hstretch, hbehind⟩ := hc.step hm hr
      have hreturns : c.Returns o ⟨status, c.step o, [(c.step o).token]⟩ := by
        rw [← hnext]
        apply returns_of_next
        rw [hnext]
        rcases hstatus with rfl | ⟨rfl, -⟩ <;> exact Ending.noConfusion
      rcases hstatus with rfl | ⟨rfl, hkind⟩
      · have hshorter : (c.step o).rest.length < n := by
          have hpos := hstretch.length_pos
          have hoffset := hstands.offset_le
          rw [← hn, hc.length_rest, hstands.length_rest]
          omega
        obtain ⟨steps, last, hcompletes, hsuccess, hend⟩ := ih _ hshorter hstands rfl
        refine ⟨⟨.success, c.step o, [(c.step o).token]⟩ :: steps, last, ?_, ?_, ?_⟩
        · exact .more c _ _ hreturns rfl hcompletes
        · intro a ha
          rcases List.mem_cons.mp ha with rfl | ha
          · rfl
          · exact hsuccess a ha
        · rcases hend with ⟨hlast, hkind, htiles⟩ | ⟨htiles, hend⟩
          · exact Or.inl ⟨hlast, hkind, hplace, hstretch, hbehind, htiles⟩
          · exact Or.inr ⟨⟨hplace, hstretch, hbehind, htiles⟩, hend⟩
      · refine ⟨[], ⟨.invalidArgument, c.step o, [(c.step o).token]⟩, ?_, ?_, Or.inl ?_⟩
        · exact .last c _ hreturns Ending.noConfusion
        · intro a ha
          exact absurd ha List.not_mem_nil
        · exact ⟨rfl, hkind, hplace, hstretch, hbehind, rfl⟩

/-- At the end of a source a call gives itself again. -/
theorem next_next_of_end (hr : c.rest = []) : (c.next o).cursor.next o = c.next o := by
  have hrest : (c.take (.named .eof) 0).rest = [] := by
    rw [Cursor.take, hr]
    rfl
  rw [next_of_end hr, next_of_end hrest]
  dsimp only [Cursor.take]
  rw [hr]
  rfl

/-- A call that gives the end and itself again is given by each of a number of further runs. -/
theorem runs_of_fixed {a : Advance} (hs : a.status = .endOfInput) (hn : a.cursor.next o = a)
    (further : Nat) : a.cursor.runs o further = List.replicate (further + 1) a := by
  have hrun : a.cursor.run o = [a] := by
    rw [run_of_last, hn]
    rintro ⟨hsuccess, -⟩
    rw [hn, hs] at hsuccess
    cases hsuccess
  induction further with
  | zero => exact hrun
  | succ further ih =>
    rw [runs, hrun]
    change [a] ++ a.cursor.runs o further = _
    rw [ih]
    rfl

/-- Further runs behind a run that reads a source to its end give the end each time. -/
theorem runs_of_completes {steps : List Advance} {last : Advance}
    (h : c.Completes o (steps ++ [last])) (hs : last.status = .endOfInput)
    (hn : last.cursor.next o = last) (further : Nat) :
    c.runs o further = steps ++ List.replicate (further + 1) last := by
  have hrun := (run_of_completes h).1
  cases further with
  | zero => exact hrun
  | succ further =>
    have hafter : c.after (c.run o) = last.cursor := by
      rw [after, hrun, List.getLast?_concat]
      rfl
    rw [runs, hafter, hrun, runs_of_fixed hs hn further, List.append_assoc]
    rfl

/-- A token takes its bytes from the front of those not read yet, and the cursor moves behind
them. -/
theorem step_bytes (o : Options) (c : Cursor) :
    (c.step o).token.offset = c.offset ∧ (c.step o).token.bytes ++ (c.step o).rest = c.rest ∧
      (c.step o).offset = c.offset + (c.step o).token.bytes.length := by
  by_cases hr : c.rest = []
  · rw [step_of_end hr]
    exact ⟨rfl, List.take_append_drop 0 c.rest, rfl⟩
  · have hlength := length_take_token (scan o c.rest).1 (scan_within o hr).2
    rw [step_of_scan hr]
    refine ⟨rfl, List.take_append_drop _ c.rest, ?_⟩
    change c.offset + (scan o c.rest).2 = c.offset + (c.take _ _).token.length
    rw [hlength]

/-- Tokens that are read one after the other have the bytes from the one cursor to the other. -/
theorem Walks.bytes_eq {d : Cursor} {tokens : List Token} (h : c.Walks o tokens d) :
    tokens.flatMap (·.bytes) ++ d.rest = c.rest ∧
      d.offset = c.offset + (tokens.flatMap (·.bytes)).length := by
  induction tokens generalizing c with
  | nil =>
    cases h
    exact ⟨rfl, rfl⟩
  | cons t later ih =>
    obtain ⟨rfl, hlater⟩ := h
    obtain ⟨hbytes, hoffset⟩ := ih hlater
    obtain ⟨-, hparts, hbehind⟩ := step_bytes o c
    rw [List.flatMap_cons, List.append_assoc, hbytes, List.length_append, hoffset, hbehind]
    exact ⟨hparts, Nat.add_assoc _ _ _⟩

end Cursor

/-- What settings let a lexer read is a beginning of the source. -/
theorem Settings.readable_isPrefix {s : Settings} {source bytes : List UInt8}
    (h : s.readable source = .ok bytes) : bytes <+: source := by
  unfold Settings.readable at h
  split at h
  · rename_i kept hkept
    cases h
    unfold selectUnits at hkept
    split at hkept
    · cases hkept
      exact List.prefix_refl source
    · split at hkept
      · cases hkept
      · split_ifs at hkept
        · cases hkept
          exact List.takeWhile_prefix _
        · cases hkept
          exact List.take_prefix _ _
  · cases h

/-- A reader starts with the bytes that the settings let it read. -/
theorem opened_of_openBytes {source : List UInt8} {s : Settings} {r : Reader}
    (h : openBytes source s = .ok r) :
    ∃ bytes, s.readable source = .ok bytes ∧ r.cursor = .start bytes ∧
      s.resolve = .ok r.options := by
  unfold openBytes at h
  cases hb : s.readable source with
  | error fault =>
    rw [hb] at h
    cases h
  | ok bytes =>
    cases ho : s.resolve with
    | error fault =>
      rw [hb, ho] at h
      cases h
    | ok options =>
      rw [hb, ho] at h
      cases h
      exact ⟨bytes, rfl, rfl, rfl⟩

/-- Bytes that the settings let a reader read are what it starts with. -/
theorem openBytes_of_readable {source bytes : List UInt8} {s : Settings} {o : Options}
    (hb : s.readable source = .ok bytes) (ho : s.resolve = .ok o) :
    openBytes source s = .ok ⟨o, .start bytes⟩ := by
  unfold openBytes
  rw [hb, ho]
  rfl

/-- A token of a number of runs, with the tokens read in front of it and behind it: their bytes stand
in front of it and behind it in the source, and it is the end of the source, or what the scan finds
at its place. -/
theorem exists_of_runs_eq {source : List UInt8} {s : Settings} {r : Reader}
    (h : openBytes source s = .ok r) {further : Nat} {front later : List Token} {t : Token}
    (hreads : (r.cursor.runs r.options further).flatMap (·.read) = front ++ t :: later) :
    ∃ behind, r.cursor.rest = front.flatMap (·.bytes) ++ (t.bytes ++ behind) ∧
      t.offset = (front.flatMap (·.bytes)).length ∧ later.flatMap (·.bytes) <+: behind ∧
      (t.tag = .named .eof ∨
        t.bytes ++ behind ≠ [] ∧ scan r.options (t.bytes ++ behind) = (t.tag, t.bytes.length)) := by
  obtain ⟨bytes, -, hstart, -⟩ := opened_of_openBytes h
  obtain ⟨last, hwalks⟩ := Cursor.exists_runs_walks r.options r.cursor further
  rw [hreads] at hwalks
  obtain ⟨d, hfront, rfl, hlater⟩ := hwalks.exists_of_append
  obtain ⟨hbefore, hplace⟩ := hfront.bytes_eq
  obtain ⟨hoffset, hparts, -⟩ := Cursor.step_bytes r.options d
  refine ⟨(d.step r.options).rest, ?_, ?_, ⟨last.rest, hlater.bytes_eq.1⟩, ?_⟩
  · rw [hparts, hbefore]
  · rw [hoffset, hplace, hstart]
    exact Nat.zero_add _
  · rw [hparts]
    by_cases hr : d.rest = []
    · rw [Cursor.step_of_end hr]
      exact .inl rfl
    · have hlength := Cursor.length_take_token (scan r.options d.rest).1
        (scan_within r.options hr).2
      rw [Cursor.step_of_scan hr]
      exact .inr ⟨hr, Prod.ext rfl hlength.symm⟩

/-- A reader of bytes that passes over no tokens and whose comment markers all have bytes comes
to an end on every source. Its tokens cover the bytes that the settings let it read, and from
then on each further call gives the same end, or they cover a beginning of those bytes up to and
with a number that breaks off. -/
theorem openBytes_covers {source : List UInt8} {s : Settings} {r : Reader}
    (h : openBytes source s = .ok r) (hm : r.options.Marked) (hk : r.options.KeepsAll) :
    s.readable source = .ok r.cursor.rest ∧ r.cursor.rest <+: source ∧
      ∃ steps last, r.cursor.Completes r.options (steps ++ [last]) ∧
        (∀ a ∈ steps, a.status = .success) ∧
        (BreaksOff r.cursor.rest steps last ∨
          ReadsAll r.cursor.rest steps last ∧ ∀ further,
            r.cursor.runs r.options further = steps ++ List.replicate (further + 1) last) := by
  have hopened : s.readable source = .ok r.cursor.rest ∧ r.cursor = .start r.cursor.rest := by
    unfold openBytes at h
    cases hb : s.readable source with
    | error fault =>
      rw [hb] at h
      cases h
    | ok bytes =>
      cases ho : s.resolve with
      | error fault =>
        rw [hb, ho] at h
        cases h
      | ok options =>
        rw [hb, ho] at h
        cases h
        exact ⟨rfl, rfl⟩
  obtain ⟨hb, hstart⟩ := hopened
  have hstands : r.cursor.Stands r.cursor.rest := by
    have hat := Cursor.start_stands r.cursor.rest
    rwa [← hstart] at hat
  have hzero : r.cursor.offset = 0 := by rw [hstart]; rfl
  refine ⟨hb, Settings.readable_isPrefix hb, ?_⟩
  obtain ⟨steps, last, hcompletes, hsuccess, hend⟩ :=
    Cursor.exists_completes hm.moves hk hstands
  rw [hzero] at hend
  refine ⟨steps, last, hcompletes, hsuccess, ?_⟩
  rcases hend with ⟨hstatus, hkind, htiles⟩ | ⟨htiles, d, hd, hdstands, rfl⟩
  · obtain ⟨-, hle, hread⟩ := htiles.bytes_eq (Nat.zero_le _)
    exact Or.inl ⟨hstatus, hkind, htiles, hle, hread⟩
  · obtain ⟨-, -, hread⟩ := htiles.bytes_eq (Nat.zero_le _)
    rw [List.drop_zero, Nat.sub_zero, List.take_length] at hread
    have hnext := Cursor.next_of_end (o := r.options) hd
    have hstatus : (d.next r.options).status = .endOfInput := by rw [hnext]
    have hlength := hdstands.length_rest
    have hoffset := hdstands.offset_le
    rw [hd, List.length_nil] at hlength
    refine Or.inr ⟨⟨hstatus, htiles, hread, ?_, ?_, ?_⟩, ?_⟩
    · rw [hnext]
      dsimp only [Cursor.take]
      omega
    · rw [hnext]
      rfl
    · rw [hnext]
      exact Cursor.length_take_token _ (Nat.zero_le _)
    · exact Cursor.runs_of_completes hcompletes hstatus (Cursor.next_next_of_end hd)

/-- A source that ends with a sequence cut off is covered under the default options. -/
theorem openBytes_covers_cut :
    ∃ r, openBytes [0x61, 0x0A, 0x2F, 0x2F, 0xE2] .default = .ok r ∧
      r.options.Marked ∧ r.options.KeepsAll ∧
        ∃ steps last, r.cursor.Completes r.options (steps ++ [last]) ∧
          (∀ a ∈ steps, a.status = .success) ∧
          (BreaksOff r.cursor.rest steps last ∨
            ReadsAll r.cursor.rest steps last ∧ ∀ further,
              r.cursor.runs r.options further = steps ++ List.replicate (further + 1) last) := by
  have hopen : openBytes [0x61, 0x0A, 0x2F, 0x2F, 0xE2] .default =
      .ok ⟨⟨false, false, false, false, [0x2F, 0x2F], [0x2F, 0x2A], [0x2A, 0x2F]⟩,
        .start [0x61, 0x0A, 0x2F, 0x2F, 0xE2]⟩ := by
    with_unfolding_all rfl
  have hmarked : Options.Marked
      ⟨false, false, false, false, [0x2F, 0x2F], [0x2F, 0x2A], [0x2A, 0x2F]⟩ :=
    ⟨by decide, by decide, by decide⟩
  have hkeeps : Options.KeepsAll
      ⟨false, false, false, false, [0x2F, 0x2F], [0x2F, 0x2A], [0x2A, 0x2F]⟩ :=
    ⟨rfl, rfl, rfl⟩
  exact ⟨_, hopen, hmarked, hkeeps, (openBytes_covers hopen hmarked hkeeps).2.2⟩

end TextUnits.Lexer
