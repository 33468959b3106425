import TextUnits.Proofs.Format.Runs

/-!
# Delivery in chunks

Output is delivered as the chunks of the whole text, however its pieces lie in them, and a receiver
that stops gets the first of these chunks. A counter is told how many units the part of the format
string in front of its directive writes, whether the text is delivered in chunks or at once.
-/

namespace TextUnits.Format

/-- Chunks that make up a text and are full, but for the last one, which is not empty. -/
structure InChunks (size : Nat) (chunks : List Text) (text : Text) : Prop where
  /-- They make up the text. -/
  flatten : chunks.flatten = text
  /-- All but the last one are full. -/
  full : ∀ c ∈ chunks.dropLast, c.length = size
  /-- The last one has some units and is no longer than the others. -/
  last : ∀ c ∈ chunks.getLast?, 0 < c.length ∧ c.length ≤ size

/-- The chunks of a text. -/
def chunksOf (t : Text) : List Text :=
  if t = [] then [] else t.take chunkSize :: chunksOf (t.drop chunkSize)
termination_by t.length
decreasing_by
  rename_i h
  have hpos := List.length_pos_iff.mpr h
  simp only [List.length_drop, chunkSize]
  omega

theorem chunksOf_nil : chunksOf [] = [] := by
  rw [chunksOf, if_pos rfl]

theorem chunksOf_of_ne_nil {t : Text} (h : t ≠ []) :
    chunksOf t = t.take chunkSize :: chunksOf (t.drop chunkSize) := by
  rw [chunksOf, if_neg h]

/-- A text that fills no chunk is the last one, unless it is empty. -/
theorem chunksOf_of_short {t : Text} (h : t.length < chunkSize) :
    chunksOf t = if t.isEmpty then [] else [t] := by
  cases t with
  | nil => exact chunksOf_nil
  | cons u rest =>
    have hle := Nat.le_of_lt h
    rw [chunksOf_of_ne_nil (List.cons_ne_nil u rest), List.take_of_length_le hle,
      List.drop_of_length_le hle, chunksOf_nil]
    rfl

/-- A full chunk in front of a text is its first chunk. -/
theorem chunksOf_append {c : Text} (hc : c.length = chunkSize) (t : Text) :
    chunksOf (c ++ t) = c :: chunksOf t := by
  have hpos : 0 < c.length := by rw [hc]; decide
  have hne : c ++ t ≠ [] := List.append_ne_nil_of_left_ne_nil (List.length_pos_iff.mp hpos) t
  rw [chunksOf_of_ne_nil hne, ← hc, List.take_left, List.drop_left]

/-- Full chunks in front of a text are its first chunks. -/
theorem chunksOf_flatten_append {full : List Text} (h : ∀ c ∈ full, c.length = chunkSize)
    (t : Text) : chunksOf (full.flatten ++ t) = full ++ chunksOf t := by
  induction full with
  | nil => rfl
  | cons c rest ih =>
    rw [List.forall_mem_cons] at h
    rw [List.flatten_cons, List.append_assoc, chunksOf_append h.1, ih h.2]
    rfl

theorem inChunks_chunksOf (t : Text) : InChunks chunkSize (chunksOf t) t := by
  induction t using chunksOf.induct with
  | case1 =>
    rw [chunksOf_nil]
    exact ⟨rfl, fun c hc => absurd hc List.not_mem_nil, fun c hc => by cases hc⟩
  | case2 t hne ih =>
    have hpos := List.length_pos_iff.mpr hne
    rw [chunksOf_of_ne_nil hne]
    refine ⟨?_, ?_, ?_⟩
    · rw [List.flatten_cons, ih.flatten, List.take_append_drop]
    · intro c hc
      by_cases hdrop : t.drop chunkSize = []
      · rw [hdrop, chunksOf_nil] at hc
        cases hc
      · have hlater : chunksOf (t.drop chunkSize) ≠ [] := by
          rw [chunksOf_of_ne_nil hdrop]
          exact List.cons_ne_nil _ _
        rw [List.dropLast_cons_of_ne_nil hlater, List.mem_cons] at hc
        have hlong : ¬ t.length ≤ chunkSize := fun hle => hdrop (List.drop_of_length_le hle)
        rcases hc with rfl | hc
        · rw [List.length_take]
          omega
        · exact ih.full c hc
    · intro c hc
      cases hlater : chunksOf (t.drop chunkSize) with
      | nil =>
        rw [hlater] at hc
        cases hc
        change 0 < (t.take chunkSize).length ∧ (t.take chunkSize).length ≤ chunkSize
        rw [List.length_take]
        have hsize : 0 < chunkSize := by decide
        omega
      | cons first rest =>
        rw [hlater, List.getLast?_cons_cons] at hc
        rw [hlater] at ih
        exact ih.last c hc

section Receivers

variable {receiver : Receiver} {w : Writer} {t : Text}

/-- A receiver that never stops gets all chunks. -/
theorem untilStop_of_all (hall : ∀ chunks, receiver chunks = true) (seen chunks : List Text) :
    untilStop receiver seen chunks = chunks := by
  induction chunks generalizing seen with
  | nil => rfl
  | cons c rest ih => rw [untilStop, if_pos (hall _), ih]

/-- A receiver that stops with its `k`-th chunk gets the first `k`. -/
theorem untilStop_of_stop {k : Nat} (hgoes : ∀ chunks, chunks.length < k → receiver chunks = true)
    (hstop : ∀ chunks, chunks.length = k → receiver chunks = false) {seen : List Text}
    (hseen : seen.length < k) (chunks : List Text) :
    untilStop receiver seen chunks = chunks.take (k - seen.length) := by
  induction chunks generalizing seen with
  | nil => exact List.take_nil.symm
  | cons c rest ih =>
    have hlength : (seen ++ [c]).length = seen.length + 1 := List.length_append
    rw [untilStop]
    rcases Nat.lt_or_ge (seen.length + 1) k with hlt | hge
    · rw [if_pos (hgoes _ (hlength ▸ hlt)), ih (hlength ▸ hlt), hlength,
        show k - seen.length = k - (seen.length + 1) + 1 by omega, List.take_succ_cons]
    · have hlast : seen.length + 1 = k := by omega
      rw [hstop _ (hlength.trans hlast), if_neg Bool.false_ne_true,
        show k - seen.length = 1 by omega]
      rfl

/-- A writer that has stopped handed over the chunks up to there, whatever it would have been given
besides. -/
theorem Writer.Taken.chunks_of_stopped (h : w.Taken receiver t) (hstopped : w.stopped = true)
    (more : Text) : w.chunks = untilStop receiver [] (chunksOf (t ++ more)) := by
  rw [← h.text, List.append_assoc, chunksOf_flatten_append h.full, h.stops, if_pos hstopped]

/-- One that has not stopped has handed them over once it is flushed. -/
theorem Writer.Taken.chunks_flush (h : w.Taken receiver t) (hgoes : w.stopped = false)
    (hshort : w.pending.length < chunkSize) :
    (w.flush receiver).chunks = untilStop receiver [] (chunksOf t) := by
  rw [← h.text, chunksOf_flatten_append h.full, h.stops, if_neg (Bool.eq_false_iff.mp hgoes),
    chunksOf_of_short hshort, flush]
  cases hp : w.pending with
  | nil =>
    rw [if_neg (by simp)]
    exact (List.append_nil _).symm
  | cons u rest =>
    have hlast : untilStop receiver w.chunks [u :: rest] = [u :: rest] := by
      rw [untilStop]
      split_ifs <;> rfl
    rw [if_pos ⟨hgoes, Nat.succ_pos _⟩, List.isEmpty_cons, if_neg Bool.false_ne_true, hlast]
    rfl

end Receivers

/-- A receiver gets the chunks of the formatted text up to where it stops, and their units are
counted. -/
theorem deliverFormat_chunks {separators : Separators} {fmt text : Text} {args : List Argument}
    (h : format separators fmt args = .ok text) (receiver : Receiver) :
    (deliverFormat receiver separators fmt args).fault = none ∧
      (deliverFormat receiver separators fmt args).writer.chunks =
        untilStop receiver [] (chunksOf text) ∧
      (deliverFormat receiver separators fmt args).writer.emitted =
        (deliverFormat receiver separators fmt args).writer.chunks.flatten.length := by
  obtain ⟨hfault, htext⟩ := format_eq_ok_iff.mp h
  have hrun := followed_run receiver separators fmt args
  unfold deliverFormat
  generalize run receiver separators fmt .start [] ⟨0, args⟩ = o at hrun ⊢
  cases hrun with
  | whole htaken hgoes hshort =>
    rw [List.nil_append, htext] at htaken
    rw [hfault]
    exact ⟨rfl, htaken.chunks_flush hgoes hshort, htaken.emitted_flush⟩
  | @front w first hfirst htaken hstopped =>
    obtain ⟨later, hlater⟩ := hfirst
    have hwhole : textOf first ++ textOf later = text := by
      rw [← textOf_append, hlater, htext]
    have hkept : w.flush receiver = w := if_neg fun hgoes => by simp [hstopped] at hgoes
    have hchunks := htaken.chunks_of_stopped hstopped (textOf later)
    rw [List.nil_append, hwhole] at hchunks
    dsimp only
    rw [hkept]
    exact ⟨rfl, hchunks, htaken.delivered⟩

/-- A receiver that never stops gets all chunks, and every counter is told. -/
theorem deliverFormat_whole {separators : Separators} {fmt text : Text} {args : List Argument}
    (h : format separators fmt args = .ok text) {receiver : Receiver}
    (hall : ∀ chunks, receiver chunks = true) :
    (deliverFormat receiver separators fmt args).writer.chunks = chunksOf text ∧
      (deliverFormat receiver separators fmt args).notes =
        told (outputOf separators fmt args).pieces := by
  obtain ⟨-, hchunks, -⟩ := deliverFormat_chunks h receiver
  obtain ⟨w, hrun, -, -⟩ := run_whole hall separators fmt args
  refine ⟨hchunks.trans (untilStop_of_all hall _ _), ?_⟩
  unfold deliverFormat
  rw [hrun]
  cases (outputOf separators fmt args).fault <;> rfl

/-- A receiver that stops with its `k`-th chunk gets the first `k` of them. -/
theorem deliverFormat_stopped {separators : Separators} {fmt text : Text} {args : List Argument}
    (h : format separators fmt args = .ok text) {receiver : Receiver} {k : Nat} (hk : 0 < k)
    (hgoes : ∀ chunks, chunks.length < k → receiver chunks = true)
    (hstop : ∀ chunks, chunks.length = k → receiver chunks = false) :
    (deliverFormat receiver separators fmt args).writer.chunks = (chunksOf text).take k := by
  have hnone : ([] : List Text).length < k := hk
  rw [(deliverFormat_chunks h receiver).2.1, untilStop_of_stop hgoes hstop hnone]
  rfl

theorem length_foldl_tell (args : List Argument) (notes : List (Nat × Nat)) :
    (notes.foldl tell args).length = args.length := by
  induction notes generalizing args with
  | nil => rfl
  | cons note rest ih => rw [List.foldl_cons, ih, tell, List.length_set]

/-- A counter keeps what it was told while others are told. -/
theorem getElem?_foldl_tell {i : Nat} {notes : List (Nat × Nat)} (h : ∀ n ∈ notes, i < n.1)
    (args : List Argument) : (notes.foldl tell args)[i]? = args[i]? := by
  induction notes generalizing args with
  | nil => rfl
  | cons note rest ih =>
    rw [List.forall_mem_cons] at h
    have hne : note.1 ≠ i := Nat.ne_of_gt h.1
    rw [List.foldl_cons, ih h.2, tell, List.getElem?_set_ne hne]

/-- A counter holds what it was told last. -/
theorem Outcome.getElem?_arguments {o : Outcome} {args : List Argument} {i n : Nat}
    {earlier later : List (Nat × Nat)} (hi : i < args.length)
    (ht : o.notes = earlier ++ (i, n) :: later) (hl : ∀ m ∈ later, i < m.1) :
    (o.arguments args)[i]? = some (.counter (Double.ofNat n)) := by
  have hlength : i < (earlier.foldl tell args).length := by
    rw [length_foldl_tell]
    exact hi
  rw [arguments, ht, List.foldl_append, List.foldl_cons, getElem?_foldl_tell hl, tell,
    List.getElem?_set_self hlength]

section

variable {separators : Separators} {d : Directive} {letter : UInt16}

/-- A directive that counts makes a note for the argument behind its sizes. -/
theorem Segment.Gives.eq_count {units : Text} {used : List Argument} {piece : Piece}
    (h : (Segment.directive units d).Gives separators used piece) (hd : d.conversion = some letter)
    (hcount : conversionOf letter = .count) : piece = .count d.sizeArguments 0 := by
  cases h with
  | cut hcut =>
    rw [hd] at hcut
    cases hcut
  | value hletter hused hmakes =>
    rw [hd, Option.some.injEq] at hletter
    subst hletter
    obtain ⟨r, sizes, -, -, ⟨hliteral, -, -⟩ | ⟨a, value, -, -, hv, hpiece⟩⟩ :=
      pieceOf_cases (hmakes 0 0 [])
    · rw [hcount] at hliteral
      cases hliteral
    · rw [hcount] at hv
      have hvalue : value = .count 0 0 := by
        cases a <;> cases hv
        rfl
      rw [Piece.behind_zero, hvalue, Nat.zero_add] at hpiece
      exact hpiece

/-- A directive that counts is told the units that the segments in front of it write; the counters
told later stand further behind. -/
theorem Runs.told_count {front back : List Segment} {units : Text} {used : List Argument}
    {pieces : List Piece} (h : Runs separators (front ++ .directive units d :: back) used pieces)
    (hd : d.conversion = some letter) (hcount : conversionOf letter = .count) :
    ∃ first second p earlier later, used = first ++ second ∧ Runs separators front first p ∧
      textOf p <+: textOf pieces ∧
      argumentsOf front + d.sizeArguments < used.length ∧
      told pieces =
        earlier ++ (argumentsOf front + d.sizeArguments, (textOf p).length) :: later ∧
      ∀ n ∈ later, argumentsOf front + d.sizeArguments < n.1 := by
  obtain ⟨first, second, p, q, rfl, hfront, hback, rfl⟩ := h.split
  have hfirst := hfront.length
  cases hback with
  | cons hs hrest =>
    rename_i value rest piece q
    obtain rfl := hs.eq_count hd hcount
    have hvalue := hs.length
    rw [Segment.arguments, Directive.arguments, hd] at hvalue
    dsimp only at hvalue
    rw [hcount, if_neg (by decide)] at hvalue
    refine ⟨first, _, p, told p,
      told (q.map (Piece.behind (first.length + value.length) ((textOf p).length + 0))),
      rfl, hfront, ?_, ?_, ?_, ?_⟩
    · rw [textOf_append]
      exact List.prefix_append _ _
    · rw [List.length_append, List.length_append]
      omega
    · rw [told_append, List.map_cons, map_behind_behind, ← hfirst]
      rfl
    · intro n hn
      rw [told_behind, List.mem_map] at hn
      obtain ⟨m, -, rfl⟩ := hn
      dsimp only
      omega

end

/-- Whatever is formatted behind it, a counter is told how many units the format string in front of
its directive writes. -/
theorem exists_told {separators : Separators} {fmt text : Text} {args : List Argument}
    (h : format separators fmt args = .ok text) {front back : List Segment} {units : Text}
    {d : Directive} {letter : UInt16}
    (hsegments : segments fmt = front ++ .directive units d :: back)
    (hd : d.conversion = some letter) (hcount : conversionOf letter = .count) :
    ∃ before earlier later, format separators (spelling front) args = .ok before ∧
      before <+: text ∧ argumentsOf front + d.sizeArguments < args.length ∧
      told (outputOf separators fmt args).pieces =
        earlier ++ (argumentsOf front + d.sizeArguments, before.length) :: later ∧
      ∀ n ∈ later, argumentsOf front + d.sizeArguments < n.1 := by
  have hwhole : spelling front ++ spelling (.directive units d :: back) = fmt := by
    rw [← spelling_append, ← hsegments, spelling_segments]
  have hsame := hsegments
  rw [← hwhole] at hsame
  have hfront := (segments_of_append hsame rfl).1
  obtain ⟨used, extra, pieces, rfl, hruns⟩ := exists_runs_of_format h
  obtain ⟨htold, hend⟩ := (format_of_runs hruns extra).symm
  rw [h, Except.ok.injEq] at hend
  rw [hsegments] at hruns
  obtain ⟨first, second, p, earlier, later, rfl, hp, hprefix, hbound, hnotes, hlater⟩ :=
    hruns.told_count hd hcount
  rw [← hfront] at hp
  refine ⟨textOf p, earlier, later, ?_, ?_, ?_, htold.trans hnotes, hlater⟩
  · rw [List.append_assoc]
    exact (format_of_runs hp (second ++ extra)).1
  · rw [hend]
    exact hprefix
  · rw [List.length_append]
    omega

/-- Formatted text is delivered in full chunks and a last one that may be shorter, and a receiver
that stops with its `k`-th chunk gets the first `k` of these chunks; the units that it gets are
counted. Every counter holds how many units the format string in front of its directive writes,
whether the text is collected or delivered. -/
theorem deliverFormat_of_format {separators : Separators} {fmt text : Text} {args : List Argument}
    (h : format separators fmt args = .ok text) :
    (∀ receiver : Receiver, (∀ chunks, receiver chunks = true) →
      (deliverFormat receiver separators fmt args).fault = none ∧
      InChunks 512 (deliverFormat receiver separators fmt args).writer.chunks text ∧
      (deliverFormat receiver separators fmt args).writer.emitted = text.length) ∧
    (∀ (receiver : Receiver) (k : Nat), 0 < k →
      (∀ chunks, chunks.length < k → receiver chunks = true) →
      (∀ chunks, chunks.length = k → receiver chunks = false) →
      (deliverFormat receiver separators fmt args).fault = none ∧
      (deliverFormat receiver separators fmt args).writer.chunks =
        (collect separators fmt args).writer.chunks.take k ∧
      (deliverFormat receiver separators fmt args).writer.emitted =
        ((collect separators fmt args).writer.chunks.take k).flatten.length) ∧
    ∀ front units d letter back, segments fmt = front ++ .directive units d :: back →
      d.conversion = some letter → conversionOf letter = .count →
      ∃ before, format separators (spelling front) args = .ok before ∧ before <+: text ∧
        ((collect separators fmt args).arguments args)[argumentsOf front + d.sizeArguments]? =
          some (.counter (Double.ofNat before.length)) ∧
        ∀ receiver : Receiver, (∀ chunks, receiver chunks = true) →
          ((deliverFormat receiver separators fmt args).arguments args)[argumentsOf front +
              d.sizeArguments]? = some (.counter (Double.ofNat before.length)) := by
  have hcollected := (deliverFormat_whole h everything_eq_true).1
  refine ⟨fun receiver hall => ?_, fun receiver k hk hgoes hstop => ?_, ?_⟩
  · obtain ⟨hfault, -, hemitted⟩ := deliverFormat_chunks h receiver
    have hchunks := (deliverFormat_whole h hall).1
    have hin := inChunks_chunksOf text
    rw [hemitted, hchunks, hin.flatten]
    exact ⟨hfault, hin, rfl⟩
  · obtain ⟨hfault, -, hemitted⟩ := deliverFormat_chunks h receiver
    have hchunks := deliverFormat_stopped h hk hgoes hstop
    rw [hemitted, hchunks, collect, hcollected]
    exact ⟨hfault, rfl, rfl⟩
  · intro front units d letter back hsegments hd hcount
    obtain ⟨before, earlier, later, hbefore, hprefix, hroom, htold, hlater⟩ :=
      exists_told h hsegments hd hcount
    have hholds : ∀ receiver : Receiver, (∀ chunks, receiver chunks = true) →
        ((deliverFormat receiver separators fmt args).arguments args)[argumentsOf front +
          d.sizeArguments]? = some (.counter (Double.ofNat before.length)) := by
      intro receiver hall
      exact Outcome.getElem?_arguments hroom ((deliverFormat_whole h hall).2.trans htold) hlater
    exact ⟨before, hbefore, hprefix, hholds everything everything_eq_true, hholds⟩

/-- A field that fills more than one chunk, with a counter behind it. -/
theorem deliverFormat_of_format_wide :
    (collect .default (Text.ofString "%600s%n")
      [.null, .counter (Double.ofNat 0)]).writer.emitted = 600 ∧
    (deliverFormat (fun chunks => decide (chunks.length < 1)) .default (Text.ofString "%600s%n")
      [.null, .counter (Double.ofNat 0)]).fault = none ∧
    ∃ before, format .default (Text.ofString "%600s") [.null, .counter (Double.ofNat 0)] =
        .ok before ∧
      ((collect .default (Text.ofString "%600s%n")
        [.null, .counter (Double.ofNat 0)]).arguments [.null, .counter (Double.ofNat 0)])[1]? =
          some (.counter (Double.ofNat before.length)) := by
  have hformat : format .default (Text.ofString "%600s%n") [.null, .counter (Double.ofNat 0)] =
      .ok (List.replicate 596 0x20 ++ Text.ofString "null") :=
    format_eq_ok_iff.mpr ⟨by decide +kernel, by decide +kernel⟩
  obtain ⟨hcollected, hstopped, hcounters⟩ := deliverFormat_of_format hformat
  have hsegments : segments (Text.ofString "%600s%n") =
      [.directive (Text.ofString "600s") ⟨.none, .number 600, none, false, some 0x73⟩] ++
        .directive (Text.ofString "n") ⟨.none, .number 0, none, false, some 0x6E⟩ :: [] := by
    decide +kernel
  obtain ⟨before, hbefore, -, hcounter, -⟩ :=
    hcounters _ _ _ _ _ hsegments rfl (by decide +kernel)
  refine ⟨?_, ?_, before, hbefore, hcounter⟩
  · exact (hcollected everything everything_eq_true).2.2.trans (by decide +kernel)
  · exact (hstopped _ 1 Nat.one_pos (fun _ h => decide_eq_true h)
      fun _ h => decide_eq_false (Nat.not_lt.mpr h.ge)).1

end TextUnits.Format
