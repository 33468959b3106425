import TextUnits.Format.Writer
import Mathlib.Tactic.Common

/-!
# What a writer has taken

A writer counts what it handed over and keeps the rest, so its position is the number of units that
it was given, wherever these lie in chunks and whether or not the receiver has stopped. The chunks
that it handed over are full, and they are those up to the first one with which the receiver asked
to stop. Each step of a writer preserves this, and so does every row of steps.
-/

namespace TextUnits.Format

/-- Chunks of a row that are handed over to a receiver that has some chunks already: up to the first
one with which it asks to stop. -/
def untilStop (receiver : Receiver) (seen : List Text) : List Text → List Text
  | [] => []
  | c :: rest =>
    if receiver (seen ++ [c]) then c :: untilStop receiver (seen ++ [c]) rest else [c]

namespace Writer

variable {receiver : Receiver} {w : Writer} {t : Text}

/-- What a writer holds once it has been given a text. -/
structure Taken (receiver : Receiver) (w : Writer) (t : Text) : Prop where
  /-- The text was handed over or is pending. -/
  text : w.chunks.flatten ++ w.pending = t
  /-- The counter says how many units were handed over. -/
  delivered : w.delivered = w.chunks.flatten.length
  /-- Every chunk is full. -/
  full : ∀ c ∈ w.chunks, c.length = chunkSize
  /-- Of the chunks handed over and any others behind them, those handed over are the ones up to
  where the receiver stops; there are more of them only if it has not. -/
  stops : ∀ more, untilStop receiver [] (w.chunks ++ more) =
    if w.stopped then w.chunks else w.chunks ++ untilStop receiver w.chunks more

theorem taken_start (receiver : Receiver) : start.Taken receiver [] :=
  ⟨rfl, rfl, fun _ hc => absurd hc List.not_mem_nil, fun _ => rfl⟩

/-- The position is the number of units given. -/
theorem Taken.position_eq (h : w.Taken receiver t) : w.position = t.length := by
  rw [position, h.delivered, ← h.text, List.length_append]

/-- A text that is given is pending at first. -/
theorem Taken.append (h : w.Taken receiver t) (u : Text) :
    Taken receiver { w with pending := w.pending ++ u } (t ++ u) :=
  ⟨by rw [← h.text, List.append_assoc], h.delivered, h.full, h.stops⟩

/-- With one more chunk handed over, the receiver stops there or later. -/
theorem Taken.stops_deliver (h : w.Taken receiver t) (hgoes : w.stopped = false) (c : Text)
    (more : List Text) :
    untilStop receiver [] ((w.deliver receiver c).chunks ++ more) =
      if (w.deliver receiver c).stopped then (w.deliver receiver c).chunks
      else (w.deliver receiver c).chunks ++
        untilStop receiver (w.deliver receiver c).chunks more := by
  have hbefore := h.stops (c :: more)
  rw [hgoes, if_neg Bool.false_ne_true, untilStop] at hbefore
  rw [deliver, hgoes, Bool.false_or, List.append_assoc, List.singleton_append, hbefore]
  cases receiver (w.chunks ++ [c])
  · rfl
  · simp only [if_true, Bool.not_true, Bool.false_eq_true, if_false, List.append_assoc,
      List.singleton_append]

/-- A full chunk at the front of what is pending is handed over. -/
theorem Taken.deliver (h : w.Taken receiver t) (hgoes : w.stopped = false)
    (hfull : chunkSize ≤ w.pending.length) :
    Taken receiver { w.deliver receiver (w.pending.take chunkSize) with
      pending := w.pending.drop chunkSize } t := by
  refine ⟨?_, ?_, ?_, h.stops_deliver hgoes _⟩
  · change (w.chunks ++ [w.pending.take chunkSize]).flatten ++ w.pending.drop chunkSize = t
    rw [List.flatten_concat, List.append_assoc, List.take_append_drop, h.text]
  · change w.delivered + (w.pending.take chunkSize).length =
      (w.chunks ++ [w.pending.take chunkSize]).flatten.length
    rw [h.delivered, List.flatten_concat, List.length_append]
  · intro c hc
    rcases List.mem_append.mp hc with hc | hc
    · exact h.full c hc
    · rw [List.mem_singleton.mp hc, List.length_take, Nat.min_eq_left hfull]

/-- Full chunks are handed over one after the other. -/
theorem Taken.drain (h : w.Taken receiver t) : Taken receiver (w.drain receiver) t := by
  induction w using drain.induct receiver with
  | case1 w hfull handed ih =>
    rw [Writer.drain, dif_pos hfull]
    exact ih (h.deliver hfull.1 hfull.2)
  | case2 w hfull =>
    rw [Writer.drain, dif_neg hfull]
    exact h

/-- Less than a chunk is pending then, unless the receiver has stopped. -/
theorem short_drain (receiver : Receiver) (w : Writer)
    (hgoes : (w.drain receiver).stopped = false) :
    (w.drain receiver).pending.length < chunkSize := by
  induction w using drain.induct receiver with
  | case1 w hfull handed ih =>
    rw [drain, dif_pos hfull] at hgoes ⊢
    exact ih hgoes
  | case2 w hfull =>
    rw [drain, dif_neg hfull] at hgoes ⊢
    exact Nat.lt_of_not_le fun hle => hfull ⟨hgoes, hle⟩

/-- A writer takes a text behind those it was given before. -/
theorem Taken.write (h : w.Taken receiver t) (u : Text) :
    Taken receiver (w.write receiver u) (t ++ u) :=
  (h.append u).drain

/-- Handing over chunks does not move the position. -/
theorem position_drain (receiver : Receiver) (w : Writer) :
    (w.drain receiver).position = w.position := by
  induction w using drain.induct receiver with
  | case1 w hfull handed ih =>
    rw [drain, dif_pos hfull, ih]
    change w.delivered + (w.pending.take chunkSize).length + (w.pending.drop chunkSize).length =
      w.delivered + w.pending.length
    rw [Nat.add_assoc, ← List.length_append, List.take_append_drop]
  | case2 w hfull => rw [drain, dif_neg hfull]

/-- A text moves the position by its length. -/
theorem position_write (receiver : Receiver) (w : Writer) (t : Text) :
    (w.write receiver t).position = w.position + t.length := by
  rw [write, position_drain, position, List.length_append, ← Nat.add_assoc]
  rfl

/-- Once flushed, a writer that has not stopped has handed over all that it was given. -/
theorem Taken.flatten_flush (h : w.Taken receiver t) (hgoes : w.stopped = false) :
    (w.flush receiver).chunks.flatten = t := by
  rw [← h.text, flush]
  split_ifs with hpending
  · exact List.flatten_concat
  · have hnone : w.pending = [] :=
      List.length_eq_zero_iff.mp (Nat.eq_zero_of_not_pos fun hpos => hpending ⟨hgoes, hpos⟩)
    rw [hnone, List.append_nil]

/-- Flushed or not, the counter says how many units were handed over. -/
theorem Taken.emitted_flush (h : w.Taken receiver t) :
    (w.flush receiver).emitted = (w.flush receiver).chunks.flatten.length := by
  rw [flush]
  split_ifs
  · change w.delivered + w.pending.length = (w.chunks ++ [w.pending]).flatten.length
    rw [h.delivered, List.flatten_concat, List.length_append]
  · exact h.delivered

/-- A receiver that never stops lets the writer go on. -/
theorem stopped_drain (hall : ∀ chunks, receiver chunks = true) (w : Writer) :
    (w.drain receiver).stopped = w.stopped := by
  induction w using drain.induct receiver with
  | case1 w hfull handed ih =>
    rw [drain, dif_pos hfull, ih]
    change (w.stopped || !receiver _) = w.stopped
    rw [hall, Bool.not_true, Bool.or_false]
  | case2 w hfull => rw [drain, dif_neg hfull]

theorem stopped_write (hall : ∀ chunks, receiver chunks = true) (w : Writer) (t : Text) :
    (w.write receiver t).stopped = w.stopped :=
  stopped_drain hall _

end Writer

end TextUnits.Format
