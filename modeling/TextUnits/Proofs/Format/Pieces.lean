import TextUnits.Proofs.Format.Writer

/-!
# Formatted output in pieces

What a format string writes does not depend on who receives it: it is a row of pieces, each a text
or a note of how many units stand in front of it, and a fault behind them if one arises. A walk over
the format string gives these pieces to its writer, one after the other, until the writer stops. So
formatting gives the text of all pieces, or their fault.
-/

namespace TextUnits.Format

/-- Units that a piece writes. -/
def Piece.length : Piece → Nat
  | text t => t.length
  | count .. => 0

/-- Output of a format string: its pieces, and the fault that ends them, if one does. -/
structure Output where
  /-- Pieces in order. -/
  pieces : List Piece
  /-- Why there are no more. -/
  fault : Option Fault

/-- Output with a piece in front. -/
def Output.push (p : Piece) (o : Output) : Output := ⟨p :: o.pieces, o.fault⟩

/-- Output with a text in front, unless the text is empty. -/
def Output.pushText (t : Text) (o : Output) : Output := if t.isEmpty then o else o.push (.text t)

/-- Output of a format string behind `position` units of output. -/
def output (separators : Separators) (t : Text) (position : Nat) (s : Supply) : Output :=
  match _run : literalRun t with
  | (before, none) => Output.pushText before ⟨[], none⟩
  | (before, some behind) =>
    let parsed := Directive.parse behind
    Output.pushText before <|
      match parsed.1.conversion with
      | none => ⟨[], none⟩
      | some letter =>
        match pieceOf parsed.1 letter separators (position + before.length) s with
        | .error fault => ⟨[], some fault⟩
        | .ok (piece, s) =>
          (output separators parsed.2 (position + before.length + piece.length) s).push piece
termination_by t.length
decreasing_by
  have bound := length_of_literalRun _run
  have := Directive.length_parse behind
  omega

/-- Output of a format string with its arguments. -/
def outputOf (separators : Separators) (fmt : Text) (args : List Argument) : Output :=
  output separators fmt 0 ⟨0, args⟩

/-- Text that pieces write. -/
def textOf (pieces : List Piece) : Text :=
  pieces.flatMap fun p => match p with
    | .text t => t
    | .count .. => []

/-- The counters that pieces tell how much was written, each by its place among the arguments. -/
def told (pieces : List Piece) : List (Nat × Nat) :=
  pieces.filterMap fun
    | .text _ => none
    | .count argument position => some (argument, position)

/-- What is left behind when a writer is given pieces one after the other until it stops. -/
def follow (receiver : Receiver) (fault : Option Fault) (w : Writer) (notes : List (Nat × Nat)) :
    List Piece → Outcome
  | [] => ⟨w, notes, fault⟩
  | .count argument position :: rest =>
    follow receiver fault w (notes ++ [(argument, position)]) rest
  | .text t :: rest =>
    if (w.write receiver t).stopped then ⟨w.write receiver t, notes, none⟩
    else follow receiver fault (w.write receiver t) notes rest

/-- What a writer that has a text is left with when it was given pieces. -/
inductive Followed (receiver : Receiver) (fault : Option Fault) (t : Text)
    (notes : List (Nat × Nat)) (pieces : List Piece) : Outcome → Prop where
  /-- It took all pieces. -/
  | whole {w : Writer} (h : w.Taken receiver (t ++ textOf pieces)) (hgoes : w.stopped = false)
      (hshort : w.pending.length < chunkSize) :
      Followed receiver fault t notes pieces ⟨w, notes ++ told pieces, fault⟩
  /-- The receiver stopped it with one of the first pieces. -/
  | front {w : Writer} {first : List Piece} (hfirst : first <+: pieces)
      (h : w.Taken receiver (t ++ textOf first)) (hstopped : w.stopped = true) :
      Followed receiver fault t notes pieces ⟨w, notes ++ told first, none⟩

variable {receiver : Receiver} {separators : Separators} {w : Writer} {notes : List (Nat × Nat)}
  {fault : Option Fault} {t : Text} {pieces : List Piece}

theorem textOf_cons (p : Piece) (pieces : List Piece) :
    textOf (p :: pieces) = textOf [p] ++ textOf pieces := by
  simp only [textOf, List.flatMap_cons, List.flatMap_nil, List.append_nil]

theorem textOf_append (front back : List Piece) :
    textOf (front ++ back) = textOf front ++ textOf back :=
  List.flatMap_append

theorem told_append (front back : List Piece) : told (front ++ back) = told front ++ told back :=
  List.filterMap_append

/-- Output by its first directive. -/
theorem output_eq (separators : Separators) (t : Text) (position : Nat) (s : Supply) :
    output separators t position s =
      match literalRun t with
      | (before, none) => Output.pushText before ⟨[], none⟩
      | (before, some behind) =>
        Output.pushText before <|
          match (Directive.parse behind).1.conversion with
          | none => ⟨[], none⟩
          | some letter =>
            match pieceOf (Directive.parse behind).1 letter separators
              (position + before.length) s with
            | .error fault => ⟨[], some fault⟩
            | .ok (piece, s) =>
              (output separators (Directive.parse behind).2
                (position + before.length + piece.length) s).push piece := by
  rw [output]
  split
  next hrun => rw [hrun]
  next hrun =>
    rewrite [hrun]
    rfl

/-- A walk by its first directive. -/
theorem run_eq (receiver : Receiver) (separators : Separators) (t : Text) (w : Writer)
    (notes : List (Nat × Nat)) (s : Supply) :
    run receiver separators t w notes s =
      match literalRun t with
      | (before, none) => ⟨if before.isEmpty then w else w.write receiver before, notes, none⟩
      | (before, some behind) =>
        let w := if before.isEmpty then w else w.write receiver before
        if !before.isEmpty && w.stopped then ⟨w, notes, none⟩
        else
          match (Directive.parse behind).1.conversion with
          | none => ⟨w, notes, none⟩
          | some letter =>
            match pieceOf (Directive.parse behind).1 letter separators w.position s with
            | .error fault => ⟨w, notes, some fault⟩
            | .ok (.count argument position, s) =>
              run receiver separators (Directive.parse behind).2 w
                (notes ++ [(argument, position)]) s
            | .ok (.text field, s) =>
              if (w.write receiver field).stopped then ⟨w.write receiver field, notes, none⟩
              else run receiver separators (Directive.parse behind).2 (w.write receiver field)
                notes s := by
  rw [run]
  split
  next hrun => rw [hrun]
  next hrun =>
    rewrite [hrun]
    rfl

/-- A walk that gives its writer a text first, unless that is empty, and then goes on unless the
writer has stopped. -/
theorem eq_follow_pushText {before : Text} {o : Output} {after : Writer} {later : Outcome}
    (hgoes : w.stopped = false)
    (hafter : (if before.isEmpty then w else w.write receiver before) = after)
    (h : after.stopped = false → later = follow receiver o.fault after notes o.pieces) :
    (if !before.isEmpty && after.stopped then ⟨after, notes, none⟩ else later) =
      follow receiver (o.pushText before).fault w notes (o.pushText before).pieces := by
  cases before with
  | nil =>
    cases hafter
    exact h hgoes
  | cons u rest =>
    rw [List.isEmpty_cons, if_neg Bool.false_ne_true] at hafter
    subst hafter
    change (if (w.write receiver (u :: rest)).stopped then _ else _) =
      if (w.write receiver (u :: rest)).stopped then _ else _
    split_ifs with hstopped
    · rfl
    · exact h (Bool.eq_false_iff.mpr hstopped)

/-- A walk gives its writer the pieces of the output that stands where the writer does. -/
theorem run_eq_follow (receiver : Receiver) (separators : Separators) (t : Text) (w : Writer)
    (notes : List (Nat × Nat)) (s : Supply) (hgoes : w.stopped = false) :
    run receiver separators t w notes s =
      follow receiver (output separators t w.position s).fault w notes
        (output separators t w.position s).pieces := by
  induction hlength : t.length using Nat.strongRecOn generalizing t w notes s with
  | ind length ih =>
    rw [run_eq, output_eq]
    rcases hrun : literalRun t with ⟨before, _ | behind⟩ <;> dsimp only <;>
      generalize hafter : (if before.isEmpty then w else w.write receiver before) = after
    · rw [← eq_follow_pushText hgoes hafter fun _ => rfl]
      exact (ite_self _).symm
    · have hposition : w.position + before.length = after.position := by
        rw [← hafter]
        split_ifs with hempty
        · rw [List.isEmpty_iff.mp hempty]
          rfl
        · exact (Writer.position_write receiver w before).symm
      have hshort : (Directive.parse behind).2.length < length := by
        have hbehind := length_of_literalRun hrun
        have hparse := Directive.length_parse behind
        omega
      refine eq_follow_pushText hgoes hafter fun hgoes => ?_
      rw [hposition]
      cases (Directive.parse behind).1.conversion with
      | none => rfl
      | some letter =>
        dsimp only
        cases pieceOf (Directive.parse behind).1 letter separators after.position s with
        | error fault => rfl
        | ok result =>
          obtain ⟨piece, s⟩ := result
          cases piece with
          | count argument position => exact ih _ hshort _ _ _ _ hgoes rfl
          | text field =>
            have hnext : after.position + (Piece.text field).length =
                (after.write receiver field).position :=
              (Writer.position_write receiver after field).symm
            dsimp only
            rw [hnext]
            change _ = if (after.write receiver field).stopped then _ else _
            split_ifs with hstopped
            · rfl
            · exact ih _ hshort _ _ _ _ (Bool.eq_false_iff.mpr hstopped) rfl

/-- A piece in front of those that were given. -/
theorem Followed.cons {p : Piece} {o : Outcome}
    (h : Followed receiver fault (t ++ textOf [p]) (notes ++ told [p]) pieces o) :
    Followed receiver fault t notes (p :: pieces) o := by
  cases h with
  | whole h hgoes hshort =>
    rw [List.append_assoc, ← textOf_cons] at h
    rw [List.append_assoc, ← told_append]
    exact .whole h hgoes hshort
  | front hfirst h hstopped =>
    rw [List.append_assoc, ← textOf_cons] at h
    rw [List.append_assoc, ← told_append]
    exact .front (List.cons_prefix_cons.mpr ⟨rfl, hfirst⟩) h hstopped

theorem append_told_nil (notes : List (Nat × Nat)) : notes ++ told [] = notes :=
  List.append_nil notes

theorem Followed.nil (h : w.Taken receiver t) (hgoes : w.stopped = false)
    (hshort : w.pending.length < chunkSize) :
    Followed receiver fault t notes [] ⟨w, notes, fault⟩ := by
  have hend : (⟨w, notes ++ told [], fault⟩ : Outcome) = ⟨w, notes, fault⟩ := by
    rw [append_told_nil]
  rw [← hend]
  exact .whole (by rwa [textOf, List.flatMap_nil, List.append_nil]) hgoes hshort

theorem Followed.of_stopped (h : w.Taken receiver t) (hstopped : w.stopped = true) :
    Followed receiver fault t notes pieces ⟨w, notes, none⟩ := by
  have hend : (⟨w, notes ++ told [], none⟩ : Outcome) = ⟨w, notes, none⟩ := by
    rw [append_told_nil]
  rw [← hend]
  refine .front (List.nil_prefix) ?_ hstopped
  rwa [textOf, List.flatMap_nil, List.append_nil]

/-- A writer takes pieces until the receiver stops it. -/
theorem followed (fault : Option Fault) (h : w.Taken receiver t) (hgoes : w.stopped = false)
    (hshort : w.pending.length < chunkSize) (notes : List (Nat × Nat)) (pieces : List Piece) :
    Followed receiver fault t notes pieces (follow receiver fault w notes pieces) := by
  induction pieces generalizing w t notes with
  | nil => exact .nil h hgoes hshort
  | cons p rest ih =>
    refine .cons ?_
    cases p with
    | count argument position =>
      refine ih ?_ hgoes hshort _
      rwa [textOf, List.flatMap_singleton, List.append_nil]
    | text u =>
      have htext : textOf [.text u] = u := List.append_nil u
      have hnotes : notes ++ told [.text u] = notes := List.append_nil notes
      have hnext := h.write u
      rw [htext, hnotes, follow]
      split_ifs with hstopped
      · exact .of_stopped hnext hstopped
      · have hmore := Bool.eq_false_iff.mpr hstopped
        exact ih hnext hmore (Writer.short_drain receiver _ hmore) notes

/-- A walk over a whole format string gives its pieces to the writer. -/
theorem followed_run (receiver : Receiver) (separators : Separators) (fmt : Text)
    (args : List Argument) :
    Followed receiver (outputOf separators fmt args).fault [] []
      (outputOf separators fmt args).pieces (run receiver separators fmt .start [] ⟨0, args⟩) := by
  rw [run_eq_follow receiver separators fmt .start [] ⟨0, args⟩ rfl]
  exact followed _ (Writer.taken_start receiver) rfl (by decide) [] _

/-- A walk leaves its writer at the end of the pieces that this has taken, all or the first ones,
and what was emitted are the units of the chunks handed over. -/
theorem position_run (receiver : Receiver) (separators : Separators) (fmt : Text)
    (args : List Argument) :
    ∃ front, front <+: (outputOf separators fmt args).pieces ∧
      (run receiver separators fmt .start [] ⟨0, args⟩).notes = told front ∧
      (run receiver separators fmt .start [] ⟨0, args⟩).writer.position = (textOf front).length ∧
      (run receiver separators fmt .start [] ⟨0, args⟩).writer.emitted =
        (run receiver separators fmt .start [] ⟨0, args⟩).writer.chunks.flatten.length := by
  have hrun := followed_run receiver separators fmt args
  generalize run receiver separators fmt .start [] ⟨0, args⟩ = o at hrun ⊢
  cases hrun with
  | whole h => exact ⟨_, List.prefix_rfl, rfl, h.position_eq, h.delivered⟩
  | front hfirst h => exact ⟨_, hfirst, rfl, h.position_eq, h.delivered⟩

/-- A receiver that never stops gets all pieces. -/
theorem stopped_follow (hall : ∀ chunks, receiver chunks = true) (hgoes : w.stopped = false) :
    (follow receiver fault w notes pieces).writer.stopped = false := by
  induction pieces generalizing w notes with
  | nil => exact hgoes
  | cons p rest ih =>
    cases p with
    | count argument position => exact ih hgoes
    | text u =>
      have hnext := (Writer.stopped_write hall w u).trans hgoes
      rw [follow, if_neg (Bool.eq_false_iff.mp hnext)]
      exact ih hnext

/-- A walk for a receiver that never stops gives all pieces to the writer. -/
theorem run_whole (hall : ∀ chunks, receiver chunks = true) (separators : Separators) (fmt : Text)
    (args : List Argument) :
    ∃ w, run receiver separators fmt .start [] ⟨0, args⟩ =
        ⟨w, told (outputOf separators fmt args).pieces, (outputOf separators fmt args).fault⟩ ∧
      w.Taken receiver (textOf (outputOf separators fmt args).pieces) ∧ w.stopped = false := by
  have hrun := followed_run receiver separators fmt args
  have hgoes : (run receiver separators fmt .start [] ⟨0, args⟩).writer.stopped = false := by
    rw [run_eq_follow receiver separators fmt .start [] ⟨0, args⟩ rfl]
    exact stopped_follow hall rfl
  generalize run receiver separators fmt .start [] ⟨0, args⟩ = o at hrun hgoes ⊢
  cases hrun with
  | whole h hnot hshort => exact ⟨_, rfl, h, hnot⟩
  | front hfirst h hstopped =>
    rw [hstopped] at hgoes
    cases hgoes

theorem everything_eq_true (chunks : List Text) : everything chunks = true := rfl

/-- Formatted text is that of all pieces, unless a fault stands behind them. -/
theorem format_eq (separators : Separators) (fmt : Text) (args : List Argument) :
    format separators fmt args =
      match (outputOf separators fmt args).fault with
      | some fault => .error fault
      | none => .ok (textOf (outputOf separators fmt args).pieces) := by
  obtain ⟨w, hrun, htaken, hgoes⟩ := run_whole everything_eq_true separators fmt args
  unfold format collect deliverFormat
  rw [hrun]
  cases (outputOf separators fmt args).fault with
  | some fault => rfl
  | none => exact congrArg Except.ok (htaken.flatten_flush hgoes)

/-- Formatting succeeds when no fault ends the output, and gives the text of the pieces. -/
theorem format_eq_ok_iff {text : Text} {args : List Argument} :
    format separators t args = .ok text ↔ (outputOf separators t args).fault = none ∧
      textOf (outputOf separators t args).pieces = text := by
  rw [format_eq]
  cases (outputOf separators t args).fault with
  | none => simp only [Except.ok.injEq, true_and]
  | some fault => simp only [reduceCtorEq, false_and]

end TextUnits.Format
