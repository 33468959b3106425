import TextUnits.Proofs.Format.Segments

/-!
# Runs over the segments of a format string

What a segment writes depends on the arguments that it takes and on nothing else, but for a counter,
which is told how much was written before. A run gives for every segment the arguments that it takes
and its piece, relative to where the run starts. Formatting succeeds exactly when there is a run
over the segments of the format string, and a run over two parts in a row is a run over each of
them.
-/

namespace TextUnits.Format

/-- A piece of output as it is behind some arguments and some units of other output. -/
def Piece.behind (taken position : Nat) : Piece → Piece
  | text t => text t
  | count argument units => count (taken + argument) (position + units)

/-- Outputs that write the same text, tell the counters the same and end alike. -/
structure Output.Alike (o other : Output) : Prop where
  /-- They write the same text. -/
  text : textOf o.pieces = textOf other.pieces
  /-- They tell the counters the same. -/
  told : Format.told o.pieces = Format.told other.pieces
  /-- They end alike. -/
  fault : o.fault = other.fault

/-- A program succeeds with the given arguments, whatever stands behind them, and takes them all. -/
def Takes {α : Type} (program : Supply → Except Fault (α × Supply)) (used : List Argument)
    (result : α) : Prop :=
  ∀ taken extra, program ⟨taken, used ++ extra⟩ = .ok (result, ⟨taken + used.length, extra⟩)

/-- A program that takes as many arguments as given wherever it succeeds, and depends on those
alone. -/
def Draws {α : Type} (count : Nat) (program : Supply → Except Fault (α × Supply)) : Prop :=
  ∀ s result left, program s = .ok (result, left) → ∃ used, used.length = count ∧
    s.left = used ++ left.left ∧ Takes program used result

section

variable {α β : Type}

theorem draws_ok (result : α) : Draws 0 fun s => .ok (result, s) := by
  rintro s _ _ ⟨⟩
  exact ⟨[], rfl, rfl, fun _ _ => rfl⟩

/-- A program that goes on with another takes the arguments of both. -/
theorem Draws.bind {m n : Nat} {x : Supply → Except Fault (α × Supply)}
    {next : α × Supply → Except Fault (β × Supply)} (hx : Draws m x)
    (hn : ∀ a, Draws n fun s => next (a, s)) : Draws (m + n) fun s => x s >>= next := by
  intro s result left h
  dsimp only at h
  cases hr : x s with
  | error fault =>
    rw [hr] at h
    cases h
  | ok r =>
    obtain ⟨a, middle⟩ := r
    rw [hr] at h
    obtain ⟨first, hfirst, hleft, htakes⟩ := hx s a middle hr
    obtain ⟨second, hsecond, hbehind, hthen⟩ := hn a middle result left h
    refine ⟨first ++ second, ?_, ?_, ?_⟩
    · rw [List.length_append, hfirst, hsecond]
    · rw [hleft, hbehind, List.append_assoc]
    · intro taken extra
      have hnext := hthen (taken + first.length) extra
      dsimp only
      rw [List.append_assoc, htakes, List.length_append, ← Nat.add_assoc, ← hnext]
      rfl

theorem draws_take : Draws 1 Supply.take := by
  rintro ⟨taken, arguments⟩ result left h
  cases arguments with
  | nil => cases h
  | cons a rest =>
    cases h
    exact ⟨[result], rfl, rfl, fun _ _ => rfl⟩

/-- A result that is made without arguments. -/
theorem draws_map (x : Except Fault α) : Draws 0 fun s => x >>= fun a => .ok (a, s) := by
  cases x with
  | error fault =>
    intro s result left h
    cases h
  | ok a => exact draws_ok a

end

/-- A size takes its argument. -/
theorem draws_sizeOf (size : Size) : Draws size.arguments (sizeOf size) := by
  cases size with
  | number n => exact draws_ok _
  | infinite => exact draws_ok _
  | argument =>
    change Draws (1 + 0) fun s => s.take >>= fun r => integerOf 0x2A r.1 >>= fun n => .ok (n, r.2)
    refine draws_take.bind fun a => ?_
    exact draws_map (integerOf 0x2A a)

/-- The sizes of a directive take theirs. -/
theorem draws_resolve (d : Directive) : Draws d.sizeArguments (resolve d) := by
  unfold resolve Directive.sizeArguments
  refine (draws_sizeOf d.width).bind fun width => ?_
  cases d.precision with
  | none =>
    dsimp only
    exact draws_ok _
  | some size =>
    change Draws (size.arguments + 0) _
    dsimp only
    refine (draws_sizeOf size).bind fun precision => ?_
    exact draws_ok (Resolved.mk _ _ (if precision < 0 then none else some precision.toNat) _)

/-- The piece that a conversion makes of its argument, as it is at the start of the output and
behind no other arguments. -/
def valuePiece (c : Conversion) (letter : UInt16) (r : Resolved) (separators : Separators)
    (a : Argument) : Except Fault Piece :=
  match c with
  | .count =>
    match a with
    | .counter _ => .ok (.count 0 0)
    | _ => .error (mismatch letter a)
  | .pointer => do
    let field ← fieldOf .pointer letter r separators a
    return .text (field.layout r.width { r.flags with zeroPad := false })
  | c => do
    let field ← fieldOf c letter r separators a
    return .text (field.layout r.width r.flags)

/-- A directive takes its sizes first and then, unless it stands for itself, its value. -/
theorem pieceOf_eq (d : Directive) (letter : UInt16) (separators : Separators) (position : Nat)
    (s : Supply) :
    pieceOf d letter separators position s = resolve d s >>= fun resolved =>
      if conversionOf letter = .literal then
        .ok (.text ((Field.ofText [letter]).layout resolved.1.width resolved.1.flags), resolved.2)
      else resolved.2.take >>= fun taken =>
        valuePiece (conversionOf letter) letter resolved.1 separators taken.1 >>= fun piece =>
          .ok (piece.behind resolved.2.taken position, taken.2) := by
  unfold pieceOf
  cases resolve d s with
  | error fault => rfl
  | ok resolved =>
    obtain ⟨r, s⟩ := resolved
    simp only [bind, Except.bind]
    by_cases hliteral : conversionOf letter = .literal
    · rw [if_pos hliteral, hliteral]
      rfl
    · rw [if_neg hliteral]
      cases s.take with
      | error fault =>
        cases hc : conversionOf letter with
        | literal => exact absurd hc hliteral
        | _ => rfl
      | ok taken =>
        obtain ⟨a, rest⟩ := taken
        dsimp only
        cases hc : conversionOf letter with
        | literal => exact absurd hc hliteral
        | count => cases a <;> rfl
        | _ =>
          dsimp only [valuePiece, bind, Except.bind]
          cases fieldOf _ letter r separators a <;> rfl

theorem Piece.behind_behind (p : Piece) (taken position further units : Nat) :
    (p.behind taken position).behind further units =
      p.behind (further + taken) (units + position) := by
  cases p with
  | text t => rfl
  | count argument before => simp only [behind, Nat.add_assoc]

theorem Piece.behind_zero (p : Piece) : p.behind 0 0 = p := by
  cases p with
  | text t => rfl
  | count argument before => simp only [behind, Nat.zero_add]

/-- A directive makes a piece of the arguments that it takes, the same wherever it stands. -/
def Makes (separators : Separators) (d : Directive) (letter : UInt16) (used : List Argument)
    (piece : Piece) : Prop :=
  ∀ position taken extra, pieceOf d letter separators position ⟨taken, used ++ extra⟩ =
    .ok (piece.behind taken position, ⟨taken + used.length, extra⟩)

/-- A directive that succeeds takes its sizes and, unless it stands for itself, a value. -/
theorem pieceOf_cases {d : Directive} {letter : UInt16} {separators : Separators} {position : Nat}
    {s left : Supply} {piece : Piece}
    (h : pieceOf d letter separators position s = .ok (piece, left)) :
    ∃ r sizes, sizes.length = d.sizeArguments ∧ Takes (resolve d) sizes r ∧
      ((conversionOf letter = .literal ∧ s.left = sizes ++ left.left ∧
          piece = .text ((Field.ofText [letter]).layout r.width r.flags)) ∨
        ∃ a value, conversionOf letter ≠ .literal ∧ s.left = sizes ++ a :: left.left ∧
          valuePiece (conversionOf letter) letter r separators a = .ok value ∧
          piece = value.behind (s.taken + d.sizeArguments) position) := by
  rw [pieceOf_eq] at h
  cases hr : resolve d s with
  | error fault =>
    rw [hr] at h
    cases h
  | ok resolved =>
    obtain ⟨r, middle⟩ := resolved
    obtain ⟨sizes, hsizes, hleft, hresolve⟩ := draws_resolve d s r middle hr
    have hmiddle : middle.taken = s.taken + d.sizeArguments := by
      have hsame := hresolve s.taken middle.left
      rw [← hleft, hr, Except.ok.injEq, Prod.mk.injEq] at hsame
      rw [hsame.2, hsizes]
    refine ⟨r, sizes, hsizes, hresolve, ?_⟩
    rw [hr] at h
    change (if conversionOf letter = .literal then _ else _) = _ at h
    by_cases hliteral : conversionOf letter = .literal
    · rw [if_pos hliteral] at h
      cases h
      exact .inl ⟨hliteral, hleft, rfl⟩
    · rw [if_neg hliteral] at h
      obtain ⟨taken, arguments⟩ := middle
      cases arguments with
      | nil => cases h
      | cons a rest =>
        change (valuePiece (conversionOf letter) letter r separators a >>= fun piece =>
          .ok (piece.behind taken position, Supply.mk (taken + 1) rest)) = _ at h
        cases hv : valuePiece (conversionOf letter) letter r separators a with
        | error fault =>
          rw [hv] at h
          cases h
        | ok value =>
          rw [hv] at h
          cases h
          exact .inr ⟨a, value, hliteral, hleft, hv, congrArg (value.behind · position) hmiddle⟩

/-- A directive that succeeds makes its piece of the arguments that it takes alone. -/
theorem exists_makes {d : Directive} {letter : UInt16} {separators : Separators}
    {position : Nat} {s left : Supply} {piece : Piece} (hd : d.conversion = some letter)
    (h : pieceOf d letter separators position s = .ok (piece, left)) :
    ∃ used relative, used.length = d.arguments ∧ s.left = used ++ left.left ∧
      Makes separators d letter used relative := by
  have hcount : d.arguments =
      d.sizeArguments + if conversionOf letter = .literal then 0 else 1 := by
    rw [Directive.arguments, hd]
  obtain ⟨r, sizes, hsizes, hresolve, ⟨hliteral, hleft, -⟩ | ⟨a, value, hliteral, hleft, hv, -⟩⟩ :=
    pieceOf_cases h
  · rw [if_pos hliteral] at hcount
    refine ⟨sizes, .text ((Field.ofText [letter]).layout r.width r.flags),
      hsizes.trans hcount.symm, hleft, ?_⟩
    intro position taken extra
    rw [pieceOf_eq, hresolve]
    exact if_pos hliteral
  · rw [if_neg hliteral] at hcount
    refine ⟨sizes ++ [a], value.behind d.sizeArguments 0, ?_, ?_, ?_⟩
    · rw [List.length_append, hsizes, hcount, List.length_singleton]
    · rw [hleft, List.append_assoc]
      rfl
    · intro position taken extra
      rw [pieceOf_eq, List.append_assoc, hresolve, List.length_append, hsizes, Piece.behind_behind,
        Nat.add_zero]
      change (if conversionOf letter = .literal then _ else
        valuePiece (conversionOf letter) letter r separators a >>= fun piece =>
          .ok (piece.behind (taken + d.sizeArguments) position,
            Supply.mk (taken + d.sizeArguments + 1) extra)) = _
      rw [if_neg hliteral, hv]
      rfl

/-- What a segment makes of the arguments that it takes, at the start of the output. -/
inductive Segment.Gives (separators : Separators) : Segment → List Argument → Piece → Prop
  /-- A unit that stands for itself is written. -/
  | literal (u : UInt16) : Gives separators (.literal u) [] (.text [u])
  /-- A directive that is cut off writes nothing. -/
  | cut {units : Text} {d : Directive} (hd : d.conversion = none) :
    Gives separators (.directive units d) [] (.text [])
  /-- A directive makes the same piece wherever it stands. -/
  | value {units : Text} {d : Directive} {letter : UInt16} {used : List Argument} {piece : Piece}
    (hd : d.conversion = some letter) (hused : used.length = d.arguments)
    (h : Makes separators d letter used piece) :
    Gives separators (.directive units d) used piece

/-- Segments take the given arguments together and make the given pieces of them, in the order in
which they stand. -/
inductive Runs (separators : Separators) : List Segment → List Argument → List Piece → Prop
  /-- There are no segments. -/
  | nil : Runs separators [] [] []
  /-- A segment, and what stands behind it. -/
  | cons {s : Segment} {parts : List Segment} {used later : List Argument} {piece : Piece}
    {pieces : List Piece} (hs : s.Gives separators used piece)
    (h : Runs separators parts later pieces) :
    Runs separators (s :: parts) (used ++ later)
      (piece :: pieces.map (Piece.behind used.length piece.length))

theorem length_textOf_singleton (p : Piece) : (textOf [p]).length = p.length := by
  cases p with
  | text t => exact congrArg List.length (List.append_nil t)
  | count argument position => rfl

/-- Pieces write the same wherever they stand. -/
theorem textOf_behind (taken position : Nat) (pieces : List Piece) :
    textOf (pieces.map (Piece.behind taken position)) = textOf pieces := by
  induction pieces with
  | nil => rfl
  | cons p rest ih =>
    rw [List.map_cons, textOf_cons, ih, textOf_cons p rest]
    cases p <;> rfl

/-- Pieces that stand further behind name later arguments and tell them more. -/
theorem told_behind (taken position : Nat) (pieces : List Piece) :
    told (pieces.map (Piece.behind taken position)) =
      (told pieces).map fun n => (taken + n.1, position + n.2) := by
  induction pieces with
  | nil => rfl
  | cons p rest ih =>
    cases p with
    | text t => exact ih
    | count argument before => exact congrArg (_ :: ·) ih

theorem map_behind_behind (taken position further units : Nat) (pieces : List Piece) :
    (pieces.map (Piece.behind taken position)).map (Piece.behind further units) =
      pieces.map (Piece.behind (further + taken) (units + position)) := by
  rw [List.map_map]
  exact List.map_congr_left fun p _ => p.behind_behind taken position further units

theorem map_behind_zero (pieces : List Piece) : pieces.map (Piece.behind 0 0) = pieces :=
  (List.map_congr_left fun p _ => p.behind_zero).trans (List.map_id pieces)

section

variable {separators : Separators} {used : List Argument} {pieces : List Piece}

/-- A segment takes as many arguments as its form says. -/
theorem Segment.Gives.length {s : Segment} {piece : Piece} (h : s.Gives separators used piece) :
    used.length = s.arguments := by
  cases h with
  | literal u => rfl
  | cut hd => rw [Segment.arguments, Directive.arguments, hd, List.length_nil]
  | value hd hused h => exact hused

/-- Segments take as many arguments as their forms say. -/
theorem Runs.length {parts : List Segment} (h : Runs separators parts used pieces) :
    used.length = argumentsOf parts := by
  induction h with
  | nil => rfl
  | cons hs h ih =>
    rw [List.length_append, hs.length, ih]
    rfl

/-- A run over two rows of segments is a run over each of them. -/
theorem Runs.split {before behind : List Segment}
    (h : Runs separators (before ++ behind) used pieces) :
    ∃ first second front back, used = first ++ second ∧ Runs separators before first front ∧
      Runs separators behind second back ∧
      pieces = front ++ back.map (Piece.behind first.length (textOf front).length) := by
  induction before generalizing used pieces with
  | nil => exact ⟨[], used, [], pieces, rfl, .nil, h, (map_behind_zero pieces).symm⟩
  | cons s rest ih =>
    cases h with
    | cons hs h =>
      rename_i taken later piece pieces
      obtain ⟨first, second, front, back, rfl, hfront, hback, rfl⟩ := ih h
      refine ⟨taken ++ first, second, _, back, (List.append_assoc _ _ _).symm, .cons hs hfront,
        hback, ?_⟩
      rw [List.map_append, map_behind_behind, textOf_cons, textOf_behind, List.length_append,
        List.length_append, length_textOf_singleton]
      rfl

end

/-- A literal unit belongs to the literal text in front of the first directive. -/
theorem literalRun_cons {u : UInt16} (hu : u ≠ 0x25) (rest : Text) :
    literalRun (u :: rest) = (u :: (literalRun rest).1, (literalRun rest).2) := by
  unfold literalRun
  rw [Text.cut?, if_neg hu]
  cases Text.cut? 0x25 rest with
  | none => rfl
  | some sides => rfl

theorem literalRun_percent (rest : Text) : literalRun (0x25 :: rest) = ([], some rest) := by
  unfold literalRun
  rw [Text.cut?, if_pos rfl]

namespace Output

theorem Alike.trans {o middle other : Output} (h : o.Alike middle) (h' : middle.Alike other) :
    o.Alike other :=
  ⟨h.text.trans h'.text, h.told.trans h'.told, h.fault.trans h'.fault⟩

/-- Outputs that are alike are so behind one piece more. -/
theorem Alike.push {o other : Output} (h : o.Alike other) (p : Piece) :
    (o.push p).Alike (other.push p) := by
  refine ⟨?_, ?_, h.fault⟩
  · change textOf (p :: o.pieces) = textOf (p :: other.pieces)
    rw [textOf_cons, h.text, ← textOf_cons]
  · change Format.told ([p] ++ o.pieces) = Format.told ([p] ++ other.pieces)
    rw [told_append, h.told, ← told_append]

/-- A text that is written together with its first unit, or behind it. -/
theorem alike_pushText_cons (u : UInt16) (t : Text) (o : Output) :
    (pushText (u :: t) o).Alike ((pushText t o).push (.text [u])) := by
  cases t with
  | nil => exact ⟨rfl, rfl, rfl⟩
  | cons v rest =>
    refine ⟨?_, rfl, rfl⟩
    change textOf (.text (u :: v :: rest) :: o.pieces) =
      textOf (.text [u] :: .text (v :: rest) :: o.pieces)
    simp only [textOf, List.flatMap_cons, List.cons_append, List.nil_append]

end Output

/-- A literal unit is written in front of the output of what stands behind it. -/
theorem output_literal (separators : Separators) {u : UInt16} (hu : u ≠ 0x25) (rest : Text)
    (position : Nat) (s : Supply) :
    (output separators (u :: rest) position s).Alike
      ((output separators rest (position + 1) s).push (.text [u])) := by
  rw [output_eq, output_eq separators rest, literalRun_cons hu]
  rcases literalRun rest with ⟨before, _ | behind⟩
  · exact Output.alike_pushText_cons u before _
  · have hplace : position + (u :: before).length = position + 1 + before.length := by
      rw [List.length_cons]
      omega
    dsimp only
    rw [hplace]
    exact Output.alike_pushText_cons u before _

/-- Output of a directive, and behind it that of what stands behind the directive. -/
theorem output_directive (separators : Separators) (rest : Text) (position : Nat) (s : Supply) :
    output separators (0x25 :: rest) position s =
      match (Directive.parse rest).1.conversion with
      | none => ⟨[], none⟩
      | some letter =>
        match pieceOf (Directive.parse rest).1 letter separators position s with
        | .error fault => ⟨[], some fault⟩
        | .ok (piece, s) =>
          (output separators (Directive.parse rest).2 (position + piece.length) s).push piece := by
  rw [output_eq, literalRun_percent]
  rfl

theorem Piece.length_behind (p : Piece) (taken position : Nat) :
    (p.behind taken position).length = p.length := by
  cases p <;> rfl

/-- A run over the segments of a format string gives its output, wherever it stands. -/
theorem output_of_runs {separators : Separators} {t : Text} {used : List Argument}
    {pieces : List Piece} (h : Runs separators (segments t) used pieces) (position taken : Nat)
    (extra : List Argument) :
    (output separators t position ⟨taken, used ++ extra⟩).Alike
      ⟨pieces.map (Piece.behind taken position), none⟩ := by
  induction t using segments.induct generalizing used pieces position taken with
  | case1 =>
    rw [segments_nil] at h
    cases h
    rw [output_eq]
    exact ⟨rfl, rfl, rfl⟩
  | @case2 rest parsed ih =>
    rw [segments_cons, if_pos rfl] at h
    cases h with
    | cons hs h =>
      rename_i first later piece pieces
      rw [output_directive, List.map_cons, map_behind_behind]
      cases hs with
      | cut hd =>
        rw [hd]
        have hnil := Directive.behind_of_cut hd
        rw [hnil, segments_nil] at h
        cases h
        exact ⟨rfl, rfl, rfl⟩
      | value hd hused hvalue =>
        rw [hd, List.append_assoc]
        dsimp only
        rw [hvalue]
        dsimp only
        rw [Piece.length_behind]
        exact (ih h _ _).push _
  | case3 u rest hu ih =>
    rw [segments_cons, if_neg hu] at h
    cases h with
    | cons hs h =>
      cases hs
      rw [List.map_cons, map_behind_behind]
      exact (output_literal separators hu rest position _).trans ((ih h _ _).push _)

/-- Output without a fault comes from a run over the segments of the format string. -/
theorem exists_runs {separators : Separators} {t : Text} {position : Nat} {s : Supply}
    (h : (output separators t position s).fault = none) :
    ∃ used extra pieces, s.left = used ++ extra ∧ Runs separators (segments t) used pieces := by
  induction t using segments.induct generalizing position s with
  | case1 =>
    rw [segments_nil]
    exact ⟨[], s.left, [], rfl, .nil⟩
  | @case2 rest parsed ih =>
    rw [segments_cons, if_pos rfl]
    rw [output_directive] at h
    cases hd : (Directive.parse rest).1.conversion with
    | none =>
      rw [Directive.behind_of_cut hd, segments_nil]
      exact ⟨[], s.left, _, rfl, .cons (.cut hd) .nil⟩
    | some letter =>
      rw [hd] at h
      dsimp only at h
      cases hp : pieceOf (Directive.parse rest).1 letter separators position s with
      | error fault =>
        rw [hp] at h
        cases h
      | ok result =>
        obtain ⟨piece, left⟩ := result
        rw [hp] at h
        obtain ⟨used, relative, hused, hleft, hvalue⟩ := exists_makes hd hp
        obtain ⟨later, extra, pieces, hlater, hruns⟩ := ih h
        refine ⟨used ++ later, extra, _, ?_, .cons (.value hd hused hvalue) hruns⟩
        rw [hleft, hlater, List.append_assoc]
  | case3 u rest hu ih =>
    rw [segments_cons, if_neg hu]
    rw [(output_literal separators hu rest position s).fault] at h
    obtain ⟨used, extra, pieces, hleft, hruns⟩ := ih h
    exact ⟨used, extra, _, hleft, .cons (.literal u) hruns⟩

/-- A format string with a run is formatted, whatever arguments are left over. -/
theorem format_of_runs {separators : Separators} {t : Text} {used : List Argument}
    {pieces : List Piece} (h : Runs separators (segments t) used pieces) (extra : List Argument) :
    format separators t (used ++ extra) = .ok (textOf pieces) ∧
      told (outputOf separators t (used ++ extra)).pieces = told pieces := by
  have halike := output_of_runs h 0 0 extra
  rw [map_behind_zero] at halike
  exact ⟨format_eq_ok_iff.mpr ⟨halike.fault, halike.text⟩, halike.told⟩

/-- What is formatted has a run. -/
theorem exists_runs_of_format {separators : Separators} {t text : Text} {args : List Argument}
    (h : format separators t args = .ok text) :
    ∃ used extra pieces, args = used ++ extra ∧ Runs separators (segments t) used pieces :=
  exists_runs (format_eq_ok_iff.mp h).1

end TextUnits.Format
