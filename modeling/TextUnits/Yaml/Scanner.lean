import TextUnits.Yaml.Quote
import TextUnits.Yaml.Token

/-!
# The pieces of a document

The scanner keeps the indentation that lines of a scalar or of a bracketed collection need to go
on. What it does not know is refused: anchors, aliases, tags, block scalars, explicit keys and
directives.
-/

namespace TextUnits.Yaml

/-- State of the scanner. -/
structure Scanner where
  /-- Whether no document has begun. -/
  between : Bool
  /-- Indentation of the line, counted up to the entry that its leading indicators start. -/
  indent : Nat
  /-- Indentation that a line needs to belong to what was begun. -/
  least : Nat
  /-- Brackets that are open. -/
  depth : Nat
  /-- Whether a quoted scalar or a closing bracket was the last to stand in brackets. -/
  closed : Bool

/-- Whether a unit has a meaning of its own inside brackets. -/
def isFlowIndicator (u : UInt16) : Bool :=
  u = Text.unit ',' || u = Text.unit '[' || u = Text.unit ']' || u = Text.unit '{' ||
    u = Text.unit '}'

/-- Whether a unit can not start an unquoted scalar. -/
def isReserved (u : UInt16) : Bool :=
  [',', ']', '}', '&', '*', '!', '|', '>', '%', '@', '`'].any fun c => Text.unit c = u

/-- Whether an indicator ends in front of a text: a blank follows or, inside brackets, a unit
with a meaning of its own. -/
def separates (flow : Bool) (t : Text) : Bool := atBlank t || flow && t.head?.any isFlowIndicator

/-- Whether an unquoted scalar ends in front of a text that follows a blank in it. -/
def endsPlain (flow : Bool) (t : Text) : Bool :=
  t.head? = some (Text.unit '#') || flow && t.head?.any isFlowIndicator

/-- Units of the unquoted scalar at the front. It ends in front of a colon that separates, of a
comment, of a line that does not go on with it and, inside brackets, of a unit with a meaning of
its own; blanks at its end do not belong to it. -/
def plainLength (flow : Bool) (least : Nat) : Text → Nat
  | [] => 0
  | u :: rest =>
    if u = Text.unit ':' then
      if separates flow rest then 0 else plainLength flow least rest + 1
    else if u = 0x0D then
      if endsPlain flow rest then 1 else plainLength flow least rest + 1
    else if isBlank u ∨ u = 0x0A then
      if endsPlain flow rest ∨ u = 0x0A ∧ !continues least rest then 0
      else
        match plainLength flow least rest with
        | 0 => 0
        | n + 1 => n + 2
    else if flow ∧ isFlowIndicator u then 0
    else plainLength flow least rest + 1

/-- A piece of some units, unless there are none. -/
def pieceOf (kind : Kind) (t : Text) : List Piece := if t.isEmpty then [] else [⟨kind, t⟩]

/-- What one step of the scanner gives: pieces in order, the next state and what is left. -/
abbrev Found := List Piece × Scanner × Text

/-- What is found behind some pieces. -/
def Found.behind (ps : List Piece) (f : Found) : Found := (ps ++ f.1, f.2)

namespace Scanner

/-- The state in front of a text. -/
def initial : Scanner := ⟨true, 0, 0, 0, false⟩

/-- Whether brackets are open. -/
def inFlow (s : Scanner) : Bool := 0 < s.depth

/-- Steps over the indicators at the front and the blanks behind each. What follows must be
indented further than the line; indicators that lead their line add to its indentation. -/
def indicators (s : Scanner) (leads : Bool) : Text → Option Found
  | [] => some ([], s, [])
  | u :: rest =>
    let kind? : Option Kind :=
      if u = Text.unit '-' then some .dash
      else if u = Text.unit ':' then some .colon
      else none
    let blanks := rest.takeWhile isBlank
    if !atBlank rest then some ([], s, u :: rest)
    else
      match kind? with
      | some kind =>
        let next := { s with
          indent := if leads then s.indent + 1 + blanks.length else s.indent
          least := s.indent + 1 }
        (next.indicators leads (rest.dropWhile isBlank)).map
          (Found.behind (⟨kind, [u]⟩ :: pieceOf .blanks blanks))
      | none => if u = Text.unit '?' then none else some ([], s, u :: rest)
termination_by t => t.length
decreasing_by
  have shorter := (List.dropWhile_sublist isBlank (l := rest)).length_le
  simp only [List.length_cons]
  omega

/-- Steps from the start of a line to its content. A line of which more than one unit is known
lowers the indentation that is needed to its own. -/
def lineStart (s : Scanner) (t : Text) : Option Found :=
  if atDocumentMark t then
    let starts := Sequence.begins (Text.ofString "---") t
    let next := { s with
      between := !starts
      indent := 0
      least := 0 }
    some ([⟨if starts then .documentStart else .documentEnd, t.take 3⟩], next, t.drop 3)
  else
    let indent := Sequence.run (· == 0x20) t
    let content := t.drop indent
    let here := { s with
      indent := indent
      least := if atBlank (content.drop 1) then s.least else min s.least indent }
    (here.indicators true content).map (Found.behind (pieceOf .blanks (t.take indent)))

/-- Steps over a piece that a state follows. -/
def passing (s : Scanner) (kind : Kind) (count : Nat) (t : Text) : Found :=
  ([⟨kind, t.take count⟩], s, t.drop count)

/-- Steps over a comment. -/
def comment (s : Scanner) (t : Text) : Found :=
  s.passing .comment (Sequence.run (· != 0x0A) t) t

/-- Steps over an opening bracket. -/
def opening (s : Scanner) (kind : Kind) (t : Text) : Found :=
  let next := { s with
    depth := s.depth + 1
    closed := false }
  next.passing kind 1 t

/-- Steps over a closing bracket. -/
def closing (s : Scanner) (kind : Kind) (t : Text) : Found :=
  let next := { s with
    depth := s.depth - 1
    closed := true }
  next.passing kind 1 t

/-- Steps over a scalar, which starts with a given unit. -/
def scalar (s : Scanner) (u : UInt16) (rest : Text) : Option Found :=
  let quoted := { s with closed := true }
  let unquoted := { s with closed := false }
  if u = Text.unit '"' ∨ u = Text.unit '\'' then
    let kind : Kind := if u = Text.unit '"' then .doubleQuoted else .singleQuoted
    some (quoted.passing kind (quotedLength s.least u rest + 1) (u :: rest))
  else if isReserved u then none
  else
    some (unquoted.passing .plain (plainLength s.inFlow s.least (u :: rest)) (u :: rest))

/-- Steps to the content of a line in brackets. Its indentation must suffice, but the last
closing bracket may stand one further left. -/
def flowLine (s : Scanner) (t : Text) : Option Found :=
  let indent := Sequence.run (· == 0x20) t
  let behind := t.drop indent
  let content := behind.dropWhile isBlank
  let closes := s.depth = 1 ∧
    (content.head? = some (Text.unit ']') ∨ content.head? = some (Text.unit '}'))
  let free := content.isEmpty ∨ content.head? = some 0x0A ∨ content.head? = some (Text.unit '#')
  let found : Found :=
    (⟨.newline, [0x0A]⟩ :: pieceOf .blanks (t.take indent) ++
      pieceOf .blanks (behind.takeWhile isBlank), { s with indent := indent }, content)
  if free ∨ indent + 1 = s.least ∧ closes then some found
  else if indent < s.least ∨ indent = 0 ∧ atDocumentMark content then none
  else some found

/-- One step inside brackets. -/
def flowStep (s : Scanner) : Text → Option Found
  | [] => some ([], s, [])
  | u :: rest =>
    let t := u :: rest
    let apart := { s with closed := false }
    if u = 0x0A then s.flowLine rest
    else if isBlank u then some (s.passing .blanks (Sequence.run isBlank t) t)
    else if u = Text.unit ',' then some (apart.passing .comma 1 t)
    else if u = Text.unit ':' ∧ (separates true rest ∨ s.closed) then
      some (apart.passing .colon 1 t)
    else if (u = Text.unit '-' ∨ u = Text.unit '?') ∧ separates true rest then none
    else if u = Text.unit '#' then some (s.comment t)
    else if u = Text.unit '[' then some (s.opening .listOpen t)
    else if u = Text.unit '{' then some (s.opening .recordOpen t)
    else if u = Text.unit ']' then some (s.closing .listClose t)
    else if u = Text.unit '}' then some (s.closing .recordClose t)
    else s.scalar u rest

/-- One step outside brackets, behind blanks and indicators. -/
def contentStep (s : Scanner) : Text → Option Found
  | [] => some ([], s, [])
  | u :: rest =>
    let t := u :: rest
    if u = 0x0A then (s.lineStart rest).map (Found.behind [⟨.newline, [u]⟩])
    else if u = Text.unit '#' then some (s.comment t)
    else if u = Text.unit '[' then some (s.opening .listOpen t)
    else if u = Text.unit '{' then some (s.opening .recordOpen t)
    else s.scalar u rest

/-- One step outside brackets. -/
def blockStep (s : Scanner) (t : Text) : Option Found := do
  let blanks := t.takeWhile isBlank
  let (marks, here, left) ← s.indicators false (t.dropWhile isBlank)
  let found ← here.contentStep left
  return found.behind (pieceOf .blanks blanks ++ marks)

/-- One step between documents: over an empty line or a comment, or to the content of the first
line that holds some. -/
def betweenStep (s : Scanner) (t : Text) : Option Found :=
  let (marks, t) : List Piece × Text := match t with
    | 0xFEFF :: rest => ([⟨.mark, [0xFEFF]⟩], rest)
    | t => ([], t)
  let layout := marks ++ pieceOf .blanks (t.takeWhile isBlank)
  let left := t.dropWhile isBlank
  match left with
  | [] => some (layout, s, [])
  | u :: rest =>
    if u = 0x0A then some (layout ++ [⟨.newline, [u]⟩], s, rest)
    else if u = Text.unit '#' then some ((s.comment left).behind layout)
    else if t.head? = some (Text.unit '%') then none
    else
      let begun : List Piece := marks ++ [⟨.contentStart, []⟩]
      ({ s with between := false }.lineStart t).map (Found.behind begun)

/-- One step from a text that is not empty. -/
def step (s : Scanner) (t : Text) : Option Found :=
  if s.between then s.betweenStep t
  else if s.inFlow then s.flowStep t
  else s.blockStep t

/-- All pieces from a place on, found in at most so many steps. -/
def scan? : Nat → Scanner → Text → Option (List Piece)
  | _, _, [] => some []
  | 0, _, _ :: _ => none
  | n + 1, s, u :: rest => do
    let (found, next, left) ← s.step (u :: rest)
    return found ++ (← scan? n next left)

/-- All pieces of a text. Every step takes a unit, but one may begin a document in front of
it, so there are at most two for each unit. -/
def pieces? (t : Text) : Option (List Piece) := scan? (2 * t.length) initial t

end Scanner

/-- Text with every line ended by a single unit. -/
def unifyLineEnds : Text → Text
  | 0x0D :: 0x0A :: rest => 0x0A :: unifyLineEnds rest
  | u :: rest => u :: unifyLineEnds rest
  | [] => []

/-- All tokens of a text. -/
def tokens? (t : Text) : Option (List Token) :=
  (Scanner.pieces? (unifyLineEnds t)).map (placed ⟨0, 0, true⟩)

end TextUnits.Yaml
