import TextUnits.Ascii

/-!
# Paths

A path is a text whose segments are separated by `/` or `\`. A path that starts with a separator
has an empty segment at its start, the root; apart from it segments are not empty. Segments are
walked forwards from `first?` by `next?` and backwards from `last?` by `previous?`.
-/

namespace TextUnits.Path

/-- Whether a unit separates segments. -/
def isSeparator (u : UInt16) : Bool := u == 0x2F || u == 0x5C

/-- A stretch of a path. -/
structure Segment where
  /-- Units of the path in front of it. -/
  offset : Nat
  /-- Its units. -/
  length : Nat
  deriving DecidableEq, Repr

/-- Units of the path up to the end of a segment. -/
def Segment.finish (s : Segment) : Nat := s.offset + s.length

/-- Text of a segment. -/
def Segment.text (s : Segment) (path : Text) : Text := (path.drop s.offset).take s.length

/-- The segment that starts at an offset. -/
def segmentAt (path : Text) (offset : Nat) : Segment :=
  ⟨offset, Sequence.run (fun u => !isSeparator u) (path.drop offset)⟩

/-- The first segment; an empty path has none. -/
def first? (path : Text) : Option Segment :=
  if path.isEmpty then none else some (segmentAt path 0)

/-- The segment behind a segment. -/
def next? (path : Text) (s : Segment) : Option Segment :=
  let offset := s.finish + Sequence.run isSeparator (path.drop s.finish)
  if offset < path.length then some (segmentAt path offset) else none

/-- The segment in front of an offset: the root when only separators stand there, and none in
front of the start. -/
def before? (path : Text) (offset : Nat) : Option Segment :=
  if offset = 0 then none
  else
    let front := path.take offset
    let finish := offset - Sequence.run isSeparator front.reverse
    if finish = 0 then some ⟨0, 0⟩
    else
      let length := Sequence.run (fun u => !isSeparator u) (path.take finish).reverse
      some ⟨finish - length, length⟩

/-- The segment in front of a segment. -/
def previous? (path : Text) (s : Segment) : Option Segment := before? path s.offset

/-- The last segment; separators at the end are passed over. -/
def last? (path : Text) : Option Segment :=
  if path.isEmpty then none else before? path path.length

/-- Segments from one on to the end of the path. -/
def forward (path : Text) : Option Segment → List Segment
  | none => []
  | some s =>
    s :: (match _next : next? path s with
      | none => []
      | some t => if s.finish < t.finish then forward path (some t) else [])
termination_by s => match s with
  | none => 0
  | some s => path.length + 1 - s.finish
decreasing_by
  have bound : s.finish < path.length := by
    unfold next? at _next
    dsimp only at _next
    split at _next
    · omega
    · simp at _next
  omega

/-- Segments of a path from the first to the last. -/
def segments (path : Text) : List Segment := forward path (first? path)

/-- Segments from one back to the start of the path. -/
def backward (path : Text) : Option Segment → List Segment
  | none => []
  | some s =>
    s :: (match previous? path s with
      | none => []
      | some t => if t.offset < s.offset then backward path (some t) else [])
termination_by s => match s with
  | none => 0
  | some s => s.offset + 1

/-- What a pass over a path has seen. -/
structure Marks where
  /-- Units passed. -/
  passed : Nat
  /-- Units up to the last `.` and with it; 0 without one. -/
  dot : Nat
  /-- Units up to the last separator and with it; 0 without one. -/
  separator : Nat
  deriving DecidableEq, Repr

/-- The pass goes over one more unit. -/
def Marks.pass (m : Marks) (u : UInt16) : Marks :=
  let passed := m.passed + 1
  if u = 0x2E then ⟨passed, passed, m.separator⟩
  else if isSeparator u then ⟨passed, m.dot, passed⟩
  else ⟨passed, m.dot, m.separator⟩

/-- What one pass over a whole path sees. -/
def marks (path : Text) : Marks := path.foldl Marks.pass ⟨0, 0, 0⟩

/-- Text behind the last `.` when no separator stands behind it; empty otherwise. -/
def extension (path : Text) : Text :=
  if (marks path).separator < (marks path).dot then path.drop (marks path).dot else []

/-- Whether a path has an extension, whatever the case of ASCII letters. -/
def hasExtension (path ext : Text) : Bool := Ascii.compareFolded (extension path) ext == 0

end TextUnits.Path
