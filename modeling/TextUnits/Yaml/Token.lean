import TextUnits.Yaml.Scalar

/-!
# Tokens of YAML

A document is a sequence of pieces: scalars, indicators and the layout between them. Block
collections are told apart by indentation, so each token knows the indentation of its line up to
itself, which leading dashes and colons add to.
-/

namespace TextUnits.Yaml

/-- What a piece of a document is. -/
inductive Kind where
  /-- A byte order mark. -/
  | mark
  /-- The place where a document starts without a line of its own. -/
  | contentStart
  /-- A line that starts a document. -/
  | documentStart
  /-- A line that ends a document. -/
  | documentEnd
  /-- The end of a line. -/
  | newline
  /-- Blanks and tabs. -/
  | blanks
  /-- A comment up to the end of its line. -/
  | comment
  /-- A dash in front of an entry. -/
  | dash
  /-- A colon between a key and its value. -/
  | colon
  /-- A comma between entries in brackets. -/
  | comma
  /-- The opening bracket of a list. -/
  | listOpen
  /-- The closing bracket of a list. -/
  | listClose
  /-- The opening brace of a record. -/
  | recordOpen
  /-- The closing brace of a record. -/
  | recordClose
  /-- A scalar without quotes. -/
  | plain
  /-- A scalar in single quotes. -/
  | singleQuoted
  /-- A scalar in double quotes. -/
  | doubleQuoted
  deriving DecidableEq, Repr

/-- Whether a piece only lays out a document. -/
def Kind.isLayout : Kind → Bool
  | newline | blanks | comment => true
  | _ => false

/-- A piece of a document. -/
structure Piece where
  /-- What it is. -/
  kind : Kind
  /-- How it is written. -/
  text : Text

/-- A piece at its place. -/
structure Token extends Piece where
  /-- Units in front of it. -/
  place : Nat
  /-- Indentation in front of it. -/
  indent : Nat

/-- Whether some tokens hold one of a kind. -/
def holds (kind : Kind) (ts : List Token) : Bool := ts.any (·.kind = kind)

/-- A place in a document. -/
structure Margin where
  /-- Units in front of it. -/
  place : Nat
  /-- Indentation in front of it. -/
  indent : Nat
  /-- Whether only blanks, dashes and colons stand in front of it in its line. -/
  leads : Bool

/-- The place behind a piece. Blanks at the start of a line indent it unless a tab is the first
of them; so do the dashes and colons that lead it. -/
def Margin.behind (m : Margin) (p : Piece) : Margin :=
  let place := m.place + p.text.length
  match p.kind with
  | .newline => ⟨place, 0, true⟩
  | .blanks =>
    if m.leads ∧ p.text.head? = some 0x20 then ⟨place, m.indent + p.text.length, true⟩
    else ⟨place, m.indent, m.leads⟩
  | .dash | .colon => if m.leads then ⟨place, m.indent + 1, true⟩ else ⟨place, m.indent, false⟩
  | .contentStart => m
  | _ => ⟨place, m.indent, false⟩

/-- Pieces with their places, from a place on. -/
def placed (m : Margin) : List Piece → List Token
  | [] => []
  | p :: rest => ⟨p, m.place, m.indent⟩ :: placed (m.behind p) rest

end TextUnits.Yaml
