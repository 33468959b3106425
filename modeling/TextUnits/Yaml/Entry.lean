import TextUnits.Yaml.Members
import TextUnits.Yaml.Quote
import TextUnits.Yaml.Token

/-!
# Entries of collections

An entry of a list or a record is kept as it is written: a key, a value, and the tokens in front
of each. `Entry.member?`, `Entry.element?` and `Entry.part?` read it as part of a block record,
of a block list and of a collection in brackets, and refuse one that is not well laid out.
-/

namespace TextUnits.Yaml

/-- How a value is written. -/
inductive Shape where
  /-- As a scalar. -/
  | scalar
  /-- In brackets. -/
  | brackets
  /-- As a record in lines of its own. -/
  | record
  /-- As a list in lines of its own. -/
  | list
  deriving DecidableEq, Repr

/-- A value that has been read. -/
structure Item where
  /-- How it is written. -/
  shape : Shape
  /-- The token that it starts with. -/
  first : Token
  /-- Whether a blank or the end of a line stands behind it, so that a comment may follow. -/
  spaced : Bool
  /-- What it stands for. -/
  value : Datum

/-- Whether a value stands in lines of its own. -/
def Item.isBlock (item : Item) : Bool := item.shape = .record || item.shape = .list

/-- The value of an item; one that is left out stands for none. -/
def valueOf : Option Item → Datum
  | some item => item.value
  | none => .null

/-- What the token of a scalar stands for. -/
def Token.scalar? (t : Token) : Option Datum :=
  match t.kind with
  | .plain => some (plain (folded t.text))
  | .singleQuoted => (single? (t.text.drop 1)).map .text
  | .doubleQuoted => (double? (t.text.drop 1)).map .text
  | _ => none

/-- Whether a comment may follow some tokens behind a value. They may only be layout, with a
blank or the end of a line in front of every comment. -/
def tail? (spaced : Bool) : List Token → Option Bool
  | [] => some spaced
  | t :: rest =>
    match t.kind with
    | .blanks | .newline => tail? true rest
    | .comment => if spaced then tail? spaced rest else none
    | _ => none

/-- A scalar with the tokens behind it. -/
def Item.ofScalar? (t : Token) (tail : List Token) : Option Item := do
  let value ← t.scalar?
  let spaced ← tail? false tail
  return ⟨.scalar, t, spaced, value⟩

/-- Which tokens besides layout may stand in front of a part of an entry. -/
structure Lead where
  /-- An indicator, once. -/
  indicator : Option Kind
  /-- A comma, once. -/
  comma : Bool
  /-- Whether tabs are refused where they would indent the part. -/
  strict : Bool

/-- What has been seen of the tokens in front of a part of an entry. -/
structure Gap where
  /-- The indicator. -/
  indicator : Option Token
  /-- Whether a comma is among them. -/
  comma : Bool
  /-- Whether the end of a line is among them. -/
  breaks : Bool
  /-- Whether only blanks and dashes stand behind the start of the line. -/
  leads : Bool
  /-- Whether a comment may follow. -/
  spaced : Bool
  /-- The last token, if it is blanks with a tab among them that matters. -/
  tab : Option Token

/-- What has been seen with one more token. A tab at the start of a line may only stand in front
of a comment or the end of the line. -/
def Gap.add? (lead : Lead) (g : Gap) (t : Token) : Option Gap :=
  if g.tab.isSome ∧ g.leads ∧ t.kind ≠ .comment ∧ t.kind ≠ .newline then none
  else
    let g := { g with tab := none }
    match t.kind with
    | .blanks =>
      some { g with
        spaced := true
        tab := if lead.strict ∧ t.text.contains 0x09 then some t else none }
    | .comment => if g.spaced then some { g with leads := false } else none
    | .newline =>
      some { g with
        breaks := true
        leads := true
        spaced := true }
    | kind =>
      if lead.indicator = some kind ∧ g.indicator.isNone then
        some { g with
          indicator := some t
          leads := kind = .dash
          spaced := false }
      else if kind = .comma ∧ lead.comma ∧ !g.comma then
        some { g with
          comma := true
          leads := false
          spaced := false }
      else none

/-- What stands in front of a part, which may be left out, of an entry of some indentation. Tabs
right in front of it may not indent it, and none may stand in front of a block collection. -/
def gap? (lead : Lead) (leads : Bool) (indent : Nat) (next : Option Item) (ts : List Token) :
    Option Gap := do
  let g ← ts.foldlM (Gap.add? lead) ⟨none, false, false, leads, leads, none⟩
  match g.tab with
  | some tab =>
    if g.leads ∧ tab.indent ≤ indent ∨ next.any Item.isBlock then none else return g
  | none => return g

/-- An entry of a collection as it is written. -/
structure Entry where
  /-- Tokens in front of it. -/
  start : List Token
  /-- Its key, or in brackets a value that may turn out to be one. -/
  key : Option Item
  /-- Tokens behind the key, if the entry may have a key. -/
  sep : Option (List Token)
  /-- Its value. -/
  value : Option Item

namespace Entry

/-- An entry of which only tokens in front of it are known. -/
def opened (start : List Token) : Entry := ⟨start, none, none, none⟩

/-- An entry that starts with its key. -/
def keyed (key : Item) : Entry := ⟨[], some key, some [], none⟩

/-- An entry that starts with a colon. -/
def unkeyed (colon : Token) : Entry := ⟨[], none, some [colon], none⟩

/-- Whether an entry holds only layout. -/
def isSpare (e : Entry) : Bool :=
  e.sep.isNone && e.value.isNone && e.start.all (·.kind.isLayout)

/-- The entry with one more token in front of its key or value. -/
def push (e : Entry) (t : Token) : Entry :=
  match e.sep with
  | some sep => { e with sep := some (sep ++ [t]) }
  | none => { e with start := e.start ++ [t] }

/-- Greatest distance from the start of a key to its colon. -/
def farthestColon : Nat := 1024

/-- Whether a colon stands near enough to the key. -/
def reaches (e : Entry) (colon : Token) : Bool :=
  e.key.all fun key => colon.place ≤ key.first.place + farthestColon

/-- Whether the key is written over more than one line. -/
def keySpans (e : Entry) : Bool := e.key.any fun key => key.first.text.contains 0x0A

/-- Key and value of an entry of a block record with some indentation, or nothing if it holds
only layout. The key stands in one line, in the column of the record. -/
def member? (indent : Nat) (e : Entry) : Option (Option (Datum × Datum)) := do
  let _front ← gap? ⟨none, false, true⟩ true indent e.key e.start
  match e.sep with
  | none => return none
  | some sep =>
    let g ← gap? ⟨some .colon, false, true⟩ e.key.isNone indent e.value sep
    let colon ← g.indicator
    let compact := e.value.any (·.shape = .record) ∧ !g.breaks
    if e.keySpans ∨ e.key.any (·.first.indent ≠ indent) ∨ compact ∨ !e.reaches colon then none
    else return some (valueOf e.key, valueOf e.value)

/-- The value of an entry of a block list with some indentation, or nothing if it holds only
layout. -/
def element? (indent : Nat) (e : Entry) : Option (Option Datum) := do
  let g ← gap? ⟨some .dash, false, true⟩ true indent e.value e.start
  if g.indicator.isSome then return some (valueOf e.value)
  else if e.value.isSome then none
  else return none

/-- An entry of a list in brackets whose key turned out to be its value, since no colon follows;
the tokens behind it must be fit to stand behind a value. -/
def settled? (e : Entry) : Option Entry :=
  match e with
  | ⟨start, some key, some sep, none⟩ =>
    if holds .colon sep then some e
    else (tail? key.spaced sep).map fun _ => ⟨start, none, none, some key⟩
  | e => some e

/-- A part of a collection in brackets. -/
inductive Part where
  /-- A value. -/
  | item (value : Datum)
  /-- A value under a key. -/
  | pair (key value : Datum)

/-- Key and value of an entry in brackets. In a list the key stands in one line with its
colon. -/
def pair? (ofRecord : Bool) (e : Entry) : Option Part := do
  let sep := e.sep.getD []
  let g ← gap? ⟨some .colon, true, false⟩ false 0 e.value sep
  let near := g.indicator.all fun colon =>
    ofRecord || e.reaches colon && !holds .newline (sep.takeWhile (·.kind ≠ .colon))
  if near ∧ (g.indicator.isSome ∨ e.value.isNone) then
    return .pair (valueOf e.key) (valueOf e.value)
  else none

/-- The part that an entry in brackets is, or nothing if it holds only layout, which only the
last one may. A comma stands in front of every entry but the first. -/
def part? (ofRecord first last : Bool) (e : Entry) : Option (Option Part) := do
  let e ← if ofRecord then some e else e.settled?
  let g ← gap? ⟨none, true, false⟩ false 0 e.key e.start
  if e.sep.isNone ∧ e.value.isNone then
    if first ∧ g.comma ∨ !last then none else return none
  else if g.comma = first ∨ e.key.any Item.isBlock ∨ e.value.any Item.isBlock ∨
      !ofRecord ∧ e.keySpans then none
  else if !ofRecord ∧ e.sep.isNone then return some (.item (valueOf e.value))
  else return some (← e.pair? ofRecord)

/-- The parts that some entries in brackets are. -/
def parts? (ofRecord first : Bool) : List Entry → Option (List Part)
  | [] => some []
  | e :: rest => do
    let part ← e.part? ofRecord first rest.isEmpty
    return part.toList ++ (← parts? ofRecord false rest)

/-- The value that a part is in a list; a value under a key is a record of its own. -/
def Part.element? : Part → Option Datum
  | .item value => some value
  | .pair key value => (Members.empty.add? key value).map Members.record

/-- Members of a record with the one that a part is. -/
def Part.addTo? (m : Members) : Part → Option Members
  | .item _ => none
  | .pair key value => m.add? key value

end Entry

/-- The record of entries in brackets. -/
def flowRecord? (es : List Entry) : Option Datum := do
  let parts ← Entry.parts? true true es
  return (← parts.foldlM Entry.Part.addTo? Members.empty).record

/-- The list of entries in brackets. -/
def flowList? (es : List Entry) : Option Datum := do
  let parts ← Entry.parts? false true es
  return .list (← parts.mapM Entry.Part.element?)

/-- The record of entries in lines. -/
def blockRecord? (indent : Nat) (es : List Entry) : Option Datum := do
  let members ← es.mapM (Entry.member? indent)
  return (← (members.filterMap id).foldlM (fun m member => m.add? member.1 member.2)
    Members.empty).record

/-- The list of entries in lines. -/
def blockList? (indent : Nat) (es : List Entry) : Option Datum := do
  let elements ← es.mapM (Entry.element? indent)
  return .list (elements.filterMap id)

end TextUnits.Yaml
