import TextUnits.Yaml.Entry

/-!
# Unfinished values

A value that more tokens may belong to is a `Node`. `Node.item?` finishes it, and
`Node.receive?` puts a finished value into the collection around it.
-/

namespace TextUnits.Yaml

/-- Entries of a block collection, of which it has at least one. -/
structure Column where
  /-- The token that the collection starts with. -/
  first : Token
  /-- The last entry. -/
  last : Entry
  /-- The other entries, the last of them first. -/
  before : List Entry

namespace Column

/-- Indentation of the collection. -/
def indent (c : Column) : Nat := c.first.indent

/-- The column with the last entry changed. -/
def put (c : Column) (e : Entry) : Column := { c with last := e }

/-- The column with one more entry. -/
def add (c : Column) (e : Entry) : Column := ⟨c.first, e, c.last :: c.before⟩

/-- All entries in order. -/
def entries (c : Column) : List Entry := (c.last :: c.before).reverse

/-- Whether a token is a comment that belongs to the value in front of it: it stands further
right than the entries, and no entry has begun behind that value. -/
def isRemark (c : Column) (t : Token) : Bool :=
  let endsLine := c.before.head?.any fun e => e.value.any fun item => !item.isBlock && item.spaced
  t.kind = .comment && c.indent < t.indent && endsLine && c.last.isSpare &&
    !holds .comment c.last.start

/-- The column with one more token of layout, which belongs in front of the next entry when the
last one has a value. -/
def layOut (c : Column) (t : Token) : Column :=
  if c.last.value.isSome then c.add (.opened [t])
  else
    match c.before with
    | last :: before => if c.isRemark t then ⟨c.first, last, before⟩ else c.put (c.last.push t)
    | [] => c.put (c.last.push t)

/-- The column with one more entry at a place where the last one can not go on. What stands in
front of a value that the last one leaves out is the layout of the next from its second line end
on, unless a comment further right than the entries comes later. -/
def next (c : Column) (e : Entry) : Column :=
  let isFree := fun t : Token =>
    t.kind = .newline || t.kind = .blanks || t.kind = .comment && t.indent ≤ c.indent
  let inLine := fun t : Token => !t.kind = .newline
  match c.last with
  | ⟨start, key, some sep, none⟩ =>
    let free := (sep.reverse.takeWhile isFree).reverse
    let carried := ((free.dropWhile inLine).drop 1).dropWhile inLine
    let last : Entry := ⟨start, key, some (sep.take (sep.length - carried.length)), none⟩
    (c.put last).add { e with start := carried ++ e.start }
  | _ => c.add e

/-- The column without the layout behind its last value, and that layout, which then belongs to
the collection around it. Comments as far right as the entries keep it in place. -/
def shed (c : Column) : Column × List Token :=
  let start := c.last.start
  match c.before with
  | last :: before =>
    if c.last.isSpare ∧ (c.indent = 0 ∨ start.all fun t => t.kind ≠ .comment ∨ t.indent < c.indent)
    then (⟨c.first, last, before⟩, start)
    else (c, [])
  | [] => (c, [])

end Column

/-- A value that is not finished. -/
inductive Node where
  /-- A scalar and the tokens behind it. -/
  | scalar (token : Token) (tail : List Token)
  /-- A collection in brackets: its entries, the last of them first, and the tokens from its
  closing bracket on. -/
  | brackets (first : Token) (entries : List Entry) (tail : List Token)
  /-- A block record. -/
  | record (column : Column)
  /-- A block list. -/
  | list (column : Column)

namespace Node

/-- The node without the layout behind its last value, and that layout. -/
def shed : Node → Node × List Token
  | record c => (.record c.shed.1, c.shed.2)
  | list c => (.list c.shed.1, c.shed.2)
  | node => (node, [])

/-- The node with layout behind its last entry. -/
def spare (layout : List Token) : Node → Node
  | record c => if layout.isEmpty then .record c else .record (c.add (.opened layout))
  | list c => if layout.isEmpty then .list c else .list (c.add (.opened layout))
  | node => node

/-- The collection in brackets that stands between two tokens. -/
def enclosed? (first closer : Token) (es : List Entry) : Option Datum :=
  match first.kind, closer.kind with
  | .recordOpen, .recordClose => flowRecord? es
  | .listOpen, .listClose => flowList? es
  | _, _ => none

/-- The finished value. -/
def item? : Node → Option Item
  | scalar t tail => Item.ofScalar? t tail
  | brackets first es tail => do
    let closer ← tail.head?
    let value ← enclosed? first closer es.reverse
    let spaced ← tail? false tail.tail
    return ⟨.brackets, first, spaced, value⟩
  | record c => (blockRecord? c.indent c.entries).map fun value => ⟨.record, c.first, true, value⟩
  | list c => (blockList? c.indent c.entries).map fun value => ⟨.list, c.first, true, value⟩

/-- The block record whose first key is a scalar, behind some tokens and a colon. -/
def ofKey? (key : Token) (tail : List Token) (colon : Token) : Option Node :=
  (Item.ofScalar? key []).map fun item =>
    .record ⟨key, ⟨[], some item, some (tail ++ [colon]), none⟩, []⟩

/-- The value that a token starts. -/
def starting? (t : Token) : Option Node :=
  match t.kind with
  | .plain | .singleQuoted | .doubleQuoted => some (.scalar t [])
  | .recordOpen | .listOpen => some (.brackets t [] [])
  | .dash => some (.list ⟨t, .opened [t], []⟩)
  | .colon => some (.record ⟨t, .unkeyed t, []⟩)
  | _ => none

/-- The node around a finished value with that value in it, and whether it became a key of a
block record. -/
def receive? (item : Item) : Node → Option (Node × Bool)
  | scalar _ _ => none
  | brackets first es tail =>
    match es with
    | [] => some (.brackets first [.keyed item] tail, false)
    | last :: before =>
      if last.value.isSome then some (.brackets first (.keyed item :: es) tail, false)
      else if last.sep.isSome then
        some (.brackets first ({ last with value := some item } :: before) tail, false)
      else
        let entry : Entry := ⟨last.start, some item, some [], none⟩
        some (.brackets first (entry :: before) tail, false)
  | record c =>
    if c.last.value.isSome then some (.record (c.add (.keyed item)), true)
    else if c.last.sep.isSome then
      some (.record (c.put { c.last with value := some item }), false)
    else some (.record (c.put ⟨c.last.start, some item, some [], none⟩), true)
  | list c =>
    if c.last.value.isSome then some (.list (c.add ⟨[], none, none, some item⟩), false)
    else some (.list (c.put { c.last with value := some item }), false)

end Node

end TextUnits.Yaml
