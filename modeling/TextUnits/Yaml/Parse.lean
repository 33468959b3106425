import TextUnits.Yaml.Node
import TextUnits.Yaml.Scanner

/-!
# Documents of YAML

Tokens are read one by one into plain data. Collections are written in brackets or in lines: the
entries of a block collection stand in one column, and what belongs to an entry stands further
right. A token that does not belong to the innermost unfinished value finishes it and is read
again for the value around it.
-/

namespace TextUnits.Yaml

/-- What stands around all unfinished values. -/
inductive Base where
  /-- Nothing; a document may start. -/
  | between
  /-- A document: the tokens in front of its value, the value when it is finished, and the
  tokens behind it. -/
  | document (start : List Token) (value : Option Item) (tail : List Token)
  /-- The line that ended a document. -/
  | ended (tail : List Token)

/-- What has been read of a text. -/
structure Reading where
  /-- Values of the finished documents, the last first. -/
  values : List Datum
  /-- What stands around all unfinished values. -/
  base : Base
  /-- Unfinished values, the innermost first. -/
  nodes : List Node
  /-- Whether the line holds a key or colon of a block record already. -/
  onKey : Bool

/-- Nothing read. -/
def Reading.initial : Reading := ⟨[], .between, [], false⟩

/-- The value of a document. A block collection may not start in the line of the mark in
front. -/
def documentValue? (start : List Token) (value : Option Item) (tail : List Token) :
    Option Datum := do
  let inBrackets := value.any (·.shape = .brackets)
  let g ← gap? ⟨some .documentStart, false, !inBrackets⟩ true 0 value start
  let sameLine := g.indicator.isSome ∧ !g.breaks
  if sameLine ∧ value.any Item.isBlock ∨ !tail.all (·.kind.isLayout) then none
  else return valueOf value

namespace Reading

/-- Unfinished parts of what has been read. -/
def height (r : Reading) : Nat :=
  r.nodes.length + match r.base with
    | .between => 0
    | _ => 1

/-- Finishes the document. -/
def closeBase? (r : Reading) : Option Reading :=
  match r.base with
  | .between => none
  | .document start value tail => do
    let d ← documentValue? start value tail
    return { r with
      values := d :: r.values
      base := .between }
  | .ended tail => (tail? false tail).map fun _ => { r with base := .between }

/-- Finishes the innermost unfinished value, or the document when there is none. -/
def close? (r : Reading) : Option Reading :=
  match r.nodes with
  | [] => r.closeBase?
  | [node] => do
    let (node, layout) := node.shed
    let item ← node.item?
    match r.base with
    | .document start _ tail =>
      return { r with
        base := .document start (some item) (tail ++ layout)
        nodes := [] }
    | _ => none
  | node :: outer :: rest => do
    let (node, layout) := node.shed
    let item ← node.item?
    let (outer, isKey) ← outer.receive? item
    return { r with
      nodes := outer.spare layout :: rest
      onKey := r.onKey || isKey }

/-- Finishes everything. -/
def closeAll? (r : Reading) : Option Reading :=
  if r.height = 0 then some r
  else do
    let next ← r.close?
    if _lower : next.height < r.height then next.closeAll? else none
termination_by r.height

/-- What a token leads to. -/
inductive Move where
  /-- It has been taken. -/
  | taken (r : Reading)
  /-- Something has been finished, and it is to be read again. -/
  | again (r : Reading)

/-- What a token leads to that opens a value inside the unfinished ones. -/
def opening? (r : Reading) (t : Token) : Option Move :=
  (Node.starting? t).map fun node =>
    .taken { r with
      nodes := node :: r.nodes
      onKey := r.onKey || t.kind = .colon }

/-- What a token leads to behind a finished value, from what has been read without the token and
with it. The end of the line finishes the value for good. -/
def behind? (r noted : Reading) (t : Token) : Option Move :=
  match t.kind with
  | .comma | .colon | .listClose | .recordClose | .documentStart => r.close?.map .again
  | .newline => { noted with onKey := false }.close?.map .taken
  | _ => some (.taken noted)

/-- What a token leads to between documents. -/
def startMove? (r : Reading) (t : Token) : Option Move :=
  match t.kind with
  | .mark | .blanks | .comment | .newline => some (.taken r)
  | .contentStart => some (.taken { r with base := .document [] none [] })
  | .documentStart => some (.taken { r with base := .document [t] none [] })
  | _ => none

/-- What a token leads to behind the line that ended a document. -/
def endedMove? (r : Reading) (tail : List Token) (t : Token) : Option Move :=
  let noted := { r with base := .ended (tail ++ [t]) }
  match t.kind with
  | .contentStart => some (.taken r)
  | .newline => noted.close?.map .taken
  | _ => some (.taken noted)

/-- What a token leads to in a document all of whose values are finished. -/
def documentMove? (r : Reading) (start : List Token) (value : Option Item) (tail : List Token)
    (t : Token) : Option Move :=
  let noted := { r with base := .document (start ++ [t]) none tail }
  if value.isSome then r.behind? { r with base := .document start value (tail ++ [t]) } t
  else
    match t.kind with
    | .documentStart =>
      if start.all (·.kind.isLayout) then some (.taken noted) else r.close?.map .again
    | .blanks | .comment | .newline => some (.taken noted)
    | _ => r.opening? t

/-- What a token leads to behind a scalar, which a colon makes a key. -/
def scalarMove? (r : Reading) (scalar : Token) (tail : List Token) (outer : List Node)
    (t : Token) : Option Move :=
  if t.kind = .colon then
    (Node.ofKey? scalar tail t).map fun node =>
      .taken { r with
        nodes := node :: outer
        onKey := true }
  else r.behind? { r with nodes := .scalar scalar (tail ++ [t]) :: outer } t

/-- What a token leads to in a block record. In its column the next entry begins, with a scalar or
without a key; further right stands what belongs to the last one. A list may not begin in the
line of its key. -/
def recordMove? (r : Reading) (c : Column) (outer : List Node) (t : Token) : Option Move :=
  let become (c : Column) : Reading := { r with nodes := .record c :: outer }
  let keyed (c : Column) : Option Move := some (.taken { become c with onKey := true })
  let inColumn := !r.onKey ∧ t.indent = c.indent
  let isNext := inColumn ∧ c.last.sep.isSome
  if t.kind = .newline then some (.taken { become (c.layOut t) with onKey := false })
  else if t.kind.isLayout then some (.taken (become (c.layOut t)))
  else if t.indent < c.indent then r.close?.map .again
  else
    match t.kind with
    | .colon =>
      match c.last.sep with
      | none => keyed (c.put { c.last with sep := some [t] })
      | some sep =>
        if c.last.value.isSome then keyed (c.add (.unkeyed t))
        else if isNext then keyed (c.next (.unkeyed t))
        else if holds .colon sep then r.opening? t
        else keyed (c.put (c.last.push t))
    | .plain | .singleQuoted | .doubleQuoted =>
      if c.last.value.isSome then do keyed (c.add (.keyed (← Item.ofScalar? t [])))
      else if isNext then do keyed (c.next (.keyed (← Item.ofScalar? t [])))
      else if c.last.sep.isSome then r.opening? t
      else do
        let key ← Item.ofScalar? t []
        keyed (c.put ⟨c.last.start, some key, some [], none⟩)
    | .recordOpen | .listOpen => if inColumn then none else r.opening? t
    | .dash => if c.last.sep.all (holds .newline) then r.opening? t else none
    | _ => r.close?.map .again

/-- What a token leads to in a block list, whose dashes stand in one column. -/
def listMove? (r : Reading) (c : Column) (outer : List Node) (t : Token) : Option Move :=
  let become (c : Column) : Option Move := some (.taken { r with nodes := .list c :: outer })
  if t.kind.isLayout then become (c.layOut t)
  else if t.kind = .dash ∧ t.indent = c.indent then
    if c.last.value.isSome ∨ holds .dash c.last.start then become (c.add (.opened [t]))
    else become (c.put (c.last.push t))
  else if c.indent < t.indent ∧ (Node.starting? t).isSome then r.opening? t
  else r.close?.map .again

/-- What a token leads to between brackets. -/
def insideMove? (r : Reading) (first : Token) (es : List Entry) (outer : List Node) (t : Token) :
    Option Move :=
  let become (es : List Entry) : Option Move :=
    some (.taken { r with nodes := .brackets first es [] :: outer })
  match t.kind with
  | .listClose | .recordClose =>
    some (.taken { r with nodes := .brackets first es [t] :: outer })
  | .comma =>
    match es with
    | last :: before =>
      if last.sep.isSome then become (.opened [t] :: es) else become (last.push t :: before)
    | [] => become [.opened [t]]
  | .colon =>
    match es with
    | last :: before =>
      if last.value.isSome then become (.unkeyed t :: es)
      else if last.sep.isSome then become (last.push t :: before)
      else become ({ last with sep := some [t] } :: before)
    | [] => become [.unkeyed t]
  | .blanks | .comment | .newline =>
    match es with
    | last :: before =>
      if last.value.isSome then become (.opened [t] :: es) else become (last.push t :: before)
    | [] => become [.opened [t]]
  | .plain | .singleQuoted | .doubleQuoted =>
    match es with
    | last :: before =>
      if last.value.isSome then do become (.keyed (← Item.ofScalar? t []) :: es)
      else if last.sep.isSome then r.opening? t
      else do
        let key ← Item.ofScalar? t []
        become (⟨last.start, some key, some [], none⟩ :: before)
    | [] => do become [.keyed (← Item.ofScalar? t [])]
  | .recordOpen | .listOpen => r.opening? t
  | _ => none

/-- What a token leads to behind a closing bracket. Collections can not be keys, but behind one
that ends an entry of a record a colon may start the next. -/
def enclosedMove? (r : Reading) (first : Token) (es : List Entry) (tail : List Token)
    (outer : List Node) (t : Token) : Option Move :=
  let noted := { r with nodes := .brackets first es (tail ++ [t]) :: outer }
  match outer.head? with
  | some (.record c) =>
    if t.kind = .colon ∧ c.indent = first.indent ∨ t.kind = .newline ∧ c.last.sep.isNone then
      r.close?.map .again
    else if t.kind = .colon then none
    else r.behind? noted t
  | some (.brackets _ _ _) => r.behind? noted t
  | _ => if t.kind = .colon then none else r.behind? noted t

/-- What a token leads to. -/
def move? (r : Reading) (t : Token) : Option Move :=
  match r.nodes, r.base with
  | [], .between => r.startMove? t
  | [], .ended tail => r.endedMove? tail t
  | [], .document start value tail => r.documentMove? start value tail t
  | .scalar scalar tail :: outer, _ => r.scalarMove? scalar tail outer t
  | .record c :: outer, _ => r.recordMove? c outer t
  | .list c :: outer, _ => r.listMove? c outer t
  | .brackets first es [] :: outer, _ => r.insideMove? first es outer t
  | .brackets first es tail :: outer, _ => r.enclosedMove? first es tail outer t

/-- Reads a token, as often as it finishes something. -/
def settle? (r : Reading) (t : Token) : Option Reading := do
  match ← r.move? t with
  | .taken next => return next
  | .again next => if _lower : next.height < r.height then next.settle? t else none
termination_by r.height

/-- Whether the line that ended a document is the last that was read. -/
def isEnded (r : Reading) : Bool :=
  match r.base with
  | .ended _ => true
  | _ => false

/-- Reads a token. A line that ends a document finishes everything. -/
def read? (r : Reading) (t : Token) : Option Reading :=
  if t.kind = .documentEnd ∧ !r.isEnded then
    r.closeAll?.map fun r => { r with base := .ended [] }
  else r.settle? t

end Reading

/-- The value of a text that holds at most one document, or nothing when it does not parse. -/
def parse (t : Text) : Option Datum := do
  let ts ← tokens? t
  let r ← ts.foldlM Reading.read? Reading.initial
  let r ← r.closeAll?
  match r.values with
  | [] => return .null
  | [value] => return value
  | _ => none

end TextUnits.Yaml
