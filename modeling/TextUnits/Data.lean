import TextUnits.Number.Decimal

/-!
# Plain data

A `Datum` is a value as a data file or an error context holds it. Records keep their members
in order. Every record also answers to a fixed set of names that it does not hold itself, so a
look-up by one of these names succeeds on any record; `inheritedText` gives what is shown then.
-/

namespace TextUnits

/-- A value of plain data. -/
inductive Datum where
  /-- No value. -/
  | null
  /-- A truth value. -/
  | bool (b : Bool)
  /-- A number. -/
  | number (x : Double)
  /-- A text. -/
  | text (t : Text)
  /-- Values in order. -/
  | list (items : List Datum)
  /-- Named members in order. -/
  | record (members : List (Text × Datum))

namespace Datum

/-- Names of the operations that every record answers to, and of the operation that each of
these names stands for. -/
def inheritedOperations : List (String × String) :=
  [("constructor", "Object"), ("toString", "toString"), ("toLocaleString", "toLocaleString"),
   ("valueOf", "valueOf"), ("hasOwnProperty", "hasOwnProperty"),
   ("isPrototypeOf", "isPrototypeOf"), ("propertyIsEnumerable", "propertyIsEnumerable"),
   ("__defineGetter__", "__defineGetter__"), ("__defineSetter__", "__defineSetter__"),
   ("__lookupGetter__", "__lookupGetter__"), ("__lookupSetter__", "__lookupSetter__")]

/-- Name by which every record reaches the record that it takes its operations from. -/
def ancestorName : Text := Text.ofString "__proto__"

/-- Text shown for a record. -/
def recordText : Text := Text.ofString "[object Object]"

/-- What is shown for a name that a record answers to without holding it. -/
def inheritedText (name : Text) : Option Text :=
  if name = ancestorName then some recordText
  else
    (inheritedOperations.find? fun entry => Text.ofString entry.1 = name).map fun entry =>
      Text.ofString "function " ++ Text.ofString entry.2 ++
        Text.ofString "() \x7b [native code] \x7d"

/-- Whether every record answers to a name. -/
def isInherited (name : Text) : Bool := (inheritedText name).isSome

mutual

/-- Text of a value: a list shows its items between commas, a record only that it is one. -/
def toText : Datum → Text
  | null => Text.ofString "null"
  | bool b => Text.ofString (if b then "true" else "false")
  | number x => x.text
  | text t => t
  | list items => Text.join [Text.unit ','] (itemTexts items)
  | record _ => recordText

/-- Texts of the items of a list; an item without value shows nothing. -/
def itemTexts : List Datum → List Text
  | [] => []
  | item :: rest =>
    (match item with
      | null => []
      | other => toText other) :: itemTexts rest

end

/-- Number of a natural. -/
def ofNat (n : Nat) : Datum := number (Double.ofNat n)

end Datum

/-- Named values that a message is rendered from. -/
abbrev Context := List (Text × Datum)

namespace Context

/-- The value under a name that the context itself holds. -/
def own? (c : Context) (name : Text) : Option Datum :=
  (c.find? fun entry => entry.1 = name).map (·.2)

/-- The text under a name: of the value held, else of what every record answers with. -/
def lookup (c : Context) (name : Text) : Option Text :=
  match own? c name with
  | some value => some value.toText
  | none => Datum.inheritedText name

end Context

end TextUnits
