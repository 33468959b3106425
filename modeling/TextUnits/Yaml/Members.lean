import TextUnits.Yaml.Scalar

/-!
# Records from keys and values

Keys become texts, and equal keys of one record are refused. Members stand in the order in which
they were added, but names that write places come first.
-/

namespace TextUnits.Yaml

/-- What a key is called in its record: a scalar by its text, a missing one by no text at all. A
collection is refused. -/
def keyName? : Datum → Option Text
  | .null => some []
  | .list _ | .record _ => none
  | scalar => some scalar.toText

/-- Whether two keys are the same scalar; the two zeros are, and no number is not. -/
def sameKey : Datum → Datum → Bool
  | .null, .null => true
  | .bool a, .bool b => a == b
  | .text a, .text b => a == b
  | .number a, .number b => !a.isNaN && a.text == b.text
  | _, _ => false

/-- Members of a record in which one more is set: in the place of the one of its name, or else
at the end. -/
def setMember (name : Text) (value : Datum) : List (Text × Datum) → List (Text × Datum)
  | [] => [(name, value)]
  | (n, v) :: rest =>
    if n = name then (n, value) :: rest else (n, v) :: setMember name value rest

/-- Members of a record with the keys that they were written under. -/
structure Members where
  /-- Keys in order. -/
  keys : List Datum
  /-- Named values in order. -/
  named : List (Text × Datum)

/-- No members. -/
def Members.empty : Members := ⟨[], []⟩

/-- The members with one more, whose key must not be there yet. -/
def Members.add? (m : Members) (key value : Datum) : Option Members :=
  if m.keys.any (sameKey key) then none
  else (keyName? key).map fun name => ⟨m.keys ++ [key], setMember name value m.named⟩

/-- Greatest number that counts as a place in a record. -/
def lastPlace : Nat := 4294967294

/-- The place that a name writes as a decimal numeral without needless zeros. -/
def place? (name : Text) : Option Nat :=
  let n := natural 10 name
  if n ≤ lastPlace ∧ Numeral.decimal n = name then some n else none

/-- The record of some members. Those whose names write places come first, in the order of the
places; the others follow as they were added. -/
def Members.record (m : Members) : Datum :=
  let placed := m.named.filterMap fun member => (place? member.1).map fun n => (n, member)
  let inOrder := placed.mergeSort fun a b => a.1 ≤ b.1
  .record (inOrder.map (·.2) ++ m.named.filter fun member => (place? member.1).isNone)

end TextUnits.Yaml
