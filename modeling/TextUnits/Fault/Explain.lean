import TextUnits.Fault.Registry

/-!
# Documentation of registered errors

`Code.explain` lays out the entry of an error in blocks separated by blank lines: a summary,
then cause, resolution and examples where they exist. Texts under a heading are indented by two
blanks and the input of an example by four.
-/

namespace TextUnits.Code

/-- Lines of a text, each behind `depth` times two blanks. -/
def indented (depth : Nat) (text : Text) : List Text :=
  (Text.splitOn 0x0A text).map fun line => Text.fill (2 * depth) 0x20 ++ line

/-- Lines that show one example. -/
def exampleLines (e : Example) : List Text :=
  indented 1 (Text.ofString e.description) ++ [[]] ++ indented 2 (Text.ofString e.code)

/-- Lines that show all examples, with a blank line between each two. -/
def allExampleLines : List Example → List Text
  | [] => []
  | [e] => exampleLines e
  | e :: rest => exampleLines e ++ [[]] ++ allExampleLines rest

/-- Blocks of the documentation of an error. -/
def blocks (c : Code) : List (List Text) :=
  let entry := c.entry
  let titled (title text : String) : List (List Text) :=
    if text.isEmpty then [] else [Text.ofString title :: indented 1 (Text.ofString text)]
  [[Text.ofString (c.id ++ ": " ++ entry.description),
    Text.ofString ("Category: " ++ entry.category.name ++ " (error)"),
    Text.ofString ("Message: " ++ entry.template)]] ++
    titled "Cause:" entry.cause ++ titled "Resolution:" entry.resolution ++
    (if entry.examples.isEmpty then []
      else [Text.ofString "Examples:" :: allExampleLines entry.examples])

/-- Documentation of an error. -/
def explain (c : Code) : Text :=
  Text.join [0x0A, 0x0A] (c.blocks.map (Text.join [0x0A]))

/-- Documentation of the error with an identifier, if the identifier is registered. -/
def explain? (id : Text) : Option Text :=
  if isErrorId id then (ofId? id).map explain else none

end TextUnits.Code
