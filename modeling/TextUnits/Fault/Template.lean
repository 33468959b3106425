import TextUnits.Data

/-!
# Message templates

A template is text with names in braces; rendering puts the text of the named value in their
place, and nothing where the name has no value. A brace followed by another opening brace is an
ordinary unit. A brace that is never closed leaves the whole template as it is.
-/

namespace TextUnits.Template

/-- The opening brace. -/
def opening : UInt16 := 0x7B

/-- The closing brace. -/
def closing : UInt16 := 0x7D

/-- Template with its names replaced, or nothing when a brace is not closed. -/
def expand? (lookup : Text → Option Text) : Text → Option Text
  | [] => some []
  | u :: rest =>
    if u = opening ∧ rest.head? ≠ some opening then
      match _cut : Text.cut? closing rest with
      | none => none
      | some (name, behind) => (expand? lookup behind).map ((lookup name).getD [] ++ ·)
    else (expand? lookup rest).map (u :: ·)
termination_by t => t.length
decreasing_by
  · have := Text.length_of_cut? _cut
    simp only [List.length_cons]
    omega
  · simp

/-- Template with its names replaced; one with an unclosed brace is returned unchanged. -/
def render (lookup : Text → Option Text) (template : Text) : Text :=
  (expand? lookup template).getD template

end TextUnits.Template
