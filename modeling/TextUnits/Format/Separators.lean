import TextUnits.Text.Basic

/-!
# Separators of formatted numbers

The text between groups of digits and the text between whole and fraction.
-/

namespace TextUnits.Format

/-- Separators of formatted numbers. -/
structure Separators where
  /-- Between groups of digits. -/
  group : Text
  /-- Between the whole digits and the fraction. -/
  decimal : Text
  deriving DecidableEq, Repr

/-- A comma between groups and a point in front of the fraction. -/
def Separators.default : Separators := ⟨Text.ofString ",", Text.ofString "."⟩

end TextUnits.Format
