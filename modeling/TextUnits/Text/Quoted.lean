import TextUnits.Number.Numeral

/-!
# Quoted text

`Text.quoted` writes a text between double quotes on one line: control characters, quotes and
backslashes are escaped, and so are surrogates that stand alone; a surrogate pair and all other
units stand for themselves.
-/

namespace TextUnits.Text

/-- Escape of a unit by its number: `\u` and four hexadecimal digits. -/
def numberEscape (u : UInt16) : Text :=
  [0x5C, unit 'u'] ++ Numeral.padLeft 4 (Numeral.text 16 u.toNat)

/-- Units that write one unit which is no surrogate. -/
def escapeUnit (u : UInt16) : Text :=
  if u = 0x22 ∨ u = 0x5C then [0x5C, u]
  else if u = 0x08 then [0x5C, unit 'b']
  else if u = 0x09 then [0x5C, unit 't']
  else if u = 0x0A then [0x5C, unit 'n']
  else if u = 0x0C then [0x5C, unit 'f']
  else if u = 0x0D then [0x5C, unit 'r']
  else if u < 0x20 then numberEscape u
  else [u]

/-- Units that write a text between the quotes. -/
def escape : Text → Text
  | [] => []
  | u :: rest =>
    if u < 0xD800 ∨ 0xDFFF < u then escapeUnit u ++ escape rest
    else
      match rest with
      | v :: tail =>
        if u < 0xDC00 ∧ 0xDC00 ≤ v ∧ v ≤ 0xDFFF then u :: v :: escape tail
        else numberEscape u ++ escape (v :: tail)
      | [] => numberEscape u

/-- A text between double quotes, with escapes. -/
def quoted (t : Text) : Text := 0x22 :: escape t ++ [0x22]

end TextUnits.Text
