import TextUnits.Sequence

/-!
# Text as a sequence of code units

All text of this library is a list of 16-bit code units, so that lengths, offsets and
cuts count units and a surrogate may stand alone. `Text.ofString` gives the units of a
literal; `Text.scalars?` reads the units back as characters when every surrogate is paired.
-/

namespace TextUnits

/-- A sequence of 16-bit code units; surrogates need not be paired. -/
abbrev Text := List UInt16

namespace Text

/-- Code units of one character: one below U+10000, a surrogate pair from there on. -/
def unitsOfChar (c : Char) : Text :=
  let n := c.toNat
  if n < 0x10000 then [UInt16.ofNat n]
  else [UInt16.ofNat (0xD800 + (n - 0x10000) / 0x400), UInt16.ofNat (0xDC00 + n % 0x400)]

/-- Code units of a string, character by character. -/
def ofString (s : String) : Text := s.toList.flatMap unitsOfChar

/-- The unit of a character below U+10000. -/
def unit (c : Char) : UInt16 := UInt16.ofNat c.toNat

/-- Characters of a text, or nothing when a surrogate stands alone. -/
def chars? : Text → Option (List Char)
  | [] => some []
  | u :: rest =>
    if u.toNat < 0xD800 ∨ 0xDFFF < u.toNat then
      (chars? rest).map (Char.ofNat u.toNat :: ·)
    else
      match rest with
      | [] => none
      | v :: tail =>
        if u.toNat < 0xDC00 ∧ 0xDC00 ≤ v.toNat ∧ v.toNat ≤ 0xDFFF then
          (chars? tail).map
            (Char.ofNat (0x10000 + (u.toNat - 0xD800) * 0x400 + (v.toNat - 0xDC00)) :: ·)
        else none

/-- The string with these code units, or nothing when a surrogate stands alone. -/
def toString? (t : Text) : Option String := (chars? t).map String.ofList

/-- `count` copies of one unit. -/
def fill (count : Nat) (u : UInt16) : Text := List.replicate count u

/-- Pieces of a text between occurrences of a unit; a text without it is one piece. -/
def splitOn (mark : UInt16) : Text → List Text
  | [] => [[]]
  | u :: rest =>
    if u = mark then [] :: splitOn mark rest
    else
      match splitOn mark rest with
      | [] => [[u]]
      | piece :: more => (u :: piece) :: more

/-- Pieces joined with a separator between each two. -/
def join (separator : Text) : List Text → Text
  | [] => []
  | [piece] => piece
  | piece :: more => piece ++ separator ++ join separator more

/-- The text before the first occurrence of a unit and the text after it, or nothing when it
does not occur. -/
def cut? (mark : UInt16) : Text → Option (Text × Text)
  | [] => none
  | u :: rest =>
    if u = mark then some ([], rest)
    else (cut? mark rest).map fun (before, behind) => (u :: before, behind)

/-- The two sides of a cut and the unit between them are the text. -/
theorem eq_of_cut? {mark : UInt16} {t before behind : Text}
    (h : cut? mark t = some (before, behind)) : t = before ++ mark :: behind := by
  induction t generalizing before with
  | nil => simp [cut?] at h
  | cons u rest ih =>
    unfold cut? at h
    split at h
    · rename_i found
      simp only [Option.some.injEq, Prod.mk.injEq] at h
      simp [← h.1, ← h.2, found]
    · obtain ⟨⟨b, r⟩, hr, he⟩ := Option.map_eq_some_iff.1 h
      simp only [Prod.mk.injEq] at he
      obtain ⟨rfl, rfl⟩ := he
      simp [ih hr]

/-- The text behind a cut is shorter than the text. -/
theorem length_of_cut? {mark : UInt16} {t before behind : Text}
    (h : cut? mark t = some (before, behind)) : behind.length < t.length := by
  rw [eq_of_cut? h]
  simp only [List.length_append, List.length_cons]
  omega

end Text

end TextUnits
