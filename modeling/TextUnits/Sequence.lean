/-!
# Beginnings and occurrences in sequences

Operations on lists that hold for bytes and code units alike: what stands behind a given
beginning, and where a sequence first occurs in another.
-/

namespace TextUnits.Sequence

variable {α : Type} [DecidableEq α]

/-- Remainder of a sequence behind a given beginning, when it begins so. -/
def after? : List α → List α → Option (List α)
  | [], xs => some xs
  | _ :: _, [] => none
  | p :: ps, x :: xs => if p = x then after? ps xs else none

/-- Whether a sequence begins with another. -/
def begins (start xs : List α) : Bool := (after? start xs).isSome

/-- Whether a sequence ends with another. -/
def ends (final xs : List α) : Bool := begins final.reverse xs.reverse

/-- Items in front of the first occurrence of a sequence in another. -/
def indexOf? (sought : List α) : List α → Option Nat
  | [] => if sought.isEmpty then some 0 else none
  | x :: xs =>
    if begins sought (x :: xs) then some 0 else (indexOf? sought xs).map (· + 1)

/-- How many items at the front pass a test. -/
def run {β : Type} (test : β → Bool) (xs : List β) : Nat := (xs.takeWhile test).length

/-- A remainder stands behind its beginning. -/
theorem eq_append_of_after? {start xs rest : List α} (h : after? start xs = some rest) :
    xs = start ++ rest := by
  induction start generalizing xs with
  | nil => simpa [after?] using h
  | cons p ps ih =>
    cases xs with
    | nil => simp [after?] at h
    | cons x xs =>
      unfold after? at h
      split at h
      · rename_i same
        simp [ih h, same]
      · simp at h

/-- Behind its own beginning stands the rest of a sequence. -/
theorem after?_append (start rest : List α) : after? start (start ++ rest) = some rest := by
  induction start with
  | nil => rfl
  | cons p ps ih => simp [after?, ih]

end TextUnits.Sequence
