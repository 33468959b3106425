import TextUnits.Proofs.Scan.Within
import Mathlib.Tactic.Ring

/-!
# Parts between occurrences

A sequence is parted by another one at its occurrences: the first one from the left, then the first
one behind that, and so on, so that no two of them overlap. The parts between them are unique, and
put together again with a third sequence in the place of every occurrence they give the sequence
with its occurrences replaced.
-/

namespace TextUnits.Sequence

variable {α : Type} {sought front rest xs : List α} {parts other : List (List α)}

/-- Parts of a sequence between the occurrences of another one, taken from the left. -/
inductive Parted (sought : List α) : List α → List (List α) → Prop where
  /-- A sequence in which the other one does not occur is one part. -/
  | last {xs : List α} (h : ¬ sought <:+: xs) : Parted sought xs [xs]
  /-- The first part ends where the other one first occurs; what stands behind that occurrence is
  parted in turn. -/
  | first {front rest : List α} {parts : List (List α)}
    (h : ∀ n < front.length, ¬ sought <+: (front ++ (sought ++ rest)).drop n)
    (later : Parted sought rest parts) : Parted sought (front ++ (sought ++ rest)) (front :: parts)

/-- A sequence in which the other one does not occur is its only part. -/
theorem Parted.eq_singleton (h : Parted sought xs parts) (hx : ¬ sought <:+: xs) :
    parts = [xs] := by
  cases h with
  | last => rfl
  | first => exact absurd ⟨_, _, List.append_assoc _ _ _⟩ hx

theorem Parted.ne_nil (h : Parted sought xs parts) : parts ≠ [] := by
  cases h <;> exact List.cons_ne_nil _ _

/-- The parts with the occurrences between them are the sequence. -/
theorem Parted.intercalate_eq (h : Parted sought xs parts) : sought.intercalate parts = xs := by
  induction h with
  | last => exact List.intercalate_singleton
  | first _ later ih => rw [List.intercalate_cons_of_ne_nil later.ne_nil, ih, List.append_assoc]

/-- Put together with one separator or another, parts differ in length by the difference of the
separators for every place between two parts. -/
theorem length_intercalate (h : parts ≠ []) (separator inserted : List α) :
    ((inserted.intercalate parts).length : ℤ) = (separator.intercalate parts).length +
      ((parts.length : ℤ) - 1) * ((inserted.length : ℤ) - separator.length) := by
  induction parts with
  | nil => exact absurd rfl h
  | cons first more ih =>
    cases more with
    | nil => simp
    | cons part others =>
      have hmore := ih (List.cons_ne_nil part others)
      rw [List.intercalate_cons_of_ne_nil (List.cons_ne_nil part others),
        List.intercalate_cons_of_ne_nil (List.cons_ne_nil part others)]
      simp only [List.length_append, List.length_cons, Nat.cast_add, Nat.cast_one] at hmore ⊢
      rw [hmore]
      ring

variable [DecidableEq α]

/-- An occurrence in front of which there is none is found. -/
theorem indexOf?_of_first
    (h : ∀ n < front.length, ¬ sought <+: (front ++ (sought ++ rest)).drop n) :
    indexOf? sought (front ++ (sought ++ rest)) = some front.length := by
  have hstands : sought <+: (front ++ (sought ++ rest)).drop front.length := by
    rw [List.drop_left]
    exact List.prefix_append sought rest
  cases hindex : indexOf? sought (front ++ (sought ++ rest)) with
  | none =>
    refine absurd ?_ (not_infix_of_indexOf? hindex)
    exact ⟨front, rest, List.append_assoc front sought rest⟩
  | some n =>
    obtain ⟨before, behind, hxs, rfl⟩ := exists_of_indexOf? hindex
    have hfound : sought <+: (front ++ (sought ++ rest)).drop before.length := by
      rw [hxs, List.drop_left]
      exact List.prefix_append sought behind
    rcases Nat.lt_trichotomy before.length front.length with hlt | heq | hgt
    · exact absurd hfound (h _ hlt)
    · rw [heq]
    · exact absurd hstands (not_prefix_of_indexOf? hindex _ hgt)

/-- A sequence that occurs nowhere is not found. -/
theorem indexOf?_of_absent (h : ¬ sought <:+: xs) : indexOf? sought xs = none := by
  cases hindex : indexOf? sought xs with
  | none => rfl
  | some n =>
    obtain ⟨before, behind, rfl, -⟩ := exists_of_indexOf? hindex
    exact absurd ⟨before, behind, List.append_assoc before sought behind⟩ h

/-- A sequence is parted by any other one that has items. -/
theorem exists_parted (hne : sought ≠ []) (xs : List α) : ∃ parts, Parted sought xs parts := by
  induction hlength : xs.length using Nat.strongRecOn generalizing xs with
  | ind length ih =>
    cases hindex : indexOf? sought xs with
    | none => exact ⟨[xs], .last (not_infix_of_indexOf? hindex)⟩
    | some n =>
      have hbefore := not_prefix_of_indexOf? hindex
      obtain ⟨front, rest, rfl, rfl⟩ := exists_of_indexOf? hindex
      have hpos := List.length_pos_iff.mpr hne
      have hshorter : rest.length < length := by
        rw [← hlength, List.length_append, List.length_append]
        omega
      obtain ⟨parts, hparts⟩ := ih rest.length hshorter rest rfl
      exact ⟨front :: parts, .first hbefore hparts⟩

/-- In front of the first occurrence stands the first part, behind it stand the others. -/
theorem Parted.exists_first (h : Parted sought (front ++ (sought ++ rest)) parts)
    (hf : ∀ n < front.length, ¬ sought <+: (front ++ (sought ++ rest)).drop n) :
    ∃ more, parts = front :: more ∧ Parted sought rest more := by
  have hindex := indexOf?_of_first hf
  generalize hxs : front ++ (sought ++ rest) = xs at h hindex
  cases h with
  | last hnone =>
    rw [indexOf?_of_absent hnone] at hindex
    cases hindex
  | first hother later =>
    rw [indexOf?_of_first hother, Option.some.injEq] at hindex
    obtain ⟨rfl, hbehind⟩ := List.append_inj hxs hindex.symm
    obtain rfl := List.append_cancel_left hbehind
    exact ⟨_, rfl, later⟩

/-- The parts of a sequence are unique. -/
theorem Parted.unique (h : Parted sought xs parts) (ho : Parted sought xs other) :
    other = parts := by
  induction h generalizing other with
  | last hnone => exact ho.eq_singleton hnone
  | first hfirst later ih =>
    obtain ⟨more, rfl, hmore⟩ := ho.exists_first hfirst
    rw [ih hmore]

end TextUnits.Sequence
