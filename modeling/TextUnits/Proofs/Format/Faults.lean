import TextUnits.Proofs.Format.Pieces
import Mathlib.Tactic.Common

/-!
# Faults of formatting

Formatting fails for its arguments alone: one is missing, or one does not fit its conversion. This
holds of every part of a directive, and so of the walk over the whole format string.
-/

namespace TextUnits

/-- An argument of a format string is missing or does not fit. -/
inductive Fault.OfArgument : Fault → Prop where
  /-- It does not fit its conversion. -/
  | unfit (conversion found : Text) : OfArgument (.argumentType conversion found)
  /-- There is none. -/
  | missing (index : Nat) : OfArgument (.argumentMissing index)

/-- A result that, if it is a failure, is one for a fault of the given sort. -/
def FailsOnly {α : Type} (sort : Fault → Prop) (x : Except Fault α) : Prop :=
  ∀ fault, x = .error fault → sort fault

section

variable {α β : Type} {sort : Fault → Prop}

theorem failsOnly_ok (a : α) : FailsOnly sort (.ok a) := by
  intro fault h
  cases h

theorem failsOnly_error {fault : Fault} (h : sort fault) :
    FailsOnly sort (.error fault : Except Fault α) := by
  rintro other ⟨⟩
  exact h

/-- Computing on after a failure fails as before. -/
theorem FailsOnly.bind {x : Except Fault α} {next : α → Except Fault β} (hx : FailsOnly sort x)
    (hn : ∀ a, FailsOnly sort (next a)) : FailsOnly sort (do let a ← x; next a) := by
  cases x with
  | error fault => exact failsOnly_error (hx fault rfl)
  | ok a => exact hn a

end

namespace Format

variable {α : Type}

theorem failsOnly_mismatch (letter : UInt16) (a : Argument) :
    FailsOnly Fault.OfArgument (.error (mismatch letter a) : Except Fault α) :=
  failsOnly_error (.unfit _ _)

/-- Taking an argument fails when none is left. -/
theorem failsOnly_take (s : Supply) : FailsOnly Fault.OfArgument s.take := by
  unfold Supply.take
  split
  · exact failsOnly_error (.missing _)
  · exact failsOnly_ok _

/-- The integer of an argument. -/
theorem failsOnly_integerOf (letter : UInt16) (a : Argument) :
    FailsOnly Fault.OfArgument (integerOf letter a) := by
  unfold integerOf
  split
  · exact failsOnly_ok _
  · split
    · exact failsOnly_ok _
    · exact failsOnly_mismatch _ _
  · exact failsOnly_mismatch _ _

/-- The number of an argument. -/
theorem failsOnly_numberOf (letter : UInt16) (a : Argument) :
    FailsOnly Fault.OfArgument (numberOf letter a) := by
  unfold numberOf
  split
  · exact failsOnly_ok _
  · exact failsOnly_ok _
  · exact failsOnly_mismatch _ _

/-- A size of a directive. -/
theorem failsOnly_sizeOf (size : Size) (s : Supply) :
    FailsOnly Fault.OfArgument (sizeOf size s) := by
  unfold sizeOf
  split
  · exact failsOnly_ok _
  · exact failsOnly_ok _
  · exact (failsOnly_take s).bind fun _ =>
      (failsOnly_integerOf _ _).bind fun _ => failsOnly_ok _

/-- All sizes of a directive. -/
theorem failsOnly_resolve (d : Directive) (s : Supply) :
    FailsOnly Fault.OfArgument (resolve d s) := by
  unfold resolve
  refine (failsOnly_sizeOf _ _).bind fun width => ?_
  dsimp only
  split
  · exact failsOnly_ok _
  · exact (failsOnly_sizeOf _ _).bind fun _ => failsOnly_ok _

/-- The field of a conversion. -/
theorem failsOnly_fieldOf (c : Conversion) (letter : UInt16) (r : Resolved)
    (separators : Separators) (a : Argument) :
    FailsOnly Fault.OfArgument (fieldOf c letter r separators a) := by
  have hinteger := failsOnly_integerOf letter a
  have hnumber := failsOnly_numberOf letter a
  cases c with
  | text =>
    dsimp only [fieldOf, textField]
    split
    · exact failsOnly_ok _
    · exact failsOnly_ok _
    · exact failsOnly_mismatch _ _
  | character =>
    dsimp only [fieldOf, characterField]
    split
    · exact failsOnly_ok _
    · split
      · split_ifs
        · exact failsOnly_ok _
        · exact failsOnly_mismatch _ _
      · exact failsOnly_mismatch _ _
    · exact failsOnly_mismatch _ _
  | count => exact failsOnly_ok _
  | decimal signed => exact hinteger.bind fun _ => failsOnly_ok _
  | radix base upper => exact hinteger.bind fun _ => failsOnly_ok _
  | pointer => exact hinteger.bind fun _ => failsOnly_ok _
  | fixed => exact hnumber.bind fun _ => failsOnly_ok _
  | exponent upper => exact hnumber.bind fun _ => failsOnly_ok _
  | general upper => exact hnumber.bind fun _ => failsOnly_ok _
  | hexadecimal upper => exact hnumber.bind fun _ => failsOnly_ok _
  | literal => exact failsOnly_ok _

/-- The piece of a directive. -/
theorem failsOnly_pieceOf (d : Directive) (letter : UInt16) (separators : Separators)
    (position : Nat) (s : Supply) :
    FailsOnly Fault.OfArgument (pieceOf d letter separators position s) := by
  unfold pieceOf
  refine (failsOnly_resolve d s).bind ?_
  rintro ⟨resolved, left⟩
  dsimp only
  split
  · exact failsOnly_ok _
  · refine (failsOnly_take _).bind ?_
    rintro ⟨argument, rest⟩
    dsimp only
    split
    · exact failsOnly_ok _
    · exact failsOnly_mismatch _ _
  · exact (failsOnly_take _).bind fun _ =>
      (failsOnly_fieldOf _ _ _ _ _).bind fun _ => failsOnly_ok _
  · exact (failsOnly_take _).bind fun _ =>
      (failsOnly_fieldOf _ _ _ _ _).bind fun _ => failsOnly_ok _

/-- A text in front of output does not change how the output ends. -/
theorem fault_pushText (t : Text) (o : Output) : (Output.pushText t o).fault = o.fault := by
  unfold Output.pushText
  split_ifs <;> rfl

/-- Output ends with a fault only for an argument. -/
theorem ofArgument_of_output (separators : Separators) (t : Text) (position : Nat) (s : Supply)
    (fault : Fault) :
    (output separators t position s).fault = some fault → fault.OfArgument := by
  induction t, position, s using output.induct with
  | case1 t position s before hrun =>
    intro h
    rw [output] at h
    split at h
    · rw [fault_pushText] at h
      cases h
    · rename_i hother
      rw [hrun] at hother
      cases hother
  | case2 t position s before behind hrun parsed ih =>
    intro h
    rw [output] at h
    split at h
    · rename_i hother
      rw [hrun] at hother
      cases hother
    · rename_i hother
      rw [hrun] at hother
      cases hother
      rw [fault_pushText] at h
      split at h
      · cases h
      · split at h
        · rename_i hpiece
          cases h
          exact failsOnly_pieceOf _ _ _ _ _ _ hpiece
        · exact ih _ _ h

/-- Formatting fails only for an argument. -/
theorem failsOnly_format (separators : Separators) (fmt : Text) (args : List Argument) :
    FailsOnly Fault.OfArgument (format separators fmt args) := by
  intro fault h
  rw [format_eq] at h
  split at h
  · rename_i hfault
    cases h
    exact ofArgument_of_output _ _ _ _ _ hfault
  · cases h

end Format

end TextUnits
