import TextUnits.Proofs.Encoding.Decoding
import TextUnits.Transcode.Basic
import Mathlib.Tactic.Common

/-!
# What a reading keeps

A conversion stops in front of a step for one of three reasons: the source is cut off there,
malformed input is refused, or the code point has no room. The first two depend on the source
alone, so the steps in front of them are the same whatever the destination; of those a
destination keeps the longest beginning that fits into it. The main statements say so of
`Reading.take` without a limit and with one.
-/

namespace TextUnits

namespace Step

/-- Whether a conversion stops in front of a step however much room there is: at a cut, and at
malformed input when it is refused. -/
def stops (refuseInvalid : Bool) : Step → Bool
  | scalar .. => false
  | invalid _ => refuseInvalid
  | truncated => true

/-- Status of a conversion that stops in front of a step. -/
def stopStatus : Step → Status
  | truncated => .invalidArgument
  | _ => .invalidCodePoint

/-- Code points that steps stand for, replacements included. -/
def codesOf (steps : List Step) : List Nat := steps.filterMap code?

/-- Units of the source that steps take. -/
def sizeAll : List Step → Nat
  | [] => 0
  | step :: rest => step.size + sizeAll rest

/-- The steps in front of the first one that stops a conversion. -/
def accepted (refuseInvalid : Bool) (steps : List Step) : List Step :=
  steps.takeWhile fun s => !s.stops refuseInvalid

/-- Status of a conversion of steps with room for all of them. -/
def ending (refuseInvalid : Bool) (steps : List Step) : Status :=
  ((steps.find? fun s => s.stops refuseInvalid).map stopStatus).getD .success

/-- A step that stops no conversion stands for a code point. -/
theorem exists_code?_of_not_stops {refuseInvalid : Bool} {step : Step}
    (hs : step.stops refuseInvalid = false) : ∃ code, step.code? = some code := by
  cases step with
  | scalar code size => exact ⟨code, rfl⟩
  | invalid size => exact ⟨Scalar.replacement, rfl⟩
  | truncated => cases hs

/-- Code points of a step in front of others. -/
theorem codesOf_cons {step : Step} {code : Nat} (hc : step.code? = some code)
    (rest : List Step) : codesOf (step :: rest) = code :: codesOf rest :=
  List.filterMap_cons_some hc

/-- A step that does not stop a conversion is accepted in front of the others. -/
theorem accepted_cons_of_not_stops {refuseInvalid : Bool} {step : Step}
    (hs : step.stops refuseInvalid = false) (rest : List Step) :
    accepted refuseInvalid (step :: rest) = step :: accepted refuseInvalid rest := by
  rw [accepted, List.takeWhile_cons_of_pos (by rw [hs]; rfl)]
  rfl

/-- Nothing is accepted behind a step that stops a conversion. -/
theorem accepted_cons_of_stops {refuseInvalid : Bool} {step : Step}
    (hs : step.stops refuseInvalid = true) (rest : List Step) :
    accepted refuseInvalid (step :: rest) = [] := by
  rw [accepted, List.takeWhile_cons_of_neg (by rw [hs]; decide)]

/-- A step that does not stop a conversion leaves its ending to the others. -/
theorem ending_cons_of_not_stops {refuseInvalid : Bool} {step : Step}
    (hs : step.stops refuseInvalid = false) (rest : List Step) :
    ending refuseInvalid (step :: rest) = ending refuseInvalid rest := by
  rw [ending, List.find?_cons_of_neg (by rw [hs]; decide)]
  rfl

/-- A step that stops a conversion decides its ending. -/
theorem ending_cons_of_stops {refuseInvalid : Bool} {step : Step}
    (hs : step.stops refuseInvalid = true) (rest : List Step) :
    ending refuseInvalid (step :: rest) = step.stopStatus := by
  rw [ending, List.find?_cons_of_pos hs]
  rfl

end Step

namespace Reading

open Step

variable {target : Encoding} {refuseInvalid : Bool}

/-- A step that stops a conversion ends a reading, whatever the room is. -/
theorem take_cons_of_stops {step : Step} (hs : step.stops refuseInvalid = true)
    (room : Option Nat) (rest : List Step) :
    take target refuseInvalid room (step :: rest) = ⟨step.stopStatus, [], 0⟩ := by
  cases step with
  | scalar code size => cases hs
  | invalid size =>
    rw [stops] at hs
    simp only [take, code?, Step.size, hs, and_self, if_true, stopStatus]
  | truncated => simp only [take, code?, stopStatus]

/-- A step that does not stop a conversion is read when its code point has room. -/
theorem take_cons_of_not_stops {step : Step} {code : Nat}
    (hs : step.stops refuseInvalid = false) (hc : step.code? = some code)
    (room : Option Nat) (rest : List Step) :
    take target refuseInvalid room (step :: rest) =
      if ∀ free, room = some free → target.width code ≤ free then
        push code step.size
          (take target refuseInvalid (room.map (· - target.width code)) rest)
      else ⟨.outOfSpace, [], 0⟩ := by
  have hn : ¬ (step = .invalid step.size ∧ refuseInvalid = true) := by
    rintro ⟨he, hr⟩
    rw [he, stops, hr] at hs
    cases hs
  rw [take, hc]
  dsimp only
  rw [if_neg hn]
  cases room with
  | none => simp only [reduceCtorEq, false_implies, implies_true, if_true, Option.map_none]
  | some free => simp only [Option.some.injEq, forall_eq', Option.map_some]

/-- Without a limit a reading keeps all accepted steps and ends as the source has it. -/
theorem take_none (steps : List Step) :
    take target refuseInvalid none steps =
      ⟨ending refuseInvalid steps, codesOf (accepted refuseInvalid steps),
        sizeAll (accepted refuseInvalid steps)⟩ := by
  induction steps with
  | nil => rfl
  | cons step rest ih =>
    cases hs : step.stops refuseInvalid with
    | true =>
      rw [take_cons_of_stops hs, ending_cons_of_stops hs, accepted_cons_of_stops hs]
      rfl
    | false =>
      obtain ⟨code, hc⟩ := exists_code?_of_not_stops hs
      rw [take_cons_of_not_stops hs hc, if_pos (fun _ h => by cases h), Option.map_none, ih,
        ending_cons_of_not_stops hs, accepted_cons_of_not_stops hs, codesOf_cons hc, sizeAll]
      rfl

/-- The longest beginning of steps whose code points fit into `room` units of an encoding. -/
structure LongestFit (target : Encoding) (room : Nat) (steps kept : List Step) : Prop where
  /-- The steps are the first ones. -/
  beginning : kept <+: steps
  /-- Their code points fit. -/
  fits : target.widthAll (codesOf kept) ≤ room
  /-- Every beginning that fits is part of them. -/
  longest : ∀ other, other <+: steps → target.widthAll (codesOf other) ≤ room → other <+: kept

/-- Of no steps none are kept. -/
theorem LongestFit.nil (target : Encoding) (room : Nat) : LongestFit target room [] [] :=
  ⟨List.nil_prefix, Nat.zero_le _, fun _ ho _ => ho⟩

/-- Nothing is kept when the first code point has no room. -/
theorem LongestFit.none_of_lt {room code : Nat} {step : Step} (hc : step.code? = some code)
    (hw : room < target.width code) (steps : List Step) :
    LongestFit target room (step :: steps) [] := by
  refine ⟨List.nil_prefix, Nat.zero_le _, ?_⟩
  intro other ho hf
  cases other with
  | nil => exact List.nil_prefix
  | cons first more =>
    obtain ⟨rfl, hmore⟩ := List.cons_prefix_cons.mp ho
    rw [codesOf_cons hc, Encoding.widthAll] at hf
    omega

/-- A first code point that has room is kept in front of what the remaining room keeps. -/
theorem LongestFit.cons {room code : Nat} {step : Step} {steps kept : List Step}
    (hc : step.code? = some code) (hw : target.width code ≤ room)
    (h : LongestFit target (room - target.width code) steps kept) :
    LongestFit target room (step :: steps) (step :: kept) := by
  refine ⟨List.cons_prefix_cons.mpr ⟨rfl, h.beginning⟩, ?_, ?_⟩
  · have hf := h.fits
    rw [codesOf_cons hc, Encoding.widthAll]
    omega
  · intro other ho hf
    cases other with
    | nil => exact List.nil_prefix
    | cons first more =>
      obtain ⟨rfl, hmore⟩ := List.cons_prefix_cons.mp ho
      rw [codesOf_cons hc, Encoding.widthAll] at hf
      exact List.cons_prefix_cons.mpr ⟨rfl, h.longest more hmore (by omega)⟩

/-- All steps are kept when all of them fit. -/
theorem LongestFit.eq_of_fits {room : Nat} {steps kept : List Step}
    (h : LongestFit target room steps kept)
    (hf : target.widthAll (codesOf steps) ≤ room) : kept = steps :=
  (h.longest steps (List.prefix_refl steps) hf).eq_of_length_le h.beginning.length_le |>.symm

/-- A reading with limited room keeps the longest beginning of the accepted steps that fits.
When all of them fit it is the reading without a limit, and otherwise it runs out of space. -/
theorem take_some (target : Encoding) (refuseInvalid : Bool) (room : Nat)
    (steps : List Step) :
    ∃ kept, LongestFit target room (accepted refuseInvalid steps) kept ∧
      take target refuseInvalid (some room) steps =
        if target.widthAll (codesOf (accepted refuseInvalid steps)) ≤ room then
          take target refuseInvalid none steps
        else ⟨.outOfSpace, codesOf kept, sizeAll kept⟩ := by
  induction steps generalizing room with
  | nil => exact ⟨[], LongestFit.nil target room, (if_pos (Nat.zero_le room)).symm⟩
  | cons step rest ih =>
    cases hs : step.stops refuseInvalid with
    | true =>
      rw [take_cons_of_stops hs, take_cons_of_stops hs, accepted_cons_of_stops hs]
      exact ⟨[], LongestFit.nil target room, (if_pos (Nat.zero_le room)).symm⟩
    | false =>
      obtain ⟨code, hc⟩ := exists_code?_of_not_stops hs
      rw [accepted_cons_of_not_stops hs, codesOf_cons hc, Encoding.widthAll,
        take_cons_of_not_stops hs hc]
      simp only [Option.some.injEq, forall_eq', Option.map_some]
      by_cases hw : target.width code ≤ room
      · obtain ⟨kept, hk, ht⟩ := ih (room - target.width code)
        refine ⟨step :: kept, hk.cons hc hw, ?_⟩
        rw [if_pos hw, ht, codesOf_cons hc, sizeAll]
        by_cases hall : target.width code +
            target.widthAll (codesOf (accepted refuseInvalid rest)) ≤ room
        · rw [if_pos hall, if_pos (by omega), take_cons_of_not_stops hs hc,
            if_pos (fun _ h => by cases h), Option.map_none]
        · rw [if_neg hall, if_neg (by omega)]
          rfl
      · refine ⟨[], LongestFit.none_of_lt hc (by omega) _, ?_⟩
        rw [if_neg hw, if_neg (by omega)]
        rfl

end Reading

end TextUnits
