import TextUnits.Proofs.Transcode.Materialize
import TextUnits.Transcode.Whole

/-!
# Conversions that make their own destination

A whole conversion measures first and then writes into exactly that much room. The second pass
has the room it needs, so it never fails where the first did not: the answer is the encoding of
what measuring decodes, or the fault that measuring finds.
-/

namespace TextUnits

/-- Steps end a conversion for what they are, never for want of room. -/
theorem Step.ending_ne_outOfSpace (refuseInvalid : Bool) (steps : List Step) :
    ending refuseInvalid steps ≠ .outOfSpace := by
  unfold ending
  cases steps.find? fun step => step.stops refuseInvalid with
  | none => exact Status.noConfusion
  | some step => cases step <;> exact Status.noConfusion

namespace Request

open Step Reading

variable {source target : Encoding}

/-- A reading that takes up a destination leaves nothing of what the destination held. -/
theorem fill_of_full {order : Order} {reading : Reading} {held : List target.Unit}
    (hw : target.widthAll reading.codes = held.length) :
    fill order reading held = (target.encodeAll reading.codes).map (target.reorder order) := by
  obtain ⟨hlength, hslots⟩ := fill_eq order reading (Nat.le_of_eq hw)
  have hwritten := (target.length_stored order reading.codes).trans hw
  apply List.ext_getElem?
  intro i
  rw [hslots i, hw]
  by_cases hi : i < held.length
  · rw [if_pos hi]
  · rw [if_neg hi, if_neg (fun h => hi h.2.1), List.getElem?_eq_none (by omega),
      List.getElem?_eq_none (by omega)]

/-- The second pass, into a destination of just the measured size, ends as the measurement did and
leaves nothing of what the destination held. -/
theorem convert_of_measured {r : Request source target} (hs : r.measure.status = .success)
    {held : List target.Unit} (hheld : held.length = r.measure.length) :
    r.convert (some held) =
      ⟨r.measure, some ((target.encodeAll (codesOf r.decoded)).map
        (target.reorder r.targetOrder.resolve))⟩ := by
  obtain ⟨o, ho⟩ := exists_opening_of_success hs
  obtain ⟨kept, status, -, hall, -, hc⟩ := convert_of_opened ho held
  obtain ⟨rfl, rfl⟩ := hall (Nat.le_of_eq hheld.symm)
  have hw : target.widthAll (codesOf r.decoded) = held.length := by rw [hheld, length_measure]
  rw [hc, fill_of_full hw, measure_of_opened ho]

/-- A whole conversion gives the encoding of what measuring decodes, unless measuring fails. -/
theorem whole_eq (r : Request source target) (tellCapacity : Bool) :
    r.whole tellCapacity =
      match failure? r.measure source target none with
      | some fault => .error fault
      | none =>
        .ok ((target.encodeAll (codesOf r.decoded)).map
          (target.reorder r.targetOrder.resolve)) := by
  unfold whole
  dsimp only
  cases hm : failure? r.measure source target none with
  | some fault => rfl
  | none =>
    have hs : r.measure.status = .success := by
      unfold failure? failureWith? at hm
      split_ifs at hm with hs
      exact hs
    dsimp only
    rw [convert_of_measured hs List.length_replicate, failure?, failureWith?, if_pos hs,
      Option.getD_some]

/-- Without a destination there is none that could be too small. -/
theorem measure_ne_outOfSpace (r : Request source target) : r.measure.status ≠ .outOfSpace := by
  cases ho : r.opening with
  | error status =>
    rw [measure_of_refused ho]
    rintro rfl
    exact Bool.noConfusion (terminates_of_refused ho)
  | ok o =>
    rw [measure_of_opened ho]
    exact ending_ne_outOfSpace _ _

/-- What a conversion that makes its own destination owes to its request. -/
structure Fills (r : Request source target) (answer : Except Fault (List target.Unit)) : Prop where
  /-- When measuring succeeds, the answer is the destination. The second pass ends as the
  measurement did and replaces everything that a destination of the measured size held. -/
  of_success : r.measure.status = .success →
    ∃ units, answer = .ok units ∧ units.length = r.measure.length ∧
      ∀ held : List target.Unit, held.length = r.measure.length →
        r.convert (some held) = ⟨r.measure, some units⟩
  /-- When measuring fails, the answer is its fault. -/
  of_failure : r.measure.status ≠ .success →
    answer = .error (.conversion r.measure.status (Double.ofNat r.measure.processed)
      (Double.ofNat r.measure.length) source target none)

/-- A whole conversion fills its destination, or fails as measuring does. -/
theorem fills_whole (r : Request source target) (tellCapacity : Bool) :
    r.Fills (r.whole tellCapacity) := by
  refine ⟨fun hs => ?_, fun hs => ?_⟩
  · refine ⟨_, ?_, ?_, fun held => convert_of_measured hs⟩
    · rw [whole_eq, failure?, failureWith?, if_pos hs]
    · rw [length_measure, Encoding.length_stored]
  · rw [whole_eq, failure?, failureWith?, if_neg hs]

end Request

end TextUnits
