import TextUnits.Proofs.Encoding.Unmarked
import TextUnits.Proofs.Transcode.Materialize

/-!
# What a conversion depends on

How a request is opened decides a conversion, together with what is refused and the order of the
target: requests that are opened with the same steps give the same counts and the same
destination, whatever their units look like. A request that reads units without a mark is opened at
the first of them.
-/

namespace TextUnits.Request

open Step Reading

variable {source target : Encoding} {r other : Request source target}

/-- The units that a request reads: those that its length selects, a byte order mark included. -/
def selected (r : Request source target) : Option (List source.Unit) :=
  r.units.bind (selectUnits source r.length)

/-- A request whose length does not fit its units is refused at once. -/
theorem opening_of_unselected (h : r.selected = none) : r.opening = .error .invalidArgument := by
  unfold selected at h
  unfold opening
  rw [h]

/-- A request is opened behind the mark at the start of its units, if there is one, in the order
that its wish and the mark settle. -/
theorem opening_of_selected {units : List source.Unit} (h : r.selected = some units) :
    r.opening =
      if source.hasMark units = true ∧ r.strictness.forbidMark = true then .error .markRejected
      else
        .ok ⟨((source.markOf? units).map (·.size)).getD 0,
          source.steps ((units.drop (((source.markOf? units).map (·.size)).getD 0)).map
            (source.reorder (r.sourceOrder.resolve ((source.markOf? units).bind (·.order)))))⟩ := by
  unfold selected at h
  unfold opening
  rw [h]
  rfl

/-- A request that allows a mark is opened behind the one at the start of its units, if there is
one. -/
theorem opening_of_allowed {units : List source.Unit} (h : r.selected = some units)
    (hf : r.strictness.forbidMark = false) :
    r.opening =
      .ok ⟨((source.markOf? units).map (·.size)).getD 0,
        source.steps ((units.drop (((source.markOf? units).map (·.size)).getD 0)).map
          (source.reorder (r.sourceOrder.resolve ((source.markOf? units).bind (·.order)))))⟩ := by
  rw [opening_of_selected h, hf]
  exact if_neg fun hrefused => Bool.false_ne_true hrefused.2

/-- A request for units that start with no mark is opened at the first of them. -/
theorem opening_of_unmarked {units : List source.Unit} (h : r.selected = some units)
    (hm : source.hasMark units = false) :
    r.opening =
      .ok ⟨0, source.steps (units.map (source.reorder (r.sourceOrder.resolve none)))⟩ := by
  have hmark := Encoding.hasMark_eq_false_iff.mp hm
  rw [opening_of_selected h, hm, hmark, if_neg (fun hrefused => Bool.false_ne_true hrefused.1)]
  rfl

/-- Requests that are opened alike and have the same target convert alike. -/
theorem convert_congr (ho : r.opening = other.opening) (hs : r.strictness = other.strictness)
    (ht : r.targetOrder = other.targetOrder) (dest : Option (List target.Unit)) :
    r.convert dest = other.convert dest := by
  rw [convert_eq, convert_eq, ho, hs, ht]

/-- Units that are passed over in front of the same steps are counted as processed, and change
nothing else. -/
theorem convert_of_skipped {skipped : Nat} {steps : List Step}
    (ho : r.opening = .ok ⟨skipped, steps⟩) (hp : other.opening = .ok ⟨0, steps⟩)
    (hs : r.strictness = other.strictness) (ht : r.targetOrder = other.targetOrder)
    (dest : Option (List target.Unit)) :
    let done := other.convert dest
    r.convert dest =
      ⟨⟨done.outcome.status, done.outcome.length, skipped + done.outcome.processed⟩,
        done.dest⟩ := by
  intro done
  dsimp only [done]
  rw [convert_eq, convert_eq, ho, hp, hs, ht]
  dsimp only
  rw [Nat.zero_add]

end TextUnits.Request
