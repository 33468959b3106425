import TextUnits.Proofs.Transcode.Resumption

/-!
# Refusing and replacing malformed input

A request may refuse malformed input or replace it. Both readings walk over the same decoding steps
and part at the first malformed one: there the strict reading stops, and the lenient one writes a
replacement and goes on. A source that is cut off stops both. So the strict measurement either is
the lenient one or tells where the first replacement comes to stand.
-/

namespace TextUnits

open Step Reading

namespace Step

/-- A lenient reading stops at a cut only. -/
theorem eq_truncated_of_stops {step : Step} (h : step.stops false = true) :
    step = .truncated := by
  cases step with
  | scalar code size => cases h
  | invalid size => cases h
  | truncated => rfl

/-- A lenient reading ends well unless the source is cut off. -/
theorem ending_false (steps : List Step) :
    ending false steps = if .truncated ∈ steps then .invalidArgument else .success := by
  induction steps with
  | nil => rfl
  | cons step rest ih =>
    cases hs : step.stops false with
    | true =>
      rw [ending_cons_of_stops hs, eq_truncated_of_stops hs, if_pos List.mem_cons_self]
      rfl
    | false =>
      have hstep : .truncated ≠ step := by
        rintro rfl
        cases hs
      rw [ending_cons_of_not_stops hs, ih]
      simp only [List.mem_cons, hstep, false_or]

/-- A strict and a lenient reading of the same steps: either they keep the same steps and end in the
same way, or the strict one ends in front of a malformed step, which the lenient one replaces. -/
theorem accepted_true_cases (steps : List Step) :
    (ending true steps ≠ .invalidCodePoint ∧ ending false steps = ending true steps ∧
      accepted false steps = accepted true steps) ∨
    (ending true steps = .invalidCodePoint ∧ ∃ size behind,
      steps = accepted true steps ++ .invalid size :: behind ∧
      accepted false steps = accepted true steps ++ .invalid size :: accepted false behind) := by
  induction steps with
  | nil => exact .inl ⟨Status.noConfusion, rfl, rfl⟩
  | cons step rest ih =>
    cases step with
    | scalar code size =>
      have hstrict : (scalar code size).stops true = false := rfl
      have hlenient : (scalar code size).stops false = false := rfl
      rw [ending_cons_of_not_stops hstrict, ending_cons_of_not_stops hlenient,
        accepted_cons_of_not_stops hstrict, accepted_cons_of_not_stops hlenient]
      rcases ih with ⟨hends, hsame, hkept⟩ | ⟨hends, malformed, behind, hsteps, hkept⟩
      · exact .inl ⟨hends, hsame, congrArg _ hkept⟩
      · exact .inr ⟨hends, malformed, behind, congrArg _ hsteps, congrArg _ hkept⟩
    | invalid size =>
      have hstrict : (invalid size).stops true = true := rfl
      have hlenient : (invalid size).stops false = false := rfl
      rw [ending_cons_of_stops hstrict, accepted_cons_of_stops hstrict,
        accepted_cons_of_not_stops hlenient]
      exact .inr ⟨rfl, size, rest, rfl, rfl⟩
    | truncated =>
      have hstops : ∀ refuseInvalid, truncated.stops refuseInvalid = true := fun _ => rfl
      rw [ending_cons_of_stops (hstops true), ending_cons_of_stops (hstops false),
        accepted_cons_of_stops (hstops true), accepted_cons_of_stops (hstops false)]
      exact .inl ⟨Status.noConfusion, rfl, rfl⟩

end Step

namespace Encoding

/-- A walk that has a first step decodes it at the front of its source. -/
theorem decode_of_steps_cons {e : Encoding} {units : List e.Unit} {step : Step}
    {behind : List Step} (h : e.steps units = step :: behind) : e.decode units = step := by
  have hne : units ≠ [] := by
    rintro rfl
    rw [steps] at h
    cases h
  by_cases hcut : e.decode units = .truncated
  · rw [steps_of_truncated hne hcut, List.cons.injEq] at h
    exact hcut.trans h.1
  · rw [steps_of_decode hne hcut, List.cons.injEq] at h
    exact h.1

end Encoding

namespace Request

variable {source target : Encoding}

/-- The request that refuses malformed input or replaces it, and is otherwise the same. -/
def refusing (r : Request source target) (refuseInvalid : Bool) : Request source target :=
  { r with strictness := { r.strictness with refuseInvalid := refuseInvalid } }

/-- Whether malformed input is refused decides nothing before the first step is read. -/
theorem opening_refusing (r : Request source target) (refuseInvalid : Bool) :
    (r.refusing refuseInvalid).opening = r.opening := rfl

/-- A request that is opened decodes what the strictness accepts of its steps, and measures that. -/
theorem measure_refusing_of_opened {r : Request source target} {o : Opening}
    (ho : r.opening = .ok o) (refuseInvalid : Bool) :
    (r.refusing refuseInvalid).decoded = accepted refuseInvalid o.steps ∧
      (r.refusing refuseInvalid).start = o.skipped ∧
      (r.refusing refuseInvalid).measure =
        ⟨ending refuseInvalid o.steps,
          target.widthAll (codesOf (r.refusing refuseInvalid).decoded),
          o.skipped + sizeAll (r.refusing refuseInvalid).decoded⟩ := by
  have hopening := (opening_refusing r refuseInvalid).trans ho
  have hstart : (r.refusing refuseInvalid).start = o.skipped := by rw [start, hopening]
  refine ⟨?_, hstart, ?_⟩
  · rw [decoded, hopening]
    rfl
  · rw [← hstart]
    exact measure_of_opened hopening

/-- A request is refused at once for its length or its mark, and never for malformed input. -/
theorem ne_invalidCodePoint_of_refused {r : Request source target} {status : Status}
    (h : r.opening = .error status) : status ≠ .invalidCodePoint := by
  unfold opening at h
  split at h
  · cases h
    exact Status.noConfusion
  · dsimp only at h
    split_ifs at h
    cases h
    exact Status.noConfusion

/-- An opened request whose steps end for malformed input under strict reading finds it in its
source behind the units of the steps that the strict reading keeps. The lenient reading keeps the
same steps and the malformed one behind them. -/
theorem exists_malformed_of_opened {r : Request source target} {o : Opening}
    (ho : r.opening = .ok o) (hends : ending true o.steps = .invalidCodePoint) :
    ∃ units size behind, r.selected = some units ∧
      source.decode ((units.drop (o.skipped + sizeAll (accepted true o.steps))).map
        (source.reorder r.readOrder)) = .invalid size ∧
      accepted false o.steps = accepted true o.steps ++ .invalid size :: behind := by
  obtain ⟨units, hunits, hwalk⟩ := exists_selected_of_opened ho
  rcases accepted_true_cases o.steps with ⟨hother, -⟩ | ⟨-, size, rest, hsteps, hkept⟩
  · exact absurd hends hother
  · have huncut : .truncated ∉ accepted true o.steps :=
      fun hm => Bool.noConfusion (not_stops_of_mem_accepted hm)
    have hbehind := Encoding.steps_drop (hwalk.symm.trans hsteps) huncut
    have hdecode := Encoding.decode_of_steps_cons hbehind
    rw [← List.map_drop, List.drop_drop] at hdecode
    exact ⟨units, size, accepted false rest, hunits, hdecode, hkept⟩

/-- A conversion that decodes the steps of another one, then a malformed step, writes the units of
the other one, then a replacement. -/
theorem written_of_decoded_append {r other : Request source target} {size : Nat}
    {behind : List Step} (hd : r.decoded = other.decoded ++ .invalid size :: behind)
    (ht : r.targetOrder = other.targetOrder) {room : List target.Unit}
    (hroom : r.measure.length ≤ room.length) :
    (r.convert (some room)).written.take other.measure.length =
        (other.convert (some room)).written ∧
      ((r.convert (some room)).written.drop other.measure.length).take
          (target.width Scalar.replacement) =
        (target.encode Scalar.replacement).map (target.reorder r.targetOrder.resolve) := by
  have hcodes : codesOf r.decoded =
      codesOf other.decoded ++ Scalar.replacement :: codesOf behind := by
    rw [hd, codesOf_append, codesOf_cons rfl]
  have hother : other.measure.length ≤ room.length := by
    rw [length_measure, hcodes, Encoding.widthAll_append] at hroom
    rw [length_measure]
    omega
  have hkept : (other.convert (some room)).written.length = other.measure.length := by
    rw [(convert_of_room hother).2, Encoding.length_stored, length_measure]
  have hreplacement : ((target.encode Scalar.replacement).map
      (target.reorder r.targetOrder.resolve)).length = target.width Scalar.replacement := by
    rw [List.length_map, Encoding.length_encode]
  have hwritten : (r.convert (some room)).written = (other.convert (some room)).written ++
      ((target.encode Scalar.replacement).map (target.reorder r.targetOrder.resolve) ++
        (target.encodeAll (codesOf behind)).map (target.reorder r.targetOrder.resolve)) := by
    rw [(convert_of_room hroom).2, (convert_of_room hother).2, hcodes, Encoding.encodeAll_append,
      Encoding.encodeAll_cons, List.map_append, List.map_append, ht]
  rw [hwritten]
  refine ⟨List.take_left' hkept, ?_⟩
  rw [List.drop_left' hkept, List.take_left' hreplacement]

/-- The strict and the lenient measurement of a source are the same and count the same steps, unless
the strict one ends for malformed input; the lenient one never does. When the strict one does, it
has counted the steps in front of the first malformed one, which stands in the source at the place
that it has processed. The lenient one counts the same steps, then the malformed one as a
replacement, then others. Of what the lenient request writes, the units that the strict one counts
are those that the strict one writes, and the next ones are the replacement. -/
theorem measure_refusing (r : Request source target) :
    let strict := r.refusing true
    let lenient := r.refusing false
    lenient.measure.status ≠ .invalidCodePoint ∧
      (strict.measure.status ≠ .invalidCodePoint →
        lenient.measure = strict.measure ∧ lenient.decoded = strict.decoded) ∧
      (strict.measure.status = .invalidCodePoint →
        ∃ units size behind, r.selected = some units ∧
          source.decode ((units.drop strict.measure.processed).map (source.reorder r.readOrder)) =
            .invalid size ∧
          strict.measure.processed = lenient.start + sizeAll strict.decoded ∧
          lenient.decoded = strict.decoded ++ .invalid size :: behind ∧
          codesOf lenient.decoded =
            codesOf strict.decoded ++ Scalar.replacement :: codesOf behind ∧
          ∀ room : List target.Unit, lenient.measure.length ≤ room.length →
            let written := (lenient.convert (some room)).written
            let counted := strict.measure.length
            written.take counted = (strict.convert (some room)).written ∧
              (written.drop counted).take (target.width Scalar.replacement) =
                (target.encode Scalar.replacement).map
                  (target.reorder r.targetOrder.resolve)) := by
  intro strict lenient
  cases ho : r.opening with
  | error status =>
    have hstrict := (opening_refusing r true).trans ho
    have hlenient := (opening_refusing r false).trans ho
    have hnone : lenient.decoded = strict.decoded := by rw [decoded, decoded, hstrict, hlenient]
    have hends := ne_invalidCodePoint_of_refused ho
    rw [measure_of_refused hstrict, measure_of_refused hlenient]
    exact ⟨hends, fun _ => ⟨rfl, hnone⟩, fun h => absurd h hends⟩
  | ok o =>
    obtain ⟨hkept, -, hcounts⟩ := measure_refusing_of_opened ho true
    obtain ⟨hall, hstart, hmeasure⟩ := measure_refusing_of_opened ho false
    refine ⟨?_, fun hends => ?_, fun hends => ?_⟩
    · rw [hmeasure, ending_false]
      split_ifs
      · exact Status.noConfusion
      · exact Status.noConfusion
    · rw [hcounts] at hends
      rcases accepted_true_cases o.steps with ⟨-, hending, haccepted⟩ | ⟨hother, -⟩
      · have hdecoded : lenient.decoded = strict.decoded := by rw [hall, hkept, haccepted]
        refine ⟨?_, hdecoded⟩
        rw [hmeasure, hcounts, hdecoded, hending]
      · exact absurd hother hends
    · have hmalformed : ending true o.steps = .invalidCodePoint := by rwa [hcounts] at hends
      have hprocessed : strict.measure.processed = o.skipped + sizeAll strict.decoded := by
        rw [hcounts]
      obtain ⟨units, size, behind, hunits, hdecode, haccepted⟩ :=
        exists_malformed_of_opened ho hmalformed
      rw [← hkept] at hdecode
      rw [← hkept, ← hall] at haccepted
      have hcodes : codesOf lenient.decoded =
          codesOf strict.decoded ++ Scalar.replacement :: codesOf behind := by
        rw [haccepted, codesOf_append, codesOf_cons rfl]
      exact ⟨units, size, behind, hunits, by rwa [hprocessed], by rw [hprocessed, hstart],
        haccepted, hcodes, fun room hroom => written_of_decoded_append haccepted rfl hroom⟩

end Request

end TextUnits
