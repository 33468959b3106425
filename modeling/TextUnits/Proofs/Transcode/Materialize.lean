import TextUnits.Proofs.Transcode.Reading
import TextUnits.Encoding.Checked

/-!
# Measuring and writing

A conversion without a destination measures, one with a destination writes. `Request.opening`
separates what both do first from what they do with the decoding steps. The main statement says
that writing follows the measurement: it ends the same way when everything fits, keeps the
longest beginning that fits otherwise, and touches no slot of the destination but those of the
units it counts and one for the zero behind them.
-/

namespace TextUnits

open Step Reading

namespace Encoding

variable {e : Encoding}

/-- A scalar value is not refused when its width is asked for. -/
theorem width?_of_isScalar {code : Nat} (h : Scalar.isScalar code = true) :
    e.width? code = .ok (e.width code) := by
  rw [width?, Scalar.ofInt?, Int.toNat_natCast, if_pos ⟨Int.natCast_nonneg code, h⟩]

/-- A scalar value is not refused when it is to be encoded. -/
theorem encode?_of_isScalar {code : Nat} (h : Scalar.isScalar code = true) :
    e.encode? code = .ok (e.encode code) := by
  rw [encode?, Scalar.ofInt?, Int.toNat_natCast, if_pos ⟨Int.natCast_nonneg code, h⟩]

/-- Code points take as many units as their encoding has, in any order. -/
theorem length_stored (e : Encoding) (o : Order) (codes : List Nat) :
    ((e.encodeAll codes).map (e.reorder o)).length = e.widthAll codes := by
  rw [List.length_map, length_encodeAll]

end Encoding

namespace Request

variable {source target : Encoding}

/-- What a request goes on with that is not refused at once. -/
structure Opening where
  /-- Units of the byte order mark that is passed over. -/
  skipped : Nat
  /-- Decoding steps of the units behind the mark. -/
  steps : List Step

/-- How a request begins: refused at once under a status, or opened. -/
def opening (r : Request source target) : Except Status Opening :=
  match r.units.bind (selectUnits source r.length) with
  | none => .error .invalidArgument
  | some units =>
    let mark := source.markOf? units
    if mark.isSome ∧ r.strictness.forbidMark then .error .markRejected
    else
      let skipped := (mark.map (·.size)).getD 0
      let order := r.sourceOrder.resolve (mark.bind (·.order))
      .ok ⟨skipped, source.steps ((units.drop skipped).map (source.reorder order))⟩

/-- The steps that a request reads when there is room for all of them; none when it is refused
at once. -/
def decoded (r : Request source target) : List Step :=
  match r.opening with
  | .error _ => []
  | .ok o => accepted r.strictness.refuseInvalid o.steps

/-- Units in front of the decoded steps: those of a byte order mark that is passed over. -/
def start (r : Request source target) : Nat :=
  match r.opening with
  | .error _ => 0
  | .ok o => o.skipped

/-- A conversion is refused as its request is at once, or reads the opened steps with the room
of its destination. -/
theorem convert_eq (r : Request source target) (dest : Option (List target.Unit)) :
    r.convert dest =
      match r.opening with
      | .error status => refuse status dest
      | .ok o =>
        let reading :=
          Reading.take target r.strictness.refuseInvalid (dest.map List.length) o.steps
        ⟨⟨reading.status, target.widthAll reading.codes, o.skipped + reading.size⟩,
          dest.map (fill r.targetOrder.resolve reading)⟩ := by
  unfold convert opening
  cases r.units with
  | none => rfl
  | some all =>
    rw [Option.bind_some]
    dsimp only
    cases selectUnits source r.length all with
    | none => rfl
    | some units =>
      dsimp only
      split_ifs
      · rfl
      · rfl

/-- A request that is refused at once writes no zero. -/
theorem terminates_of_refused {r : Request source target} {status : Status}
    (h : r.opening = .error status) : terminates status = false := by
  unfold opening at h
  split at h
  · cases h
    rfl
  · dsimp only at h
    split_ifs at h
    cases h
    rfl

/-- All code points that a request decodes are scalar values. -/
theorem isScalar_of_mem_decoded {r : Request source target} {code : Nat}
    (h : code ∈ codesOf r.decoded) : Scalar.isScalar code = true := by
  obtain ⟨step, hm, hc⟩ := List.mem_filterMap.mp h
  unfold decoded at hm
  cases ho : r.opening with
  | error status =>
    rw [ho] at hm
    exact absurd hm List.not_mem_nil
  | ok o =>
    rw [ho] at hm
    have hstep := (List.takeWhile_subset _) hm
    unfold opening at ho
    split at ho
    · cases ho
    · dsimp only at ho
      split_ifs at ho with hmark
      cases ho
      exact Encoding.isScalar_of_mem_steps hstep hc

/-- Measuring reads all decoded steps. -/
theorem measure_of_opened {r : Request source target} {o : Opening} (h : r.opening = .ok o) :
    r.measure = ⟨ending r.strictness.refuseInvalid o.steps, target.widthAll (codesOf r.decoded),
      r.start + sizeAll r.decoded⟩ := by
  rw [measure, convert_eq, decoded, start, h]
  dsimp only [Option.map_none]
  rw [take_none]

/-- A request that is refused at once measures nothing. -/
theorem measure_of_refused {r : Request source target} {status : Status}
    (h : r.opening = .error status) : r.measure = ⟨status, 0, 0⟩ := by
  rw [measure, convert_eq, h]
  rfl

/-- Measuring counts the units of what is decoded. -/
theorem length_measure (r : Request source target) :
    r.measure.length = target.widthAll (codesOf r.decoded) := by
  cases ho : r.opening with
  | error status =>
    rw [measure_of_refused ho, decoded, ho]
    rfl
  | ok o => rw [measure_of_opened ho]

/-- A request whose conversion ends well or for want of room is opened. -/
theorem exists_opening_of_terminates {r : Request source target} {dest : Option (List target.Unit)}
    (h : terminates (r.convert dest).outcome.status = true) : ∃ o, r.opening = .ok o := by
  cases ho : r.opening with
  | error status =>
    rw [convert_eq, ho] at h
    dsimp only [refuse] at h
    rw [terminates_of_refused ho] at h
    cases h
  | ok o => exact ⟨o, rfl⟩

/-- A request whose measurement succeeds is opened. -/
theorem exists_opening_of_success {r : Request source target} (hs : r.measure.status = .success) :
    ∃ o, r.opening = .ok o := by
  have hends : terminates (r.convert none).outcome.status = true := by
    rw [measure] at hs
    rw [hs]
    rfl
  exact exists_opening_of_terminates hends

/-- The status under which a conversion writes a zero behind its result. -/
theorem terminates_iff {status : Status} :
    terminates status = true ↔ status = .success ∨ status = .outOfSpace := by
  cases status <;> decide

/-- A reading that fits fills the front of a destination with its units in the wanted order,
then a zero when it ends so and a slot is left, and leaves all other slots alone. -/
theorem fill_eq (order : Order) (reading : Reading) {held : List target.Unit}
    (hf : target.widthAll reading.codes ≤ held.length) :
    (fill order reading held).length = held.length ∧
      ∀ i, (fill order reading held)[i]? =
        if i < target.widthAll reading.codes then
          ((target.encodeAll reading.codes).map (target.reorder order))[i]?
        else if i = target.widthAll reading.codes ∧ i < held.length ∧
            (reading.status = .success ∨ reading.status = .outOfSpace) then some (target.unit 0)
        else held[i]? := by
  have hw := target.length_stored order reading.codes
  unfold fill overlay
  dsimp only
  generalize (target.encodeAll reading.codes).map (target.reorder order) = written at hw ⊢
  rw [← hw] at hf ⊢
  by_cases hz : terminates reading.status = true ∧ written.length < held.length
  · rw [if_pos hz]
    constructor
    · simp only [List.length_append, List.length_drop, List.length_cons, List.length_nil]
      omega
    · intro i
      rcases Nat.lt_trichotomy i written.length with hi | hi | hi
      · rw [if_pos hi, List.append_assoc, List.getElem?_append_left hi]
      · rw [if_neg (by omega), if_pos ⟨hi, by omega, terminates_iff.mp hz.1⟩, List.append_assoc,
          List.getElem?_append_right (by omega), hi, Nat.sub_self]
        rfl
      · rw [if_neg (by omega), if_neg (by omega), List.getElem?_append_right, List.getElem?_drop]
        · congr 1
          simp only [List.length_append, List.length_cons, List.length_nil]
          omega
        · simp only [List.length_append, List.length_cons, List.length_nil]
          omega
  · rw [if_neg hz]
    constructor
    · simp only [List.length_append, List.length_drop]
      omega
    · intro i
      by_cases hi : i < written.length
      · rw [if_pos hi, List.getElem?_append_left hi]
      · have hn : ¬ (i = written.length ∧ i < held.length ∧
            (reading.status = .success ∨ reading.status = .outOfSpace)) := by
          rintro ⟨rfl, hl, hs⟩
          exact hz ⟨terminates_iff.mpr hs, hl⟩
        rw [if_neg hi, if_neg hn, List.getElem?_append_right (by omega), List.getElem?_drop]
        congr 1
        omega

/-- An opened request writes the longest beginning of its decoded steps that fits, which is all
of them when the measured length fits. -/
theorem convert_of_opened {r : Request source target} {o : Opening} (h : r.opening = .ok o)
    (held : List target.Unit) :
    ∃ kept status, LongestFit target held.length r.decoded kept ∧
      (r.measure.length ≤ held.length → kept = r.decoded ∧ status = r.measure.status) ∧
      (held.length < r.measure.length → status = .outOfSpace) ∧
      r.convert (some held) =
        ⟨⟨status, target.widthAll (codesOf kept), r.start + sizeAll kept⟩,
          some (fill r.targetOrder.resolve ⟨status, codesOf kept, sizeAll kept⟩ held)⟩ := by
  have hdec : accepted r.strictness.refuseInvalid o.steps = r.decoded := by rw [decoded, h]
  have hstart : o.skipped = r.start := by rw [start, h]
  obtain ⟨kept, hk, ht⟩ := take_some target r.strictness.refuseInvalid held.length o.steps
  rw [hdec] at hk ht
  rw [measure_of_opened h, convert_eq, h]
  dsimp only [Option.map_some]
  rw [ht, hstart]
  by_cases hfits : target.widthAll (codesOf r.decoded) ≤ held.length
  · refine ⟨kept, ending r.strictness.refuseInvalid o.steps, hk,
      fun _ => ⟨hk.eq_of_fits hfits, rfl⟩, fun hlt => absurd hlt (Nat.not_lt.mpr hfits), ?_⟩
    rw [if_pos hfits, take_none, hdec, hk.eq_of_fits hfits]
  · refine ⟨kept, .outOfSpace, hk, fun hle => absurd hle hfits, fun _ => rfl, ?_⟩
    rw [if_neg hfits]

/-- Writing follows the measurement. No code point that is read is refused by an encoder. When
the measured length fits into the destination, the counts and the status are those of the
measurement; otherwise the destination takes the longest beginning of the decoded code points
that fits and runs out of space behind it. The slots hold the encoding of what was taken, then
a zero if the request was opened, ended well or without space, and has a slot left; the others
are as they were. -/
theorem convert_follows_measure (r : Request source target) (held : List target.Unit) :
    let measured := r.measure
    let done := r.convert (some held)
    (∀ code ∈ codesOf r.decoded, target.width? code = .ok (target.width code) ∧
      target.encode? code = .ok (target.encode code)) ∧
    measured.length = target.widthAll (codesOf r.decoded) ∧
    measured.processed = r.start + sizeAll r.decoded ∧
    ∃ kept dest, LongestFit target held.length r.decoded kept ∧
      (measured.length ≤ held.length → kept = r.decoded ∧ done.outcome = measured) ∧
      (held.length < measured.length → done.outcome =
        ⟨.outOfSpace, target.widthAll (codesOf kept), r.start + sizeAll kept⟩) ∧
      done.dest = some dest ∧ dest.length = held.length ∧
      ∀ i, dest[i]? =
        if i < done.outcome.length then
          ((target.encodeAll (codesOf kept)).map (target.reorder r.targetOrder.resolve))[i]?
        else if i = done.outcome.length ∧ i < held.length ∧ r.opening.isOk = true ∧
            (done.outcome.status = .success ∨ done.outcome.status = .outOfSpace) then
          some (target.unit 0)
        else held[i]? := by
  intro measured done
  refine ⟨fun code h => ⟨Encoding.width?_of_isScalar (isScalar_of_mem_decoded h),
    Encoding.encode?_of_isScalar (isScalar_of_mem_decoded h)⟩, ?_⟩
  cases ho : r.opening with
  | error status =>
    have hm : measured = ⟨status, 0, 0⟩ := measure_of_refused ho
    have hd : done = refuse status (some held) := by
      dsimp only [done]
      rw [convert_eq, ho]
    have hnone : r.decoded = [] ∧ r.start = 0 := by
      rw [decoded, start, ho]
      exact ⟨rfl, rfl⟩
    rw [hm, hd, hnone.1, hnone.2]
    refine ⟨rfl, rfl, [], held, LongestFit.nil target held.length, fun _ => ⟨rfl, rfl⟩,
      fun hlt => absurd hlt (Nat.not_lt_zero _), rfl, rfl, fun i => ?_⟩
    exact ((if_neg (Nat.not_lt_zero i)).trans
      (if_neg fun h => Bool.false_ne_true h.2.2.1)).symm
  | ok o =>
    have hm : measured = _ := measure_of_opened ho
    obtain ⟨kept, status, hk, hall, hsome, hc⟩ := convert_of_opened ho held
    have hd : done = _ := hc
    obtain ⟨hlength, hslots⟩ := fill_eq r.targetOrder.resolve
      ⟨status, codesOf kept, sizeAll kept⟩ hk.fits
    have hcounts : measured.length = target.widthAll (codesOf r.decoded) ∧
        measured.processed = r.start + sizeAll r.decoded := by
      rw [hm]
      exact ⟨rfl, rfl⟩
    refine ⟨hcounts.1, hcounts.2, kept, _, hk, fun hle => ?_, fun hlt => ?_,
      congrArg Converted.dest hd, hlength, fun i => ?_⟩
    · obtain ⟨hkept, hstatus⟩ := hall hle
      refine ⟨hkept, ?_⟩
      rw [hd, hkept, hstatus, ← hcounts.1, ← hcounts.2]
    · rw [hd, hsome hlt]
    · rw [hslots i, hd]
      refine if_congr Iff.rfl rfl (if_congr ?_ rfl rfl)
      exact ⟨fun h => ⟨h.1, h.2.1, rfl, h.2.2⟩, fun h => ⟨h.1, h.2.1, h.2.2.2⟩⟩

end Request

end TextUnits
