import TextUnits.Proofs.Text.Pairing

/-!
# UTF-16 to UTF-16, unit by unit

A lenient conversion of UTF-16 to itself joins pairs and splits them again. Seen from outside it
mends the text: it keeps every unit in its place and replaces those surrogates that stand alone. The
only exception is a first half at the very end, at which the conversion stops.
-/

namespace TextUnits.Request

open Step Text

variable {r : Request .utf16 .utf16} {units words held : List UInt16} {skipped : Nat}

/-- A lenient request that reads words of UTF-16 counts one unit for each of them and writes them
mended. When they end with a first half, it stops in front of that. -/
theorem measure_of_words (ho : r.opening = .ok ⟨skipped, Encoding.utf16.steps words⟩)
    (hs : r.strictness.refuseInvalid = false) :
    (¬ EndsOpen words → r.measure = ⟨.success, words.length, skipped + words.length⟩) ∧
      (EndsOpen words →
        r.measure = ⟨.invalidArgument, words.length - 1, skipped + (words.length - 1)⟩) ∧
      Encoding.utf16.encodeAll (codesOf r.decoded) = (mended words).take r.measure.length := by
  obtain ⟨hmended, hlength⟩ := mended_eq_encodeAll words
  have hdecoded : r.decoded = accepted false (Encoding.utf16.steps words) := by
    rw [decoded, ho, hs]
  have hstart : r.start = skipped := by rw [start, ho]
  have hending : r.measure.status =
      if .truncated ∈ Encoding.utf16.steps words then .invalidArgument else .success := by
    rw [measure_of_opened ho, hs]
    exact ending_false _
  have hcount := r.length_measure
  rw [← Encoding.length_encodeAll] at hcount
  have hprocessed : r.measure.processed = skipped + sizeAll r.decoded := by
    rw [measure_of_opened ho, hstart]
  have hall := congrArg List.length hmended
  rw [length_mended, List.length_append, ← hdecoded, ← hcount] at hall
  rw [← hdecoded] at hlength hmended
  have heta : r.measure = ⟨r.measure.status, r.measure.length, r.measure.processed⟩ := rfl
  refine ⟨fun hends => ?_, fun hends => ?_, ?_⟩
  · rw [← truncated_mem_steps_iff] at hends
    rw [if_neg hends] at hending hall hlength
    rw [List.length_nil, Nat.add_zero] at hall hlength
    rw [heta, hending, hprocessed, ← hlength, ← hall]
  · rw [← truncated_mem_steps_iff] at hends
    rw [if_pos hends] at hending hall hlength
    have hone : replacement.length = 1 := rfl
    rw [hone] at hall hlength
    have hl : r.measure.length = words.length - 1 := by omega
    have hp : r.measure.processed = skipped + (words.length - 1) := by omega
    rw [heta, hending, hl, hp]
  · rw [hmended, hcount, List.take_left]

/-- Units of UTF-16 in a stated order, without a mark in front, converted leniently to UTF-16 in the
same order. When there is room for as many units, the conversion succeeds exactly when the last of
them is no first half, and then reads and writes all of them; otherwise it stops in front of that
half, with an invalid argument. What is written at a place is the unit at the same place, or the
replacement if that is a surrogate which stands alone. -/
theorem convert_units {o : Order} (hu : r.selected = some units)
    (hm : Encoding.utf16.hasMark units = false) (hsource : r.sourceOrder = .fixed o)
    (htarget : r.targetOrder = .fixed o) (hs : r.strictness.refuseInvalid = false)
    (hroom : units.length ≤ held.length) :
    let words := units.map (Encoding.utf16.reorder o)
    let done := r.convert (some held)
    (done.outcome.status = .success ↔ ¬ EndsOpen words) ∧
      (¬ EndsOpen words → done.outcome = ⟨.success, units.length, units.length⟩) ∧
      (EndsOpen words →
        done.outcome = ⟨.invalidArgument, units.length - 1, units.length - 1⟩) ∧
      done.written.length = done.outcome.length ∧
      ∀ i < done.outcome.length, done.written[i]? =
        if isUnpaired words i then some (Encoding.utf16.reorder o 0xFFFD) else units[i]? := by
  intro words done
  have hlength : words.length = units.length := List.length_map ..
  have ho : r.opening = .ok ⟨0, Encoding.utf16.steps words⟩ := by
    rw [opening_of_unmarked hu hm, hsource]
    rfl
  obtain ⟨hopen, hends, hencoded⟩ := measure_of_words ho hs
  rw [hlength, Nat.zero_add] at hopen
  rw [hlength, Nat.zero_add] at hends
  have hfits : r.measure.length ≤ held.length := by
    by_cases h : EndsOpen words
    · rw [hends h]
      dsimp only
      omega
    · rw [hopen h]
      exact hroom
  obtain ⟨houtcome, hwritten⟩ := convert_of_room hfits
  have houtcome' : done.outcome = r.measure := houtcome
  have hwritten' : done.written = _ := hwritten
  rw [houtcome', hwritten']
  refine ⟨?_, hopen, hends, ?_, fun i hi => ?_⟩
  · by_cases h : EndsOpen words
    · rw [hends h]
      exact iff_of_false Status.noConfusion (fun hn => hn h)
    · rw [hopen h]
      exact iff_of_true rfl h
  · rw [Encoding.length_stored, length_measure]
  · rw [hencoded, List.getElem?_map, List.getElem?_take, if_pos hi, getElem?_mended, htarget]
    split_ifs
    · rfl
    · rw [List.getElem?_map, Option.map_map]
      have hback : (Encoding.utf16.reorder o) ∘ (Encoding.utf16.reorder o) = id :=
        funext fun u => Encoding.utf16.reorder_reorder o u
      exact (congrArg (fun f => units[i]?.map f) hback).trans (Option.map_id_apply)

/-- A first half alone, a pair, a second half alone and a letter, with the high bytes first. -/
theorem convert_units_surrogates :
    let r : Request .utf16 .utf16 :=
      ⟨some [0x3DD8, 0x3DD8, 0x00DE, 0x00DC, 0x6100], .fixed .be, .fixed .be, .lenient, none⟩
    let done := r.convert (some (List.replicate 7 0))
    Encoding.utf16.hasMark [0x3DD8, 0x3DD8, 0x00DE, 0x00DC, 0x6100] = false ∧
      ¬ EndsOpen [0xD83D, 0xD83D, 0xDE00, 0xDC00, 0x61] ∧
      done.outcome = ⟨.success, 5, 5⟩ ∧
      done.written[0]? = some 0xFDFF ∧ done.written[1]? = some 0x3DD8 ∧
      done.written[2]? = some 0x00DE ∧ done.written[3]? = some 0xFDFF ∧
      done.written[4]? = some 0x6100 := by
  intro r done
  have hmark : Encoding.utf16.hasMark [0x3DD8, 0x3DD8, 0x00DE, 0x00DC, 0x6100] = false := by decide
  have hends : ¬ EndsOpen [0xD83D, 0xD83D, 0xDE00, 0xDC00, 0x61] := by
    rintro ⟨_, ⟨⟩, hhigh⟩
    exact absurd hhigh (by decide)
  have hroom : 5 ≤ (List.replicate 7 (0 : UInt16)).length := by decide
  obtain ⟨-, hopen, -, -, hplaces⟩ := convert_units (r := r) rfl hmark rfl rfl rfl hroom
  have houtcome := hopen hends
  have hplace : ∀ i < 5, done.written[i]? = _ := fun i hi => hplaces i (by rw [houtcome]; exact hi)
  exact ⟨hmark, hends, houtcome, hplace 0 (by decide), hplace 1 (by decide), hplace 2 (by decide),
    hplace 3 (by decide), hplace 4 (by decide)⟩

end TextUnits.Request
