import TextUnits.Proofs.Encoding.Boundaries
import TextUnits.Proofs.Transcode.Reconversion
import Mathlib.Algebra.GroupWithZero.Nat
import Mathlib.Data.List.TakeWhile

/-!
# Resuming a conversion

A conversion that runs out of space stops in front of a code point, and its counts say where. What
is decoded behind that place does not depend on what stands in front of it, so a request for the
units that are left goes on with the steps that the first one had left. The pieces together are then
the conversion of the whole source, however many there are and however it ends.
-/

namespace TextUnits

open Step Reading

namespace Step

variable {refuseInvalid : Bool} {front : List Step}

theorem codesOf_append (front back : List Step) :
    codesOf (front ++ back) = codesOf front ++ codesOf back :=
  List.filterMap_append

theorem sizeAll_append (front back : List Step) :
    sizeAll (front ++ back) = sizeAll front + sizeAll back := by
  induction front with
  | nil => exact (Nat.zero_add _).symm
  | cons step front ih => rw [List.cons_append, sizeAll, sizeAll, ih, Nat.add_assoc]

/-- What is accepted stops no conversion. -/
theorem not_stops_of_mem_accepted {step : Step} {steps : List Step}
    (h : step ∈ accepted refuseInvalid steps) : step.stops refuseInvalid = false := by
  have hpasses := List.mem_takeWhile_imp h
  rwa [Bool.not_eq_true'] at hpasses

/-- Steps that stop no conversion are accepted in front of others, and leave the ending to them. -/
theorem accepted_append (hf : ∀ step ∈ front, step.stops refuseInvalid = false)
    (back : List Step) :
    accepted refuseInvalid (front ++ back) = front ++ accepted refuseInvalid back ∧
      ending refuseInvalid (front ++ back) = ending refuseInvalid back := by
  induction front with
  | nil => exact ⟨rfl, rfl⟩
  | cons step front ih =>
    have hstep := hf step List.mem_cons_self
    obtain ⟨haccepted, hending⟩ := ih fun other hm => hf other (List.mem_cons_of_mem step hm)
    rw [List.cons_append, accepted_cons_of_not_stops hstep, ending_cons_of_not_stops hstep,
      haccepted, hending]
    exact ⟨rfl, rfl⟩

end Step

namespace Encoding

theorem widthAll_append (e : Encoding) (before later : List Nat) :
    e.widthAll (before ++ later) = e.widthAll before + e.widthAll later := by
  rw [← length_encodeAll, encodeAll_append, List.length_append, length_encodeAll,
    length_encodeAll]

/-- The walk over what is left behind the first steps of a walk is the rest of the walk. -/
theorem steps_drop {e : Encoding} {front back : List Step} {units : List e.Unit}
    (h : e.steps units = front ++ back) (hf : .truncated ∉ front) :
    e.steps (units.drop (sizeAll front)) = back := by
  induction front generalizing units with
  | nil => exact h
  | cons step front ih =>
    have hne : units ≠ [] := by
      rintro rfl
      rw [steps] at h
      cases h
    have hwhole : e.decode units ≠ .truncated := by
      intro hcut
      rw [steps_of_truncated hne hcut, List.cons_append, List.cons.injEq] at h
      exact hf (h.1 ▸ List.mem_cons_self)
    rw [steps_of_decode hne hwhole, List.cons_append, List.cons.injEq] at h
    obtain ⟨rfl, hbehind⟩ := h
    rw [sizeAll, ← List.drop_drop]
    exact ih hbehind fun hm => hf (List.mem_cons_of_mem _ hm)

end Encoding

namespace Request

variable {source target : Encoding} {r rest : Request source target}

/-- The order that a request reads its source in, after it has looked for a mark. -/
def readOrder (r : Request source target) : Order :=
  r.sourceOrder.resolve ((r.selected.bind source.markOf?).bind (·.order))

/-- A request that goes on behind the first units of another one. -/
structure Continues (r rest : Request source target) (processed : Nat) : Prop where
  /-- It reads the units that are left. -/
  left : rest.selected = r.selected.map (List.drop processed)
  /-- They do not start with a byte order mark. -/
  unmarked : ∀ units ∈ rest.selected, source.hasMark units = false
  /-- They are read in the order that was settled at the start; bytes have none. -/
  order : source = .utf8 ∨ rest.sourceOrder.resolve none = r.readOrder
  /-- The result is stored as before. -/
  stored : rest.targetOrder = r.targetOrder
  /-- The same is refused. -/
  strictness : rest.strictness = r.strictness

/-- The results of converting a source piece by piece: each conversion but the last one runs out of
space and the next one goes on behind the units that it has processed; the last one has room for
all that is left. -/
inductive Resumed : Request source target → List (Converted target) → Prop where
  /-- There is room for what is left. -/
  | last {r : Request source target} {room : List target.Unit}
      (hroom : r.measure.length ≤ room.length) : Resumed r [r.convert (some room)]
  /-- The room is used up, and another request goes on. -/
  | more {r rest : Request source target} {room : List target.Unit}
      {later : List (Converted target)}
      (hspace : (r.convert (some room)).outcome.status = .outOfSpace)
      (hrest : Continues r rest (r.convert (some room)).outcome.processed)
      (hlater : Resumed rest later) : Resumed r (r.convert (some room) :: later)

/-- An opened request walks the units behind its mark in the order it reads them in. -/
theorem exists_selected_of_opened {o : Opening} (ho : r.opening = .ok o) :
    ∃ units, r.selected = some units ∧
      o.steps = source.steps ((units.drop o.skipped).map (source.reorder r.readOrder)) := by
  cases hunits : r.selected with
  | none =>
    rw [opening_of_unselected hunits] at ho
    cases ho
  | some units =>
    rw [opening_of_selected hunits] at ho
    split_ifs at ho
    cases ho
    refine ⟨units, rfl, ?_⟩
    rw [readOrder, hunits]
    rfl

/-- A request that goes on behind the first steps of another one is opened with the others. -/
theorem opening_of_continues {o : Opening} {front back : List Step} (ho : r.opening = .ok o)
    (hsteps : o.steps = front ++ back) (hf : .truncated ∉ front)
    (hc : Continues r rest (o.skipped + sizeAll front)) : rest.opening = .ok ⟨0, back⟩ := by
  obtain ⟨units, hunits, hwalk⟩ := exists_selected_of_opened ho
  have hleft : rest.selected = some (units.drop (o.skipped + sizeAll front)) := by
    rw [hc.left, hunits]
    rfl
  have hread : (units.drop (o.skipped + sizeAll front)).map
      (source.reorder (rest.sourceOrder.resolve none)) =
        ((units.drop o.skipped).map (source.reorder r.readOrder)).drop (sizeAll front) := by
    rw [← List.map_drop, List.drop_drop]
    rcases hc.order with rfl | horder
    · rw [Encoding.map_reorder_utf8, Encoding.map_reorder_utf8]
    · rw [horder]
  rw [hwalk] at hsteps
  rw [opening_of_unmarked hleft (hc.unmarked _ hleft), hread, Encoding.steps_drop hsteps hf]

/-- A conversion that runs out of space has written the first of the decoded steps, and a request
that goes on behind the units it has processed decodes the others. Its counts and the counts
measured for the others add up to those of the whole. -/
theorem exists_kept_of_continues {room : List target.Unit}
    (hspace : (r.convert (some room)).outcome.status = .outOfSpace)
    (hc : Continues r rest (r.convert (some room)).outcome.processed) :
    let done := r.convert (some room)
    ∃ kept, r.decoded = kept ++ rest.decoded ∧
      done.written =
        (target.encodeAll (codesOf kept)).map (target.reorder r.targetOrder.resolve) ∧
      r.measure = ⟨rest.measure.status, done.outcome.length + rest.measure.length,
        done.outcome.processed + rest.measure.processed⟩ := by
  intro done
  have hends : terminates (r.convert (some room)).outcome.status = true := by
    rw [hspace]
    rfl
  obtain ⟨o, ho⟩ := exists_opening_of_terminates hends
  obtain ⟨kept, status, hkept, -, -, hdone⟩ := convert_of_opened ho room
  have hd : done = _ := hdone
  have hdecoded : r.decoded = accepted r.strictness.refuseInvalid o.steps := by rw [decoded, ho]
  have hstart : r.start = o.skipped := by rw [start, ho]
  have haccepted := hkept.beginning
  rw [hdecoded] at haccepted
  have hgoes : ∀ step ∈ kept, step.stops r.strictness.refuseInvalid = false :=
    fun step hm => not_stops_of_mem_accepted (haccepted.subset hm)
  -- Nothing kept is a cut, so the walk behind the kept steps is a walk of its own.
  have huncut : .truncated ∉ kept := fun hm => Bool.noConfusion (hgoes _ hm)
  obtain ⟨back, hback⟩ := haccepted.trans (List.takeWhile_prefix _)
  rw [hdone, hstart] at hc
  have hrest : rest.opening = .ok ⟨0, back⟩ := opening_of_continues ho hback.symm huncut hc
  obtain ⟨hwhole, hending⟩ := accepted_append hgoes back
  rw [hback] at hwhole hending
  have hbehind : rest.decoded = accepted r.strictness.refuseInvalid back := by
    rw [decoded, hrest, hc.strictness]
  have hsplit : r.decoded = kept ++ rest.decoded := by rw [hdecoded, hwhole, hbehind]
  have hzero : rest.start = 0 := by rw [start, hrest]
  refine ⟨kept, hsplit, ?_, ?_⟩
  · rw [hd]
    exact take_fill r.targetOrder.resolve ⟨status, codesOf kept, sizeAll kept⟩ room
  · rw [hd, measure_of_opened ho, measure_of_opened hrest, hsplit, codesOf_append,
      sizeAll_append, Encoding.widthAll_append, hending, hc.strictness, hzero, Nat.zero_add,
      Nat.add_assoc]

/-- The pieces of a resumed conversion hold the encoding of all that the first request decodes. The
last one ends as measuring the whole does, and the counts add up to the measured ones. -/
theorem Resumed.measure {pieces : List (Converted target)} (h : Resumed r pieces) :
    pieces.flatMap Converted.written =
        (target.encodeAll (codesOf r.decoded)).map (target.reorder r.targetOrder.resolve) ∧
      pieces.getLast?.map (·.outcome.status) = some r.measure.status ∧
      (pieces.map (·.outcome.length)).sum = r.measure.length ∧
      (pieces.map (·.outcome.processed)).sum = r.measure.processed := by
  induction h with
  | last hroom =>
    obtain ⟨houtcome, hwritten⟩ := convert_of_room hroom
    simp only [List.flatMap_singleton, List.getLast?_singleton, Option.map_some, List.map_singleton,
      List.sum_singleton, houtcome, hwritten, and_self]
  | more hspace hrest _ ih =>
    obtain ⟨hwritten, hstatus, hlength, hprocessed⟩ := ih
    obtain ⟨kept, hdecoded, hfirst, hmeasure⟩ := exists_kept_of_continues hspace hrest
    obtain ⟨final, hfinal, hends⟩ := Option.map_eq_some_iff.mp hstatus
    rw [List.flatMap_cons, hfirst, hwritten, hrest.stored, hdecoded, codesOf_append,
      Encoding.encodeAll_append, List.map_append, List.getLast?_cons, hfinal, List.map_cons,
      List.sum_cons, hlength, List.map_cons, List.sum_cons, hprocessed, hmeasure]
    exact ⟨rfl, congrArg some hends, rfl, rfl⟩

/-- A conversion that is resumed as often as it runs out of space gives what one conversion of the
whole source gives with enough room. The units that the pieces have written are, one piece behind
the other, those that the whole conversion writes; the last piece ends as it does, be it with
success or at input that is refused or cut off; and the pieces have together written and processed
as many units. -/
theorem Resumed.whole {pieces : List (Converted target)} (h : Resumed r pieces)
    {room : List target.Unit} (hroom : r.measure.length ≤ room.length) :
    let whole := r.convert (some room)
    pieces.flatMap Converted.written = whole.written ∧
      pieces.getLast?.map (·.outcome.status) = some whole.outcome.status ∧
      (pieces.map (·.outcome.length)).sum = whole.outcome.length ∧
      (pieces.map (·.outcome.processed)).sum = whole.outcome.processed := by
  intro whole
  obtain ⟨houtcome, hwritten⟩ := convert_of_room hroom
  have hwhole : whole.outcome = r.measure := houtcome
  have hunits : whole.written = _ := hwritten
  rw [hwhole, hunits]
  exact h.measure

/-- Three pieces of text in UTF-16 with the high byte first and a mark in front: one letter, nothing
at all for want of room, and a sign of three bytes in front of a cut pair. -/
theorem Resumed.whole_pieces :
    let r : Request .utf16 .utf8 :=
      ⟨some [0xFFFE, 0x6100, 0xAC20, 0x3DD8], .detect, .native, .lenient, none⟩
    let rest : Request .utf16 .utf8 := ⟨some [0xAC20, 0x3DD8], .fixed .be, .native, .lenient, none⟩
    let pieces :=
      [r.convert (some [0, 0, 0]), rest.convert (some [0, 0]), rest.convert (some [0, 0, 0])]
    pieces.map (·.outcome) =
        [⟨.outOfSpace, 1, 2⟩, ⟨.outOfSpace, 0, 0⟩, ⟨.invalidArgument, 3, 1⟩] ∧
      (r.convert (some [0, 0, 0, 0])).outcome = ⟨.invalidArgument, 4, 3⟩ ∧
      pieces.flatMap Converted.written = (r.convert (some [0, 0, 0, 0])).written := by
  intro r rest pieces
  have hfirst : (r.convert (some [0, 0, 0])).outcome = ⟨.outOfSpace, 1, 2⟩ := by decide +kernel
  have hsecond : (rest.convert (some [0, 0])).outcome = ⟨.outOfSpace, 0, 0⟩ := by decide +kernel
  have hthird : (rest.convert (some [0, 0, 0])).outcome = ⟨.invalidArgument, 3, 1⟩ := by
    decide +kernel
  have hwhole : (r.convert (some [0, 0, 0, 0])).outcome = ⟨.invalidArgument, 4, 3⟩ := by
    decide +kernel
  have hunmarked : ∀ units ∈ rest.selected, Encoding.utf16.hasMark units = false := by
    rintro _ ⟨⟩
    decide
  have hbehind : Continues r rest (r.convert (some [0, 0, 0])).outcome.processed := by
    rw [hfirst]
    exact ⟨rfl, hunmarked, .inr rfl, rfl, rfl⟩
  have hagain : Continues rest rest (rest.convert (some [0, 0])).outcome.processed := by
    rw [hsecond]
    exact ⟨rfl, hunmarked, .inr rfl, rfl, rfl⟩
  have hpieces : Resumed r pieces :=
    .more (by rw [hfirst]) hbehind (.more (by rw [hsecond]) hagain (.last (by decide +kernel)))
  refine ⟨?_, hwhole, (Resumed.whole hpieces (by decide +kernel)).1⟩
  rw [List.map_cons, List.map_cons, List.map_singleton, hfirst, hsecond, hthird]

end Request

end TextUnits
