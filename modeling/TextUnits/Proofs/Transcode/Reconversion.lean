import TextUnits.Proofs.Transcode.RoundTrip

/-!
# Converting what a conversion wrote

What a successful conversion writes is the encoding of scalar values, however malformed its source
was: replacements are made once, when the source is read. So a strict conversion of the units
written finds nothing to refuse, and gives the units that the first source gives directly. The
one exception are units that start like a byte order mark, which the second conversion passes over.
-/

namespace TextUnits

open Step Reading

/-- Units that are the encoding of scalar values, stored in an order. -/
def Encoding.WellFormed (e : Encoding) (order : Order) (units : List e.Unit) : Prop :=
  ∃ codes, (∀ code ∈ codes, Scalar.isScalar code = true) ∧
    units = (e.encodeAll codes).map (e.reorder order)

/-- The units that a conversion wrote into its destination, without a zero behind them. -/
def Converted.written {target : Encoding} (c : Converted target) : List target.Unit :=
  (c.dest.getD []).take c.outcome.length

/-- Steps of scalar values take the units of their encoding. -/
theorem Step.sizeAll_scalars (e : Encoding) (codes : List Nat) :
    sizeAll (codes.map fun code => Step.scalar code (e.width code)) = e.widthAll codes := by
  induction codes with
  | nil => rfl
  | cons code more ih =>
    rw [List.map_cons, sizeAll, ih]
    rfl

namespace Request

variable {source target : Encoding}

/-- The front of a filled destination is the encoding of what was read. -/
theorem take_fill (order : Order) (reading : Reading) (held : List target.Unit) :
    (fill order reading held).take (target.widthAll reading.codes) =
      (target.encodeAll reading.codes).map (target.reorder order) := by
  have hw := (target.length_stored order reading.codes).symm
  unfold fill overlay
  dsimp only
  rw [hw]
  split_ifs
  · rw [List.append_assoc, List.take_left]
  · rw [List.take_left]

/-- A conversion with room for all that is decoded gives the measured counts and writes the encoding
of it, also when it ends in front of input that is refused. -/
theorem convert_of_room {r : Request source target} {held : List target.Unit}
    (hl : r.measure.length ≤ held.length) :
    (r.convert (some held)).outcome = r.measure ∧
      (r.convert (some held)).written =
        (target.encodeAll (codesOf r.decoded)).map (target.reorder r.targetOrder.resolve) := by
  cases ho : r.opening with
  | error status =>
    have hnone : r.decoded = [] := by rw [decoded, ho]
    rw [measure_of_refused ho, convert_eq, ho, hnone]
    exact ⟨rfl, rfl⟩
  | ok o =>
    obtain ⟨kept, status, -, hall, -, hc⟩ := convert_of_opened ho held
    obtain ⟨hkept, hstatus⟩ := hall hl
    have hfill := take_fill r.targetOrder.resolve
      ⟨r.measure.status, codesOf r.decoded, sizeAll r.decoded⟩ held
    rw [hc, hkept, hstatus]
    constructor
    · rw [measure_of_opened ho]
    · exact hfill

/-- A conversion that succeeds would succeed with any room, and has as much as it needs. -/
theorem measure_of_success {r : Request source target} {held : List target.Unit}
    (hs : (r.convert (some held)).outcome.status = .success) :
    r.measure.status = .success ∧ r.measure.length ≤ held.length := by
  have hends : terminates (r.convert (some held)).outcome.status = true := by
    rw [hs]
    rfl
  obtain ⟨o, ho⟩ := exists_opening_of_terminates hends
  obtain ⟨kept, status, -, hall, hshort, hc⟩ := convert_of_opened ho held
  rw [hc] at hs
  have hroom : r.measure.length ≤ held.length := by
    by_contra hlt
    dsimp only at hs
    rw [hshort (Nat.lt_of_not_le hlt)] at hs
    cases hs
  exact ⟨(hall hroom).2 ▸ hs, hroom⟩

/-- A request for units that are the encoding of scalar values and start with no mark succeeds,
also when malformed input is refused. It decodes those values and reads all units. -/
theorem measure_of_wellFormed {r : Request source target} {codes : List Nat} {o : Order}
    {units : List source.Unit} (hs : ∀ code ∈ codes, Scalar.isScalar code = true)
    (he : units = (source.encodeAll codes).map (source.reorder o))
    (hm : source.hasMark units = false) (hu : r.units = some units) (hl : r.length = none)
    (ho : r.sourceOrder.resolve none = o) :
    codesOf r.decoded = codes ∧
      r.measure = ⟨.success, target.widthAll codes, units.length⟩ := by
  have hmark := Encoding.hasMark_eq_false_iff.mp hm
  rw [he] at hu hmark
  have hopen := opening_of_encodeAll hu hl ho hs hmark
  obtain ⟨hcodes, hstatus⟩ := decoded_of_scalars hopen
  have hsize : r.start + sizeAll r.decoded = units.length := by
    rw [start, decoded, hopen]
    dsimp only
    rw [(accepted_scalars r.strictness.refuseInvalid source.width codes).1, sizeAll_scalars, he,
      Encoding.length_stored, Nat.zero_add]
  refine ⟨hcodes, ?_⟩
  rw [measure_of_opened hopen] at hstatus ⊢
  rw [hsize, hcodes]
  exact congrArg (fun status => Outcome.mk status _ _) hstatus

/-- What a conversion wrote converts on as its source does. When a conversion succeeds, the units it
wrote are the encoding of scalar values. Unless they start with a mark in either order, a request
that reads all of them in the order they were written in and refuses malformed input succeeds
whatever its target is, reads them all, and writes what the first source is converted into directly
for that target. For the target they were written for it writes them again. -/
theorem convert_written (r : Request source target) (held : List target.Unit)
    (hs : (r.convert (some held)).outcome.status = .success) :
    let units := (r.convert (some held)).written
    target.WellFormed r.targetOrder.resolve units ∧
      ∀ (wish : SourceOrder) (forbidMark : Bool), wish.resolve none = r.targetOrder.resolve →
        target.hasMark units = false →
        (∀ (third : Encoding) (order : TargetOrder) (room : List third.Unit),
          let direct : Request source third :=
            ⟨r.units, r.sourceOrder, order, r.strictness, r.length⟩
          let again : Request target third := ⟨some units, wish, order, ⟨forbidMark, true⟩, none⟩
          direct.measure.status = .success ∧
            again.measure = ⟨.success, direct.measure.length, units.length⟩ ∧
            (direct.measure.length ≤ room.length →
              (again.convert (some room)).outcome = again.measure ∧
              (direct.convert (some room)).outcome = direct.measure ∧
              (again.convert (some room)).written = (direct.convert (some room)).written)) ∧
        ∀ room : List target.Unit, units.length ≤ room.length →
          let again : Request target target :=
            ⟨some units, wish, r.targetOrder, ⟨forbidMark, true⟩, none⟩
          (again.convert (some room)).outcome = ⟨.success, units.length, units.length⟩ ∧
            (again.convert (some room)).written = units := by
  intro units
  obtain ⟨hmeasure, hheld⟩ := measure_of_success hs
  have hunits : units = _ := (convert_of_room hheld).2
  have hcodes : ∀ code ∈ codesOf r.decoded, Scalar.isScalar code = true :=
    fun _ hc => isScalar_of_mem_decoded hc
  refine ⟨⟨_, hcodes, hunits⟩, fun wish forbidMark hwish hmark => ⟨?_, ?_⟩⟩
  · intro third order room direct again
    obtain ⟨hagain, hcounts⟩ := measure_of_wellFormed (r := again) hcodes hunits hmark rfl rfl hwish
    -- the decoded steps do not depend on the target, so both requests decode the same values
    have hdirect : direct.measure.status = .success := by
      obtain ⟨o, ho⟩ := exists_opening_of_success hmeasure
      rw [measure_of_opened ho] at hmeasure
      rw [measure_of_opened (r := direct) ho]
      exact hmeasure
    have hlength : direct.measure.length = third.widthAll (codesOf r.decoded) :=
      length_measure direct
    rw [← hlength] at hcounts
    refine ⟨hdirect, hcounts, fun hroom => ?_⟩
    have hfits : again.measure.length ≤ room.length := by
      rw [hcounts]
      exact hroom
    obtain ⟨houtcome, hwritten⟩ := convert_of_room hfits
    obtain ⟨hfirst, hplain⟩ := convert_of_room hroom
    refine ⟨houtcome, hfirst, ?_⟩
    rw [hwritten, hplain, hagain]
    rfl
  · intro room hroom again
    obtain ⟨hagain, hcounts⟩ := measure_of_wellFormed (r := again) hcodes hunits hmark rfl rfl hwish
    have hlength : target.widthAll (codesOf r.decoded) = units.length := by
      rw [hunits, Encoding.length_stored]
    rw [hlength] at hcounts
    have hfits : again.measure.length ≤ room.length := by
      rw [hcounts]
      exact hroom
    obtain ⟨houtcome, hwritten⟩ := convert_of_room hfits
    refine ⟨houtcome.trans hcounts, ?_⟩
    rw [hwritten, hagain, hunits]

/-- A forbidden byte and a surrogate in UTF-8, converted to UTF-16 with the high byte first and from
there to UTF-8 again under strict reading. -/
theorem convert_written_malformed :
    let r : Request .utf8 .utf16 :=
      ⟨some [0x61, 0xC0, 0xED, 0xA0, 0x80, 0xF0, 0x9F, 0x98, 0x80], .detect, .fixed .be, .lenient,
        none⟩
    let again : Request .utf16 .utf8 :=
      ⟨some [0x6100, 0xFDFF, 0xFDFF, 0x3DD8, 0x00DE], .fixed .be, .native, ⟨true, true⟩, none⟩
    (r.convert (some (List.replicate 8 0))).outcome.status = .success ∧
      (r.convert (some (List.replicate 8 0))).written = [0x6100, 0xFDFF, 0xFDFF, 0x3DD8, 0x00DE] ∧
      Encoding.utf16.hasMark [0x6100, 0xFDFF, 0xFDFF, 0x3DD8, 0x00DE] = false ∧
      again.measure = ⟨.success, 11, 5⟩ ∧
      (again.convert (some (List.replicate 11 0))).written =
        [0x61, 0xEF, 0xBF, 0xBD, 0xEF, 0xBF, 0xBD, 0xF0, 0x9F, 0x98, 0x80] := by
  intro r again
  have hstatus : (r.convert (some (List.replicate 8 0))).outcome.status = .success := by
    decide +kernel
  have hwritten : (r.convert (some (List.replicate 8 0))).written =
      [0x6100, 0xFDFF, 0xFDFF, 0x3DD8, 0x00DE] := by
    decide +kernel
  have hmark : Encoding.utf16.hasMark [0x6100, 0xFDFF, 0xFDFF, 0x3DD8, 0x00DE] = false := by decide
  have hdirect :
      (⟨r.units, .detect, .native, .lenient, none⟩ : Request .utf8 .utf8).measure.length = 11 := by
    decide +kernel
  have h := ((convert_written r (List.replicate 8 0) hstatus).2 (.fixed .be) true rfl
    (by rw [hwritten]; exact hmark)).1 .utf8 .native (List.replicate 11 0)
  rw [hwritten] at h
  obtain ⟨-, hmeasure, hroom⟩ := h
  refine ⟨hstatus, hwritten, hmark, hmeasure.trans ?_, ?_⟩
  · exact congrArg (fun n => Outcome.mk .success n 5) hdirect
  · exact (hroom (Nat.le_of_eq hdirect)).2.2.trans (by decide +kernel)

end Request

end TextUnits
