import TextUnits.Proofs.Transcode.Reconversion

/-!
# A byte order mark in front of a source

A mark that is put in front of units is found whatever the units are, and in either order. Unless
marks are refused, a conversion passes over it and goes on as it would without the mark, under the
order that the wish and the mark settle. Only one mark is passed over: a second one is text.
-/

namespace TextUnits

open Step Reading

namespace Encoding

/-- The byte order mark in front of a source that is stored in an order. -/
def markUnits (e : Encoding) (o : Order) : List e.Unit := (e.encode Scalar.mark).map (e.reorder o)

theorem length_markUnits (e : Encoding) (o : Order) :
    (e.markUnits o).length = e.width Scalar.mark := by
  rw [markUnits, List.length_map, length_encode]

/-- The mark takes three units of UTF-8, and one of the wider encodings. -/
theorem width_mark (e : Encoding) : e.width Scalar.mark = if e = utf8 then 3 else 1 := by
  cases e <;> rfl

/-- The mark is found in front of any units, with the order it is stored in when its encoding has
one. -/
theorem markOf?_markUnits_append (e : Encoding) (o : Order) (units : List e.Unit) :
    e.markOf? (e.markUnits o ++ units) =
      some ⟨(e.markUnits o).length, if e = utf8 then none else some o⟩ := by
  cases e <;> cases o <;> rfl

/-- Behind a mark in the order it is read in, the mark is a scalar value like others. -/
theorem steps_markUnits_append (e : Encoding) (o : Order) (units : List e.Unit) :
    e.steps ((e.markUnits o ++ units).map (e.reorder o)) =
      .scalar Scalar.mark (e.markUnits o).length :: e.steps (units.map (e.reorder o)) := by
  have hscalar : ∀ code ∈ [Scalar.mark], Scalar.isScalar code = true := by decide
  have hwalk := e.steps_encodeAll_append hscalar (units.map (e.reorder o))
  have hmark : (e.markUnits o).map (e.reorder o) = e.encodeAll [Scalar.mark] := by
    rw [markUnits, e.map_reorder_reorder, encodeAll_cons]
    exact (List.append_nil _).symm
  rw [List.map_append, hmark, hwalk, length_markUnits]
  rfl

end Encoding

/-- The wish for a source behind its mark: where the order was to be detected it is the one that
the mark shows, and a stated order stays. -/
def SourceOrder.settled (wish : SourceOrder) (shown : Order) : SourceOrder :=
  match wish with
  | detect => fixed shown
  | stated => stated

/-- A settled wish needs no mark to be resolved. -/
theorem SourceOrder.resolve_settled (wish : SourceOrder) (shown : Order) :
    (wish.settled shown).resolve none = wish.resolve (some shown) := by
  cases wish <;> rfl

namespace Request

variable {source target : Encoding} {r : Request source target} {o : Order}
  {units : List source.Unit}

/-- A request for a mark and units behind it is refused at once when marks are. -/
theorem opening_of_refused_mark (h : r.selected = some (source.markUnits o ++ units))
    (hf : r.strictness.forbidMark = true) : r.opening = .error .markRejected := by
  have hmark : source.hasMark (source.markUnits o ++ units) = true := by
    rw [Encoding.hasMark, source.markOf?_markUnits_append]
    rfl
  rw [opening_of_selected h, if_pos ⟨hmark, hf⟩]

/-- A request for a mark and units behind it is opened behind the mark, in the order that its wish
and the mark settle. -/
theorem opening_of_mark (h : r.selected = some (source.markUnits o ++ units))
    (hf : r.strictness.forbidMark = false) :
    r.opening =
      .ok ⟨(source.markUnits o).length,
        source.steps (units.map (source.reorder (r.sourceOrder.resolve (some o))))⟩ := by
  rw [opening_of_allowed h hf, source.markOf?_markUnits_append]
  dsimp only [Option.map_some, Option.getD_some, Option.bind_some]
  rw [List.drop_left]
  cases source with
  | utf8 =>
    rw [Encoding.map_reorder_utf8, Encoding.map_reorder_utf8]
  | utf16 => rfl
  | utf32 => rfl

/-- A request for a mark in front of a second one, in the order that the first one settles, reads
the second one as a scalar value. -/
theorem opening_of_two_marks
    (h : r.selected = some (source.markUnits o ++
      (source.markUnits (r.sourceOrder.resolve (some o)) ++ units)))
    (hf : r.strictness.forbidMark = false) :
    r.opening =
      .ok ⟨(source.markUnits o).length,
        .scalar Scalar.mark (source.markUnits o).length ::
          source.steps (units.map (source.reorder (r.sourceOrder.resolve (some o))))⟩ := by
  have hsize : (source.markUnits (r.sourceOrder.resolve (some o))).length =
      (source.markUnits o).length := by
    rw [source.length_markUnits, source.length_markUnits]
  rw [opening_of_mark h hf, source.steps_markUnits_append, hsize]

/-- A mark in front of the encoding of scalar values is passed over, and they are converted. -/
theorem whole_of_mark {codes : List Nat}
    (h : r.selected = some (source.markUnits o ++ units)) (hf : r.strictness.forbidMark = false)
    (hu : units.map (source.reorder (r.sourceOrder.resolve (some o))) = source.encodeAll codes)
    (hs : ∀ code ∈ codes, Scalar.isScalar code = true) (tellCapacity : Bool) :
    r.whole tellCapacity =
      .ok ((target.encodeAll codes).map (target.reorder r.targetOrder.resolve)) := by
  have hopening := opening_of_mark h hf
  rw [hu, source.steps_encodeAll hs] at hopening
  exact whole_of_scalars hopening tellCapacity

/-- A byte order mark in front of a source changes no more than the order it is read in. Let `r`
read a mark and units behind it, and `plain` those units alone, in the order that is stated or else
in that of the mark. When marks are refused nothing is read or written. Otherwise, whatever the
destination is and however the conversion ends, both give the same status, length and destination,
and `r` has processed the units of the mark besides, provided that no second mark stands behind
it. A second mark in the order that is read is text: it is decoded as U+FEFF and written. -/
theorem convert_of_mark (r plain : Request source target) (o : Order) {units : List source.Unit}
    (hr : r.selected = some (source.markUnits o ++ units)) (hp : plain.selected = some units)
    (hs : plain.strictness = r.strictness) (ht : plain.targetOrder = r.targetOrder)
    (ho : source = .utf8 ∨ plain.sourceOrder = r.sourceOrder.settled o)
    (dest : Option (List target.Unit)) :
    let size := (source.markUnits o).length
    let order := r.sourceOrder.resolve (some o)
    let done := plain.convert dest
    size = (if source = .utf8 then 3 else 1) ∧
      (r.strictness.forbidMark = true → r.convert dest = ⟨⟨.markRejected, 0, 0⟩, dest⟩) ∧
      (r.strictness.forbidMark = false → source.hasMark units = false →
        r.convert dest =
          ⟨⟨done.outcome.status, done.outcome.length, size + done.outcome.processed⟩,
            done.dest⟩) ∧
      ∀ rest, r.strictness.forbidMark = false → units = source.markUnits order ++ rest →
        let behind := source.steps (rest.map (source.reorder order))
        r.opening = .ok ⟨size, .scalar Scalar.mark size :: behind⟩ ∧
          ∀ room : List target.Unit, r.measure.length ≤ room.length →
            (r.convert (some room)).written =
              target.markUnits r.targetOrder.resolve ++
                (target.encodeAll (codesOf (accepted r.strictness.refuseInvalid behind))).map
                  (target.reorder r.targetOrder.resolve) := by
  intro size order done
  have hsize : size = _ := (source.length_markUnits o).trans source.width_mark
  refine ⟨hsize, fun hrefused => ?_, fun hallowed hunmarked => ?_, fun rest hallowed hrest => ?_⟩
  · rw [convert_eq, opening_of_refused_mark hr hrefused]
    rfl
  · have hplain : plain.opening = .ok ⟨0, source.steps (units.map (source.reorder order))⟩ := by
      rw [opening_of_unmarked hp hunmarked]
      rcases ho with rfl | horder
      · rw [Encoding.map_reorder_utf8, Encoding.map_reorder_utf8]
      · rw [horder, SourceOrder.resolve_settled]
    exact convert_of_skipped (opening_of_mark hr hallowed) hplain hs.symm ht.symm dest
  · intro behind
    rw [hrest] at hr
    have hopen : r.opening = .ok ⟨size, .scalar Scalar.mark size :: behind⟩ :=
      opening_of_two_marks hr hallowed
    refine ⟨hopen, fun room hroom => ?_⟩
    have hdecoded : r.decoded =
        .scalar Scalar.mark size :: accepted r.strictness.refuseInvalid behind := by
      rw [decoded, hopen]
      exact accepted_cons_of_not_stops rfl behind
    rw [(convert_of_room hroom).2, hdecoded, codesOf_cons rfl, Encoding.encodeAll_cons,
      List.map_append]
    rfl

/-- Text in UTF-16 with the high byte first and its order to be detected: one letter that a cut pair
follows, and one letter behind a second mark. -/
theorem convert_of_mark_detected :
    let r : Request .utf16 .utf8 :=
      ⟨some [0xFFFE, 0x6100, 0x3DD8], .detect, .native, .lenient, none⟩
    let twice : Request .utf16 .utf8 :=
      ⟨some [0xFFFE, 0xFFFE, 0x6100], .detect, .native, .lenient, none⟩
    (r.convert (some [1, 1, 1])).outcome = ⟨.invalidArgument, 1, 2⟩ ∧
      (r.convert (some [1, 1, 1])).dest = some [0x61, 1, 1] ∧
      (twice.convert (some [1, 1, 1, 1])).written = [0xEF, 0xBB, 0xBF, 0x61] := by
  intro r twice
  let plain : Request .utf16 .utf8 := ⟨some [0x6100, 0x3DD8], .fixed .be, .native, .lenient, none⟩
  let once : Request .utf16 .utf8 := ⟨some [0xFFFE, 0x6100], .fixed .be, .native, .lenient, none⟩
  have hr : r.selected = some (Encoding.utf16.markUnits .be ++ [0x6100, 0x3DD8]) := rfl
  have htwice : twice.selected = some (Encoding.utf16.markUnits .be ++ [0xFFFE, 0x6100]) := rfl
  have hcut := (convert_of_mark r plain .be hr rfl rfl rfl (.inr rfl) (some [1, 1, 1])).2.2.1 rfl
    (by decide)
  have hmarks := ((convert_of_mark twice once .be htwice rfl rfl rfl (.inr rfl) none).2.2.2
    [0x6100] rfl rfl).2 [1, 1, 1, 1] (by decide +kernel)
  have hplain : (plain.convert (some [1, 1, 1])).outcome = ⟨.invalidArgument, 1, 1⟩ ∧
      (plain.convert (some [1, 1, 1])).dest = some [0x61, 1, 1] := by
    decide +kernel
  rw [hcut, hmarks, hplain.1, hplain.2]
  exact ⟨rfl, rfl, by decide +kernel⟩

end Request

end TextUnits
