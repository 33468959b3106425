import TextUnits.Proofs.Encoding.Bytes
import TextUnits.Proofs.Encoding.Unmarked
import TextUnits.Proofs.Transcode.Opening
import TextUnits.Proofs.Transcode.Whole

/-!
# Conversions of well-formed text

A source that is the encoding of scalar values and starts with no mark is read as those values
and nothing is replaced or refused, so a whole conversion gives their encoding at the other end.
For byte streams this is said in terms of characters and their standard encodings.
-/

namespace TextUnits

open Step Reading

/-- No step of scalar values stops a conversion. -/
theorem Step.accepted_scalars (refuseInvalid : Bool) (width : Nat → Nat) (codes : List Nat) :
    accepted refuseInvalid (codes.map fun code => Step.scalar code (width code)) =
      (codes.map fun code => Step.scalar code (width code)) ∧
    ending refuseInvalid (codes.map fun code => Step.scalar code (width code)) = .success ∧
    codesOf (codes.map fun code => Step.scalar code (width code)) = codes := by
  induction codes with
  | nil => exact ⟨rfl, rfl, rfl⟩
  | cons code more ih =>
    obtain ⟨ha, he, hc⟩ := ih
    rw [List.map_cons, accepted_cons_of_not_stops rfl, ending_cons_of_not_stops rfl,
      codesOf_cons rfl, ha, he, hc]
    exact ⟨rfl, rfl, rfl⟩

namespace Request

variable {source target : Encoding}

/-- A request for all of the encoding of scalar values, read in the order it is stored in, is opened
at its first unit with one step for each value, unless the encoding starts with a mark. -/
theorem opening_of_encodeAll {r : Request source target} {codes : List Nat} {o : Order}
    (hu : r.units = some ((source.encodeAll codes).map (source.reorder o)))
    (hl : r.length = none) (ho : r.sourceOrder.resolve none = o)
    (hs : ∀ code ∈ codes, Scalar.isScalar code = true)
    (hm : source.markOf? ((source.encodeAll codes).map (source.reorder o)) = none) :
    r.opening = .ok ⟨0, codes.map fun code => Step.scalar code (source.width code)⟩ := by
  have hselected : r.selected = some ((source.encodeAll codes).map (source.reorder o)) := by
    rw [selected, hu, hl]
    rfl
  have hunmarked := Encoding.hasMark_eq_false_iff.mpr hm
  rw [opening_of_unmarked hselected hunmarked, ho,
    source.map_reorder_reorder, source.steps_encodeAll hs]

/-- A request that is opened with steps of scalar values decodes those values, and measuring it
succeeds. -/
theorem decoded_of_scalars {r : Request source target} {skipped : Nat} {codes : List Nat}
    (h : r.opening = .ok ⟨skipped, codes.map fun code => Step.scalar code (source.width code)⟩) :
    codesOf r.decoded = codes ∧ r.measure.status = .success := by
  obtain ⟨haccepted, hending, hcodes⟩ :=
    accepted_scalars r.strictness.refuseInvalid source.width codes
  rw [measure_of_opened h, decoded, h]
  dsimp only
  rw [haccepted, hcodes]
  exact ⟨rfl, hending⟩

/-- A request that is opened with steps of scalar values gives their encoding. -/
theorem whole_of_scalars {r : Request source target} {skipped : Nat} {codes : List Nat}
    (h : r.opening = .ok ⟨skipped, codes.map fun code => Step.scalar code (source.width code)⟩)
    (tellCapacity : Bool) :
    r.whole tellCapacity =
      .ok ((target.encodeAll codes).map (target.reorder r.targetOrder.resolve)) := by
  obtain ⟨hcodes, hstatus⟩ := decoded_of_scalars h
  rw [whole_eq, failure?, failureWith?, if_pos hstatus]
  dsimp only
  rw [hcodes]

/-- The encoding of scalar values in the order that a source is read in is converted into their
encoding in the order of the target, unless it starts like a mark. -/
theorem whole_of_encodeAll {r : Request source target} {codes : List Nat} {o : Order}
    (hu : r.units = some ((source.encodeAll codes).map (source.reorder o)))
    (hl : r.length = none) (ho : r.sourceOrder.resolve none = o)
    (hs : ∀ code ∈ codes, Scalar.isScalar code = true) (hmark : codes.head? ≠ some 0xFEFF)
    (hswapped : source = .utf16 → codes.head? ≠ some 0xFFFE) (tellCapacity : Bool) :
    r.whole tellCapacity =
      .ok ((target.encodeAll codes).map (target.reorder r.targetOrder.resolve)) :=
  whole_of_scalars (opening_of_encodeAll hu hl ho hs
    (Encoding.markOf?_encodeAll o hs hmark hswapped)) tellCapacity

end Request

namespace Wire

/-- The standard encoding of characters in one stream is converted into their standard encoding
in another. -/
theorem transcode_of_unmarked (source target : Wire) (strictness : Strictness)
    {chars : List Char} (hmark : chars.head? ≠ some '\uFEFF')
    (hswapped : source.base = .utf16 → chars.head? ≠ some '\uFFFE') :
    transcode (source.standard chars) source target ⟨strictness, none⟩ =
      .ok (target.standard chars) := by
  unfold transcode transcodeWindow
  rw [Window.length_ofBytes, Window.readAs_ofBytes, ← bytesOf_encodeAll source chars,
    Encoding.length_bytesOf, Nat.mul_mod_left, if_neg (fun h => h rfl), Encoding.unitsOf_bytesOf]
  dsimp only
  rw [Request.whole_of_encodeAll rfl rfl rfl (fun _ => Encoding.isScalar_of_mem_map)
    (Encoding.head?_map_toNat_ne hmark) (fun h => Encoding.head?_map_toNat_ne (hswapped h))]
  dsimp only
  rw [← bytesOf_encodeAll target chars]
  rfl

end Wire

end TextUnits
