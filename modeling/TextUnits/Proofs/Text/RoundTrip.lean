import TextUnits.Fault.Report
import TextUnits.Proofs.Format.Faults
import TextUnits.Proofs.Text.Characters
import TextUnits.Proofs.Transcode.Leniency
import TextUnits.Proofs.Transcode.Swapping

/-!
# Texts to bytes and back

A text comes back from UTF-8 exactly when it is a sequence of characters without a byte order mark
in front, and it gets there unless it ends within a pair. These conversions, and the others that
make their own destination, pass over their source twice, and the second pass never fails: it fills
the room that the first one has measured.
-/

namespace TextUnits

open Step

/-- A fault that is not told as a destination without room. -/
def Fault.HasRoom (fault : Fault) : Prop := fault.report.code?.map Code.id ≠ some "TEXT-U004"

/-- A conversion that ends in another way is told in another way. -/
theorem Fault.hasRoom_conversion {status : Status} {processed length : Double}
    {source target : Encoding} {capacity : Option Double} (h : status ≠ .outOfSpace) :
    (Fault.conversion status processed length source target capacity).HasRoom := by
  have hcode : (codeOf status).id ≠ "TEXT-U004" := by
    revert h
    cases status <;> decide
  exact fun htold => hcode (Option.some.inj htold)

/-- A wide source with a mark is the mark in one of the two orders, then other units. -/
theorem Encoding.exists_markUnits_of_hasMark {e : Encoding} {units : List e.Unit} (he : e ≠ utf8)
    (h : e.hasMark units = true) : ∃ o rest, units = e.markUnits o ++ rest := by
  cases units with
  | nil => cases e <;> cases h
  | cons u rest =>
    rw [hasMark, markOf?_cons he, Option.isSome_map] at h
    obtain ⟨o, ho⟩ := Option.isSome_iff_exists.mp h
    have hu := eq_of_isMark he ((orderShown_eq_some_iff he).mp ho)
    refine ⟨o, rest, ?_⟩
    cases e with
    | utf8 => exact absurd rfl he
    | utf16 =>
      rw [hu]
      rfl
    | utf32 =>
      rw [hu]
      rfl

namespace Text

/-- The last unit of a text is the first half of a pair. -/
def EndsOpen (t : Text) : Prop := ∃ u, t.getLast? = some u ∧ 0xD800 ≤ u.toNat ∧ u.toNat ≤ 0xDBFF

variable {t rest : Text} {u : UInt16} {options : ReadOptions}

theorem not_endsOpen_nil : ¬ EndsOpen [] := by
  rintro ⟨u, hlast, -⟩
  cases hlast

theorem endsOpen_singleton : EndsOpen [u] ↔ 0xD800 ≤ u.toNat ∧ u.toNat ≤ 0xDBFF := by
  constructor
  · rintro ⟨_, ⟨⟩, hhigh⟩
    exact hhigh
  · exact fun hhigh => ⟨u, rfl, hhigh⟩

/-- A text ends as it does behind its first unit, unless that is all of it and a first half. -/
theorem endsOpen_cons (h : rest = [] → ¬ (0xD800 ≤ u.toNat ∧ u.toNat ≤ 0xDBFF)) :
    EndsOpen (u :: rest) ↔ EndsOpen rest := by
  cases rest with
  | nil => exact iff_of_false (fun hends => h rfl (endsOpen_singleton.mp hends)) not_endsOpen_nil
  | cons v more => simp only [EndsOpen, List.getLast?_cons_cons]

/-- A step over a text is cut off where nothing but a first half is left. Any other step leaves the
end of the text as it is. -/
theorem decodeUtf16_cases (u : UInt16) (rest : Text) :
    (Encoding.decodeUtf16 (u :: rest) = .truncated ∧ EndsOpen (u :: rest)) ∨
      (Encoding.decodeUtf16 (u :: rest) ≠ .truncated ∧
        (EndsOpen (u :: rest) ↔
          EndsOpen ((u :: rest).drop (Encoding.decodeUtf16 (u :: rest)).size))) := by
  unfold Encoding.decodeUtf16
  dsimp only
  split_ifs with hfirst hlow
  · rw [Bool.not_eq_true', ← Bool.not_eq_true, Scalar.isSurrogate_iff] at hfirst
    exact .inr ⟨Step.noConfusion, endsOpen_cons fun _ => by omega⟩
  · rw [Scalar.isLowSurrogate_iff] at hlow
    exact .inr ⟨Step.noConfusion, endsOpen_cons fun _ => by omega⟩
  · rw [Bool.not_eq_true, Bool.not_eq_false', Scalar.isSurrogate_iff] at hfirst
    rw [Scalar.isLowSurrogate_iff] at hlow
    cases rest with
    | nil => exact .inl ⟨rfl, endsOpen_singleton.mpr (by omega)⟩
    | cons v more =>
      dsimp only
      split_ifs with hpair
      · rw [Scalar.isLowSurrogate_iff] at hpair
        have hsecond : EndsOpen (v :: more) ↔ EndsOpen more := endsOpen_cons fun _ => by omega
        refine .inr ⟨Step.noConfusion, (endsOpen_cons fun h => ?_).trans hsecond⟩
        cases h
      · refine .inr ⟨Step.noConfusion, endsOpen_cons fun h => ?_⟩
        cases h

/-- A walk over a text is cut off exactly when the text ends within a pair. -/
theorem truncated_mem_steps_iff (t : Text) :
    .truncated ∈ Encoding.utf16.steps t ↔ EndsOpen t := by
  induction t using Encoding.walk_induction (e := .utf16) with
  | nil =>
    rw [Encoding.steps]
    exact iff_of_false List.not_mem_nil not_endsOpen_nil
  | cut units hne hcut =>
    rw [Encoding.steps_of_truncated hne hcut]
    cases units with
    | nil => exact absurd rfl hne
    | cons u rest =>
      rcases decodeUtf16_cases u rest with ⟨-, hends⟩ | ⟨hother, -⟩
      · exact iff_of_true List.mem_cons_self hends
      · exact absurd hcut hother
  | step units hne hstep ih =>
    rw [Encoding.steps_of_decode hne hstep, List.mem_cons, ih]
    cases units with
    | nil => exact absurd rfl hne
    | cons u rest =>
      rcases decodeUtf16_cases u rest with ⟨hcut, -⟩ | ⟨-, hends⟩
      · exact absurd hcut hstep
      · exact (or_iff_right fun h => hstep h.symm).trans hends.symm

/-- The request for UTF-8 is opened for every text, and the walk behind a mark is cut off exactly
when the text ends within a pair. -/
theorem exists_opening_toUtf8 (t : Text) :
    ∃ o, (⟨some t, .native, .native, .lenient, none⟩ : Request .utf16 .utf8).opening = .ok o ∧
      (.truncated ∈ o.steps ↔ EndsOpen t) := by
  let r : Request .utf16 .utf8 := ⟨some t, .native, .native, .lenient, none⟩
  have hselected : r.selected = some t := rfl
  cases hmark : Encoding.utf16.hasMark t with
  | false =>
    refine ⟨_, Request.opening_of_unmarked hselected hmark, ?_⟩
    rw [← truncated_mem_steps_iff]
    exact iff_of_eq (congrArg (_ ∈ Encoding.utf16.steps ·) (Encoding.map_reorder_host .utf16 t))
  | true =>
    obtain ⟨o, more, rfl⟩ := Encoding.exists_markUnits_of_hasMark Encoding.noConfusion hmark
    refine ⟨_, Request.opening_of_mark hselected rfl, ?_⟩
    have hends : EndsOpen (Encoding.utf16.markUnits o ++ more) ↔ EndsOpen more := by
      cases o <;> exact endsOpen_cons fun _ => by decide
    rw [hends, ← truncated_mem_steps_iff]
    exact iff_of_eq (congrArg (_ ∈ Encoding.utf16.steps ·) (Encoding.map_reorder_host .utf16 more))

/-- A text cannot be encoded in UTF-8 exactly when it ends within a pair, and that is told as an
invalid argument. -/
theorem toUtf8_error_iff (t : Text) :
    ((∃ fault, toUtf8 t .default = .error fault) ↔ EndsOpen t) ∧
      ∀ fault, toUtf8 t .default = .error fault →
        fault.report.code?.map Code.id = some "TEXT-U001" := by
  let r : Request .utf16 .utf8 := ⟨some t, .native, .native, .lenient, none⟩
  obtain ⟨o, hopening, hcut⟩ := exists_opening_toUtf8 t
  have hfills : r.Fills (toUtf8 t .default) := r.fills_whole false
  have hstatus : r.measure.status = if .truncated ∈ o.steps then .invalidArgument else .success :=
    (congrArg Outcome.status (Request.measure_of_opened hopening)).trans (ending_false o.steps)
  by_cases hends : EndsOpen t
  · rw [if_pos (hcut.mpr hends)] at hstatus
    have hfault := hfills.of_failure (by rw [hstatus]; exact Status.noConfusion)
    rw [hstatus] at hfault
    refine ⟨iff_of_true ⟨_, hfault⟩ hends, fun fault h => ?_⟩
    rw [hfault, Except.error.injEq] at h
    rw [← h]
    rfl
  · rw [if_neg (mt hcut.mp hends)] at hstatus
    obtain ⟨units, hunits, -⟩ := hfills.of_success hstatus
    have hok : ∀ fault, toUtf8 t .default ≠ .error fault := by
      intro fault h
      rw [hunits] at h
      cases h
    exact ⟨iff_of_false (fun ⟨fault, h⟩ => hok fault h) hends, fun fault h => absurd h (hok fault)⟩

/-- Bytes of UTF-8 are read as characters, however malformed they are. -/
theorem exists_chars_of_ofUtf8 {bytes : List UInt8} (h : ofUtf8 bytes options = .ok t) :
    ∃ chars : List Char, t = chars.flatMap unitsOfChar := by
  unfold ofUtf8 at h
  dsimp only at h
  rw [Request.whole_eq] at h
  split at h
  · cases h
  · cases h
    obtain ⟨chars, hchars⟩ := exists_chars fun _ => Request.isScalar_of_mem_decoded
      (r := (⟨some bytes, .detect, .native, options.strictness, options.length⟩ :
        Request .utf8 .utf16))
    refine ⟨chars, (Encoding.map_reorder_host .utf16 _).trans ?_⟩
    rw [hchars, encodeAll_utf16_toNat]

/-- A text comes back from UTF-8 exactly when it consists of characters and does not start like a
mark. -/
theorem ofUtf8_toUtf8_iff (t : Text) :
    (toUtf8 t .default).bind (ofUtf8 · .default) = .ok t ↔
      (chars? t).isSome = true ∧ ¬ (t.head? = some 0xFEFF ∨ t.head? = some 0xFFFE) := by
  constructor
  · intro h
    cases hbytes : toUtf8 t .default with
    | error fault =>
      rw [hbytes] at h
      cases h
    | ok bytes =>
      rw [hbytes] at h
      obtain ⟨chars, rfl⟩ := exists_chars_of_ofUtf8 h
      rw [toUtf8_chars, Except.ok.injEq] at hbytes
      rw [Except.bind, ← hbytes, ofUtf8_chars, Except.ok.injEq, flatMap_unitsOfChar_inj] at h
      rw [chars?_eq_some_iff.mpr rfl, ← startsLikeMark_iff]
      refine ⟨rfl, fun hstarts => ?_⟩
      -- what comes back is no longer than what stands behind the mark
      obtain ⟨o, more, -, hbehind, hshorter⟩ := exists_of_startsLikeMark hstarts
      have hlength := congrArg List.length h
      rw [hbehind] at hlength
      split_ifs at hlength
      · rw [List.length_tail] at hlength
        omega
      · omega
  · rintro ⟨hchars, hstarts⟩
    obtain ⟨chars, hsome⟩ := Option.isSome_iff_exists.mp hchars
    rw [chars?_eq_some_iff] at hsome
    subst hsome
    rw [← startsLikeMark_iff, Bool.not_eq_true] at hstarts
    have hmark : chars.head? ≠ some '\uFEFF' := fun hhead => by
      rw [startsLikeMark, hhead] at hstarts
      cases hstarts
    rw [toUtf8_chars, behindMark_eq_self_iff.mpr hstarts, Except.bind, ofUtf8_chars, if_neg hmark]

end Text

/-- An answer that a request fills is never refused for want of room. -/
theorem Request.Fills.hasRoom {source target : Encoding} {r : Request source target}
    {answer : Except Fault (List target.Unit)} (h : r.Fills answer) :
    FailsOnly Fault.HasRoom answer := by
  by_cases hs : r.measure.status = .success
  · obtain ⟨units, rfl, -⟩ := h.of_success hs
    exact failsOnly_ok units
  · have hroom := r.measure_ne_outOfSpace
    rw [h.of_failure hs]
    exact failsOnly_error (Fault.hasRoom_conversion hroom)

/-- A conversion of byte streams fills the units of its destination, unless its bytes do not make up
whole units. -/
theorem Wire.exists_fills_transcode {bytes : List UInt8} {source target : Wire}
    {options : ReadOptions} (h : bytes.length % source.base.unitBytes = 0) :
    ∃ answer, (⟨some (source.base.unitsOf bytes), .fixed source.order, .fixed target.order,
        options.strictness, options.length⟩ : Request source.base target.base).Fills answer ∧
      transcode bytes source target options = answer.map target.base.bytesOf := by
  refine ⟨_, Request.fills_whole _ true, ?_⟩
  rw [transcode, transcodeWindow, Window.length_ofBytes, Window.readAs_ofBytes,
    if_neg (fun hne => hne h)]
  dsimp only
  split
  · rename_i fault hfault
    rw [hfault]
    rfl
  · rename_i units hunits
    rw [hunits]
    rfl

/-- A conversion of byte streams is never refused for want of room. -/
theorem Wire.hasRoom_transcode (bytes : List UInt8) (source target : Wire) (options : ReadOptions) :
    FailsOnly Fault.HasRoom (transcode bytes source target options) := by
  by_cases h : bytes.length % source.base.unitBytes = 0
  · obtain ⟨answer, hfills, heq⟩ := exists_fills_transcode h
    have hroom := hfills.hasRoom
    rw [heq]
    cases answer with
    | ok units => exact failsOnly_ok _
    | error fault => exact failsOnly_error (hroom fault rfl)
  · rw [transcode, transcodeWindow, Window.length_ofBytes, if_pos h]
    refine failsOnly_error ?_
    have hcode : Code.invalidArgument.id ≠ "TEXT-U004" := by decide
    exact fun htold => hcode (Option.some.inj htold)

/-- A text comes back from UTF-8 exactly when it consists of characters and does not start like a
byte order mark. It fails to be encoded exactly when it ends within a pair, which is told as an
invalid argument. When the first pass of a conversion of a text or of a byte stream succeeds, the
second one does, with the same counts, and fills its destination; when the first one fails, that is
the answer. So the destination is never told to be too small. -/
theorem Text.toUtf8_passes :
    (∀ t : Text, (toUtf8 t .default).bind (ofUtf8 · .default) = .ok t ↔
      (chars? t).isSome = true ∧ ¬ (t.head? = some 0xFEFF ∨ t.head? = some 0xFFFE)) ∧
    (∀ t : Text, ((∃ fault, toUtf8 t .default = .error fault) ↔ EndsOpen t) ∧
      ∀ fault, toUtf8 t .default = .error fault →
        fault.report.code?.map Code.id = some "TEXT-U001") ∧
    (∀ (t : Text) (options : ReadOptions),
      (⟨some t, .native, .native, options.strictness, options.length⟩ :
        Request .utf16 .utf8).Fills (toUtf8 t options) ∧
      FailsOnly Fault.HasRoom (toUtf8 t options)) ∧
    (∀ (bytes : List UInt8) (options : ReadOptions),
      (⟨some bytes, .detect, .native, options.strictness, options.length⟩ :
        Request .utf8 .utf16).Fills (ofUtf8 bytes options) ∧
      FailsOnly Fault.HasRoom (ofUtf8 bytes options)) ∧
    (∀ (units : List UInt16) (order : SourceOrder) (options : ReadOptions),
      (⟨some units, order, .native, options.strictness, options.length⟩ :
        Request .utf16 .utf16).Fills (ofUtf16 units order options) ∧
      FailsOnly Fault.HasRoom (ofUtf16 units order options)) ∧
    (∀ (t : Text) (order : TargetOrder),
      (⟨some t, .native, order, .lenient, none⟩ : Request .utf16 .utf32).Fills (toUtf32 t order) ∧
      FailsOnly Fault.HasRoom (toUtf32 t order)) ∧
    (∀ (units : List UInt32) (options : ReadOptions),
      (⟨some units, .detect, .native, options.strictness, options.length⟩ :
        Request .utf32 .utf16).Fills (ofUtf32 units options) ∧
      FailsOnly Fault.HasRoom (ofUtf32 units options)) ∧
    (∀ (bytes : List UInt8) (source target : Wire) (options : ReadOptions),
      (bytes.length % source.base.unitBytes = 0 → ∃ answer,
        (⟨some (source.base.unitsOf bytes), .fixed source.order, .fixed target.order,
          options.strictness, options.length⟩ : Request source.base target.base).Fills answer ∧
        Wire.transcode bytes source target options = answer.map target.base.bytesOf) ∧
      FailsOnly Fault.HasRoom (Wire.transcode bytes source target options)) := by
  have hwhole : ∀ {source target : Encoding} (r : Request source target),
      r.Fills (r.whole false) ∧ FailsOnly Fault.HasRoom (r.whole false) :=
    fun r => ⟨r.fills_whole false, (r.fills_whole false).hasRoom⟩
  exact ⟨ofUtf8_toUtf8_iff, toUtf8_error_iff, fun _ _ => hwhole _, fun _ _ => hwhole _,
    fun _ _ _ => hwhole _, fun _ _ => hwhole _, fun _ _ => hwhole _,
    fun bytes source target options =>
      ⟨Wire.exists_fills_transcode, Wire.hasRoom_transcode bytes source target options⟩⟩

end TextUnits
