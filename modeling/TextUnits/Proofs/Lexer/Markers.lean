import TextUnits.Lexer.Options
import TextUnits.Proofs.Encoding.RoundTrip
import TextUnits.Proofs.Transcode.Whole

/-!
# Bytes of comment markers

A marker without text is refused, but whether a marker has bytes is decided when it is encoded.
Encoding passes over a byte order mark at the start, in the order of the host or in the other
one, so the texts that are accepted and have no bytes are the two that are such a mark and
nothing else.
-/

namespace TextUnits

open Step

namespace Encoding

/-- A walk has no steps only if there is nothing to walk over. -/
theorem steps_eq_nil_iff {e : Encoding} {units : List e.Unit} :
    e.steps units = [] ↔ units = [] := by
  constructor
  · intro h
    by_contra hu
    by_cases hs : e.decode units = .truncated
    · rw [steps_of_truncated hu hs] at h
      cases h
    · rw [steps_of_decode hu hs] at h
      cases h
  · rintro rfl
    rw [steps]

/-- A code point that UTF-16 text is read as is one of its units, stands beyond the first plane, or
replaces malformed input. -/
theorem unit_of_mem_codesOf {units : List UInt16} {code : Nat}
    (h : code ∈ codesOf (utf16.steps units)) :
    (∃ u ∈ units, u.toNat = code) ∨ 0x10000 ≤ code ∨ code = Scalar.replacement := by
  induction units using walk_induction (e := .utf16) with
  | nil =>
    rw [steps] at h
    cases h
  | cut units hu hs =>
    rw [steps_of_truncated hu hs] at h
    cases h
  | step units hu hs ih =>
    rw [steps_of_decode hu hs] at h
    obtain ⟨step, hm, hc⟩ := List.mem_filterMap.mp h
    rcases List.mem_cons.mp hm with rfl | hm
    · cases units with
      | nil => exact absurd rfl hu
      | cons u rest =>
        change (decodeUtf16 (u :: rest)).code? = some code at hc
        unfold decodeUtf16 at hc
        dsimp only at hc
        split_ifs at hc with hfirst hlow
        · cases hc
          exact .inl ⟨u, List.mem_cons_self, rfl⟩
        · cases hc
          exact .inr (.inr rfl)
        · cases rest with
          | nil => cases hc
          | cons v more =>
            dsimp only at hc
            split_ifs at hc
            · cases hc
              exact .inr (.inl (Nat.le_add_left _ _))
            · cases hc
              exact .inr (.inr rfl)
    · rcases ih (List.mem_filterMap.mpr ⟨step, hm, hc⟩) with ⟨u, hmem, he⟩ | hother
      · exact .inl ⟨u, List.mem_of_mem_drop hmem, he⟩
      · exact .inr hother

/-- A unit of UTF-16 shows an order when it is the mark in one of the two orders. -/
theorem orderShown_utf16 {u : UInt16} :
    orderShown utf16 u ≠ none ↔ u = 0xFEFF ∨ u = 0xFFFE := by
  have hplain : isMark utf16 .le u = true ↔ u = 0xFEFF := by
    rw [isMark, beq_iff_eq]
    exact UInt16.toNat_inj (b := 0xFEFF)
  have hswapped : isMark utf16 .be u = true ↔ u = 0xFFFE := by
    rw [isMark, beq_iff_eq]
    refine (UInt16.toNat_inj (a := swap16 u) (b := 0xFEFF)).trans ?_
    constructor
    · intro h
      rw [← swap16_swap16 u, h]
      rfl
    · rintro rfl
      rfl
  rw [← hplain, ← hswapped, orderShown]
  split_ifs with hle hbe
  · exact ⟨fun _ => Or.inl hle, fun _ => Option.some_ne_none _⟩
  · exact ⟨fun _ => Or.inr hbe, fun _ => Option.some_ne_none _⟩
  · exact ⟨fun h => absurd rfl h, fun h => absurd h (not_or.mpr ⟨hle, hbe⟩)⟩

end Encoding

namespace Request

variable {source target : Encoding}

/-- A whole conversion gives no units exactly when nothing stands behind the mark that it passes
over. -/
theorem whole_eq_nil_iff {r : Request source target} {o : Opening} {tellCapacity : Bool}
    {units : List target.Unit} (ho : r.opening = .ok o) (hw : r.whole tellCapacity = .ok units) :
    units = [] ↔ o.steps = [] := by
  rw [whole_eq] at hw
  cases hf : failure? r.measure source target none with
  | some fault =>
    rw [hf] at hw
    cases hw
  | none =>
    rw [hf] at hw
    cases hw
    have hstatus : ending r.strictness.refuseInvalid o.steps = .success := by
      rw [measure_of_opened ho] at hf
      unfold failure? failureWith? at hf
      split_ifs at hf with hs
      exact hs
    rw [List.map_eq_nil_iff, ← List.length_eq_zero_iff, Encoding.length_encodeAll, decoded, ho]
    dsimp only
    cases hsteps : o.steps with
    | nil => exact ⟨fun _ => rfl, fun _ => rfl⟩
    | cons step rest =>
      rw [hsteps] at hstatus
      cases hstops : step.stops r.strictness.refuseInvalid with
      | true =>
        rw [ending_cons_of_stops hstops] at hstatus
        cases step <;> cases hstatus
      | false =>
        obtain ⟨code, hc⟩ := exists_code?_of_not_stops hstops
        have hpos := target.width_pos code
        rw [accepted_cons_of_not_stops hstops, codesOf_cons hc, Encoding.widthAll]
        constructor
        · intro hzero
          omega
        · intro hnil
          cases hnil

end Request

namespace Request

/-- A text is read behind the mark that it may start with, in the order of the host. -/
theorem opening_of_text (t : Text) :
    (⟨some t, .native, .native, .lenient, none⟩ : Request .utf16 .utf8).opening =
      .ok ⟨((Encoding.utf16.markOf? t).map (·.size)).getD 0,
        Encoding.utf16.steps ((t.drop (((Encoding.utf16.markOf? t).map (·.size)).getD 0)).map
          (Encoding.utf16.reorder Order.host))⟩ := by
  unfold opening
  dsimp only [Option.bind_some, selectUnits]
  rw [if_neg (fun hm => by cases hm.2)]
  rfl

end Request

namespace Text

/-- A text that is a byte order mark in one of the two orders and nothing else. -/
def IsLoneMark (t : Text) : Prop := t = [0xFEFF] ∨ t = [0xFFFE]

/-- A text that is accepted has no bytes in UTF-8 exactly when it is empty or a lone mark. -/
theorem toUtf8_eq_nil_iff {t : Text} {bytes : List UInt8} (h : toUtf8 t .default = .ok bytes) :
    bytes = [] ↔ t = [] ∨ t.IsLoneMark := by
  rw [Request.whole_eq_nil_iff (Request.opening_of_text t) h, Encoding.steps_eq_nil_iff,
    List.map_eq_nil_iff, List.drop_eq_nil_iff]
  unfold IsLoneMark
  cases t with
  | nil => exact ⟨fun _ => Or.inl rfl, fun _ => Nat.zero_le _⟩
  | cons u rest =>
    rw [Encoding.markOf?, List.head?_cons, Option.bind_some, List.length_cons]
    cases hu : Encoding.orderShown .utf16 u with
    | none =>
      have hno : ¬ (u = 0xFEFF ∨ u = 0xFFFE) := by
        rw [← Encoding.orderShown_utf16, hu]
        exact fun hn => hn rfl
      constructor
      · intro hle
        exact absurd hle (Nat.not_succ_le_zero _)
      · rintro (he | he | he)
        · cases he
        · exact absurd (Or.inl (List.cons.inj he).1) hno
        · exact absurd (Or.inr (List.cons.inj he).1) hno
    | some order =>
      have hmark : u = 0xFEFF ∨ u = 0xFFFE := by
        rw [← Encoding.orderShown_utf16, hu]
        exact Option.some_ne_none _
      constructor
      · intro hle
        have hrest : rest = [] := List.length_eq_zero_iff.mp (Nat.le_zero.mp
          (Nat.le_of_succ_le_succ hle))
        rw [hrest]
        rcases hmark with rfl | rfl
        · exact Or.inr (Or.inl rfl)
        · exact Or.inr (Or.inr rfl)
      · rintro (he | he | he)
        · cases he
        · cases he
          exact Nat.le_refl _
        · cases he
          exact Nat.le_refl _

/-- The bytes of a text in UTF-8 encode scalar values, each of which is a unit of the text, stands
beyond the first plane, or replaces malformed input. -/
theorem exists_codes_of_toUtf8 {t : Text} {bytes : List UInt8}
    (h : toUtf8 t .default = .ok bytes) :
    ∃ codes, bytes = Encoding.utf8.encodeAll codes ∧ ∀ code ∈ codes,
      Scalar.isScalar code = true ∧
        ((∃ u ∈ t, u.toNat = code) ∨ 0x10000 ≤ code ∨ code = Scalar.replacement) := by
  let r : Request .utf16 .utf8 := ⟨some t, .native, .native, .lenient, none⟩
  have hopening : r.opening = _ := Request.opening_of_text t
  change r.whole false = .ok bytes at h
  rw [Request.whole_eq] at h
  split at h
  · cases h
  · cases h
    refine ⟨codesOf r.decoded, ?_, ?_⟩
    · exact Encoding.map_reorder_utf8 r.targetOrder.resolve _
    · intro code hc
      refine ⟨Request.isScalar_of_mem_decoded hc, ?_⟩
      rw [Request.decoded, hopening] at hc
      obtain ⟨step, hm, hcode⟩ := List.mem_filterMap.mp hc
      have hsteps := (List.takeWhile_sublist _).mem hm
      rcases Encoding.unit_of_mem_codesOf (List.mem_filterMap.mpr ⟨step, hsteps, hcode⟩) with
        ⟨u, hu, he⟩ | hother
      · obtain ⟨v, hv, rfl⟩ := List.mem_map.mp hu
        exact .inl ⟨v, List.mem_of_mem_drop hv, he⟩
      · exact .inr hother

end Text

namespace Lexer.Settings

/-- A marker that is accepted has no bytes exactly when its text is a lone mark. -/
theorem marker_eq_nil_iff {name : String} {text : Text} {bytes : List UInt8}
    (h : marker name text = .ok bytes) : bytes = [] ↔ text.IsLoneMark := by
  unfold marker at h
  split_ifs at h with hempty
  rw [Text.toUtf8_eq_nil_iff h, or_iff_right]
  rwa [List.isEmpty_iff] at hempty

/-- The markers of resolved options are those of the settings, or else the default ones. -/
theorem resolve_markers {s : Settings} {o : Options} (h : s.resolve = .ok o) :
    marker "lineCommentOpener" (s.lineOpener.getD defaultLineOpener) = .ok o.lineOpener ∧
      marker "blockCommentOpener" (s.blockOpener.getD defaultBlockOpener) = .ok o.blockOpener ∧
      marker "blockCommentCloser" (s.blockCloser.getD defaultBlockCloser) =
        .ok o.blockCloser := by
  unfold resolve at h
  cases hl : marker "lineCommentOpener" (s.lineOpener.getD defaultLineOpener) with
  | error fault =>
    rw [hl] at h
    cases h
  | ok line =>
    cases ho : marker "blockCommentOpener" (s.blockOpener.getD defaultBlockOpener) with
    | error fault =>
      rw [hl, ho] at h
      cases h
    | ok opener =>
      cases hc : marker "blockCommentCloser" (s.blockCloser.getD defaultBlockCloser) with
      | error fault =>
        rw [hl, ho, hc] at h
        cases h
      | ok closer =>
        rw [hl, ho, hc] at h
        cases h
        exact ⟨rfl, rfl, rfl⟩

end Lexer.Settings

end TextUnits
