import TextUnits.Proofs.Transcode.Units

/-!
# Texts stored in an order

The units of a text can be asked for in the order of the host, where they are the text itself, or in
a stated order, where they are converted into as many units as the text has. The two agree on texts
of characters as long as the conversion reads every unit. It passes over a byte order mark, though,
also in a text: a text that starts like one loses its first unit, and the room left for that holds a
zero at the end.
-/

namespace TextUnits

namespace Request

open Step

variable {source target : Encoding}

/-- A conversion that succeeds with room to spare leaves a zero behind what it writes, and behind
that what the destination held. -/
theorem dest_of_room {r : Request source target} {held : List target.Unit}
    (hs : r.measure.status = .success) (hl : r.measure.length < held.length) :
    (r.convert (some held)).dest =
      some ((target.encodeAll (codesOf r.decoded)).map (target.reorder r.targetOrder.resolve) ++
        target.unit 0 :: held.drop (r.measure.length + 1)) := by
  obtain ⟨o, ho⟩ := exists_opening_of_success hs
  obtain ⟨kept, status, -, hall, -, hc⟩ := convert_of_opened ho held
  obtain ⟨rfl, rfl⟩ := hall (Nat.le_of_lt hl)
  have hlength : target.widthAll (codesOf r.decoded) = r.measure.length := r.length_measure.symm
  have hfront := take_fill r.targetOrder.resolve
    ⟨r.measure.status, codesOf r.decoded, sizeAll r.decoded⟩ held
  have hback := drop_fill r.targetOrder.resolve
    ⟨r.measure.status, codesOf r.decoded, sizeAll r.decoded⟩ held
  dsimp only at hfront hback
  rw [hlength] at hfront hback
  rw [if_pos ⟨by rw [hs]; rfl, hl⟩] at hback
  rw [hc, ← hfront, ← hback, List.take_append_drop]

end Request

namespace Text

open Encoding Request

variable {t words : Text} {o : Order} {skipped : Nat}

/-- A text of which a conversion reads all but the units it skips, at most one, is stored without
them, and a zero stands in their place at the end. -/
theorem toUtf16_of_opening
    (ho : (⟨some t, .native, .fixed o, .lenient, none⟩ : Request .utf16 .utf16).opening =
      .ok ⟨skipped, utf16.steps words⟩)
    (hchars : (chars? words).isSome = true) (hlength : t.length = words.length + skipped)
    (hskipped : skipped ≤ 1) :
    toUtf16 t (.fixed o) = .ok (words.map (utf16.reorder o) ++ List.replicate skipped 0) := by
  let r : Request .utf16 .utf16 := ⟨some t, .native, .fixed o, .lenient, none⟩
  obtain ⟨hmeasure, -, hencoded⟩ := measure_of_words (r := r) ho rfl
  have hmeasured := hmeasure (not_endsOpen_of_chars hchars)
  rw [mended_of_chars hchars, hmeasured, List.take_length] at hencoded
  have hroom : (List.replicate t.length (0 : UInt16)).length = words.length + skipped := by
    rw [List.length_replicate, hlength]
  have hfits : r.measure.length ≤ (List.replicate t.length (0 : UInt16)).length := by
    rw [hmeasured, hroom]
    exact Nat.le_add_right _ _
  have houtcome := (convert_of_room hfits).1
  have hdest : (r.convert (some (List.replicate t.length 0))).dest =
      some (words.map (utf16.reorder o) ++ List.replicate skipped 0) := by
    obtain rfl | rfl : skipped = 0 ∨ skipped = 1 := by omega
    · rw [convert_of_measured (by rw [hmeasured]) (by rw [hmeasured, hroom]; rfl), hencoded]
      exact congrArg some (List.append_nil _).symm
    · rw [dest_of_room (by rw [hmeasured]) (by rw [hmeasured, hroom]; exact Nat.lt_succ_self _),
        hencoded, List.drop_eq_nil_of_le (by rw [hmeasured, hroom])]
      rfl
  unfold toUtf16
  dsimp only
  rw [houtcome, hmeasured, hdest]
  rfl

/-- A text of characters that does not start like a mark is stored unit by unit. -/
theorem toUtf16_of_unmarked (hchars : (chars? t).isSome = true)
    (hm : ¬ (t.head? = some 0xFEFF ∨ t.head? = some 0xFFFE)) (o : Order) :
    toUtf16 t (.fixed o) = .ok (t.map (utf16.reorder o)) := by
  obtain ⟨chars, hsome⟩ := Option.isSome_iff_exists.mp hchars
  rw [chars?_eq_some_iff] at hsome
  have hstarts : startsLikeMark chars = false := by
    rwa [hsome, ← startsLikeMark_iff, Bool.not_eq_true] at hm
  have hmarks : chars.head? ≠ some '\uFEFF' ∧ chars.head? ≠ some '\uFFFE' := by
    simpa only [startsLikeMark, Bool.or_eq_false_iff, beq_eq_false_iff_ne] using hstarts
  have hunmarked : utf16.hasMark t = false := by
    rw [hasMark_eq_false_iff, hsome, ← encodeAll_utf16_toNat,
      ← map_reorder_host utf16 (utf16.encodeAll _)]
    exact markOf?_encodeAll .host (fun _ => isScalar_of_mem_map) (head?_map_toNat_ne hmarks.1)
      fun _ => head?_map_toNat_ne hmarks.2
  have ho : (⟨some t, .native, .fixed o, .lenient, none⟩ : Request .utf16 .utf16).opening =
      .ok ⟨0, utf16.steps t⟩ := by
    rw [opening_of_unmarked rfl hunmarked]
    exact congrArg (fun units => (.ok ⟨0, utf16.steps units⟩ : Except Status Opening))
      (map_reorder_host utf16 t)
  rw [toUtf16_of_opening ho hchars rfl (Nat.zero_le 1)]
  exact congrArg Except.ok (List.append_nil _)

/-- A text of characters that starts like a mark is stored without its first unit, and with a zero
at the end. -/
theorem toUtf16_of_marked (hchars : (chars? t).isSome = true)
    (hm : t.head? = some 0xFEFF ∨ t.head? = some 0xFFFE) (o : Order) :
    toUtf16 t (.fixed o) = .ok (t.tail.map (utf16.reorder o) ++ [0]) := by
  obtain ⟨chars, hsome⟩ := Option.isSome_iff_exists.mp hchars
  rw [chars?_eq_some_iff] at hsome
  rw [hsome, ← startsLikeMark_iff] at hm
  obtain ⟨shown, more, hunits, -, -⟩ := exists_of_startsLikeMark hm
  obtain ⟨u, hu⟩ : ∃ u, utf16.markUnits shown = [u] := ⟨_, rfl⟩
  let r : Request .utf16 .utf16 := ⟨some t, .native, .fixed o, .lenient, none⟩
  have hselected : r.selected = some (utf16.markUnits shown ++ more.flatMap unitsOfChar) :=
    congrArg some (hsome.trans hunits)
  have ho : r.opening = .ok ⟨1, utf16.steps (more.flatMap unitsOfChar)⟩ := by
    rw [opening_of_mark hselected rfl]
    exact congrArg (fun units => (.ok ⟨1, utf16.steps units⟩ : Except Status Opening))
      (map_reorder_host utf16 _)
  have hmore : (chars? (more.flatMap unitsOfChar)).isSome = true := by
    rw [chars?_eq_some_iff.mpr rfl]
    rfl
  have ht : t = u :: more.flatMap unitsOfChar := by rw [hsome, hunits, hu, List.singleton_append]
  rw [toUtf16_of_opening ho hmore (congrArg List.length ht) (Nat.le_refl 1), ht]
  rfl

/-- What is lost of a text that starts like a mark is not made up for by the zero. -/
theorem tail_append_zero_ne (hm : t.head? = some 0xFEFF ∨ t.head? = some 0xFFFE) (o : Order) :
    t.tail.map (utf16.reorder o) ++ [0] ≠ t.map (utf16.reorder o) := by
  cases t with
  | nil => simp at hm
  | cons u rest =>
    intro h
    have hcount := congrArg (List.count (utf16.reorder o u)) h
    rw [List.tail_cons, List.map_cons, List.count_append, List.count_cons_self] at hcount
    have hzero : utf16.reorder o u = 0 :=
      List.mem_singleton.mp (List.count_pos_iff.mp (by omega))
    have hnonzero : utf16.reorder o u ≠ 0 := by
      rw [List.head?_cons, Option.some.injEq, Option.some.injEq] at hm
      rcases hm with rfl | rfl <;> cases o <;> decide
    exact hnonzero hzero

/-- The units of a text of characters. In the order of the host they are the text. In a stated order
there are as many of them, and they are those of the text in that order exactly when the text does
not start like a byte order mark; otherwise the first unit is dropped and a zero appended. -/
theorem toUtf16_units (h : (chars? t).isSome = true) :
    let marked := t.head? = some 0xFEFF ∨ t.head? = some 0xFFFE
    toUtf16 t .native = .ok t ∧
      (∀ order, ∃ units, toUtf16 t order = .ok units ∧ units.length = t.length) ∧
      (∀ o, toUtf16 t (.fixed o) = .ok (t.map (utf16.reorder o)) ↔ ¬ marked) ∧
      (¬ marked → toUtf16 t (.fixed .le) = toUtf16 t .native ∧
        toUtf16 t (.fixed .be) = .ok (t.map swap16)) ∧
      (marked → ∀ o, toUtf16 t (.fixed o) = .ok (t.tail.map (utf16.reorder o) ++ [0])) := by
  intro marked
  refine ⟨rfl, fun order => ?_, fun o => ⟨fun hall hmarked => ?_, toUtf16_of_unmarked h (o := o)⟩,
    fun hmarked => ⟨?_, ?_⟩, toUtf16_of_marked h⟩
  · cases order with
    | native => exact ⟨t, rfl, rfl⟩
    | fixed o =>
      by_cases hmarked : marked
      · refine ⟨_, toUtf16_of_marked h hmarked o, ?_⟩
        have hpos : 0 < t.length := by
          cases t with
          | nil => simp [marked] at hmarked
          | cons u rest => exact Nat.succ_pos _
        rw [List.length_append, List.length_map, List.length_tail, List.length_singleton]
        omega
      · exact ⟨_, toUtf16_of_unmarked h hmarked o, List.length_map ..⟩
  · rw [toUtf16_of_marked h hmarked o, Except.ok.injEq] at hall
    exact tail_append_zero_ne hmarked o hall
  · rw [toUtf16_of_unmarked h hmarked .le]
    exact congrArg Except.ok (map_reorder_host utf16 t)
  · exact toUtf16_of_unmarked h hmarked .be

/-- A letter and a pair, in each order. -/
theorem toUtf16_units_pair :
    (chars? [0x61, 0xD83D, 0xDE00]).isSome = true ∧
      toUtf16 [0x61, 0xD83D, 0xDE00] (.fixed .le) = .ok [0x61, 0xD83D, 0xDE00] ∧
      toUtf16 [0x61, 0xD83D, 0xDE00] (.fixed .be) = .ok [0x6100, 0x3DD8, 0x00DE] := by
  have hchars : (chars? [0x61, 0xD83D, 0xDE00]).isSome = true := by decide +kernel
  obtain ⟨hnative, -, -, hunmarked, -⟩ := toUtf16_units hchars
  obtain ⟨hle, hbe⟩ := hunmarked (by decide)
  exact ⟨hchars, hle.trans hnative, hbe⟩

/-- A text that consists of a byte order mark and a letter comes out as the letter and a zero. -/
theorem toUtf16_mark_dropped :
    (chars? [0xFEFF, 0x61]).isSome = true ∧
      toUtf16 [0xFEFF, 0x61] .native = .ok [0xFEFF, 0x61] ∧
      toUtf16 [0xFEFF, 0x61] (.fixed .le) = .ok [0x61, 0] ∧
      toUtf16 [0xFEFF, 0x61] (.fixed .le) ≠ toUtf16 [0xFEFF, 0x61] .native := by
  have hchars : (chars? [0xFEFF, 0x61]).isSome = true := by decide +kernel
  have hdropped : toUtf16 [0xFEFF, 0x61] (.fixed .le) = .ok [0x61, 0] :=
    toUtf16_of_marked hchars (.inl rfl) .le
  refine ⟨hchars, rfl, hdropped, fun hsame => ?_⟩
  have hnative : toUtf16 [0xFEFF, 0x61] .native = .ok [0xFEFF, 0x61] := rfl
  rw [hdropped, hnative, Except.ok.injEq] at hsame
  exact absurd hsame (by decide)

end Text

end TextUnits
