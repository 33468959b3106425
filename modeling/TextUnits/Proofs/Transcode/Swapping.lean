import TextUnits.Proofs.Transcode.Reconversion
import Mathlib.Data.List.TakeWhile

/-!
# Units with their bytes in reverse

Exchanging the bytes of every unit of a source and reading it in the other order are the same: a
zero stays a zero, a mark shows the other order, and what is read in the end are the same words. In
the same way the order of the result decides how the units that are written lie in memory, and
nothing else.
-/

namespace TextUnits

open Step Reading

/-- The opposite order. -/
def Order.other : Order → Order
  | le => be
  | be => le

@[simp]
theorem Order.other_other (o : Order) : o.other.other = o := by
  cases o <;> rfl

namespace Encoding

variable {e : Encoding} {o : Order} {u : e.Unit} {units front : List e.Unit}

/-- A unit with its bytes in reverse, read in one order, is the unit read in the other one. -/
theorem reorder_swap (e : Encoding) (o : Order) (u : e.Unit) :
    e.reorder o (e.swap u) = e.reorder o.other u := by
  cases o with
  | le => rfl
  | be => exact e.swap_swap u

theorem value_inj (e : Encoding) {u v : e.Unit} : e.value u = e.value v ↔ u = v := by
  cases e with
  | utf8 => exact UInt8.toNat_inj
  | utf16 => exact UInt16.toNat_inj
  | utf32 => exact UInt32.toNat_inj

/-- A unit is zero when its bytes in reverse are. -/
theorem value_swap_eq_zero_iff (e : Encoding) (u : e.Unit) :
    e.value (e.swap u) = 0 ↔ e.value u = 0 := by
  have hvalue : e.value (e.unit 0) = 0 := by cases e <;> rfl
  have hswap : e.swap (e.unit 0) = e.unit 0 := by cases e <;> rfl
  rw [← hvalue, value_inj, value_inj]
  constructor
  · intro h
    rw [← e.swap_swap u, h, hswap]
  · rintro rfl
    exact hswap

/-- A length selects the same units when the bytes of all of them are in reverse. -/
theorem selectUnits_map_swap (e : Encoding) (length : Option Double) (units : List e.Unit) :
    selectUnits e length (units.map e.swap) =
      (selectUnits e length units).map (List.map e.swap) := by
  have hzero : ((fun u => e.value u != 0) ∘ e.swap) = fun u => e.value u != 0 := by
    funext u
    rw [Function.comp_apply, Bool.eq_iff_iff, bne_iff_ne, bne_iff_ne]
    exact not_congr (e.value_swap_eq_zero_iff u)
  unfold selectUnits
  cases length with
  | none => rfl
  | some x =>
    dsimp only
    cases x.toInt? with
    | none => rfl
    | some n =>
      dsimp only
      rw [List.length_map, List.takeWhile_map, hzero, ← List.map_take]
      split_ifs <;> rfl

/-- The units that a length selects are the first ones. -/
theorem selectUnits_prefix {length : Option Double} (h : selectUnits e length units = some front) :
    front <+: units := by
  unfold selectUnits at h
  split at h
  · cases h
    exact List.prefix_refl units
  · split at h
    · cases h
    · split_ifs at h
      · cases h
        exact List.takeWhile_prefix _
      · cases h
        exact List.take_prefix _ _

/-- A wide unit is a mark in an order only as the mark stored in it. -/
theorem eq_of_isMark (he : e ≠ utf8) (h : e.isMark o u = true) :
    u = e.reorder o (e.unit Scalar.mark) := by
  have hvalue : e.value (e.unit Scalar.mark) = Scalar.mark := by
    cases e with
    | utf8 => exact absurd rfl he
    | utf16 => rfl
    | utf32 => rfl
  rw [isMark, beq_iff_eq, ← hvalue, value_inj] at h
  rw [← h, e.reorder_reorder]

/-- A wide unit shows the order in which it is a mark; it is one in one order at most. -/
theorem orderShown_eq_some_iff (he : e ≠ utf8) : e.orderShown u = some o ↔ e.isMark o u = true := by
  have hshown : ∀ o, e.orderShown (e.reorder o (e.unit Scalar.mark)) = some o := by
    intro o
    cases e with
    | utf8 => exact absurd rfl he
    | utf16 => cases o <;> rfl
    | utf32 => cases o <;> rfl
  constructor
  · intro h
    unfold orderShown at h
    split_ifs at h with hle hbe
    · cases h
      exact hle
    · cases h
      exact hbe
  · intro h
    rw [eq_of_isMark he h]
    exact hshown o

/-- A wide unit with its bytes in reverse shows the other order. -/
theorem orderShown_swap (he : e ≠ utf8) (u : e.Unit) :
    e.orderShown (e.swap u) = (e.orderShown u).map Order.other := by
  have hmark : ∀ o, e.isMark o (e.swap u) = e.isMark o.other u := by
    intro o
    rw [isMark, reorder_swap]
    rfl
  ext o
  rw [orderShown_eq_some_iff he, hmark, ← orderShown_eq_some_iff he, Option.map_eq_some_iff]
  constructor
  · intro h
    exact ⟨o.other, h, o.other_other⟩
  · rintro ⟨shown, h, rfl⟩
    rw [Order.other_other]
    exact h

/-- Units with their bytes in reverse start with a mark when the units do, and it shows the other
order. -/
theorem markOf?_map_swap (e : Encoding) (units : List e.Unit) :
    e.markOf? (units.map e.swap) =
      (e.markOf? units).map fun mark => ⟨mark.size, mark.order.map Order.other⟩ := by
  by_cases he : e = utf8
  · subst he
    have hsame : units.map utf8.swap = units := List.map_id' units
    rw [hsame, markOf?]
    split_ifs <;> rfl
  · cases units with
    | nil => cases e <;> rfl
    | cons u rest =>
      rw [List.map_cons, markOf?_cons he, markOf?_cons he, orderShown_swap he, Option.map_map,
        Option.map_map]
      rfl

/-- The first units of a wide source that starts with a mark start with it too. -/
theorem exists_markOf?_of_prefix (he : e ≠ utf8) (hm : e.hasMark units = true)
    (hf : front <+: units) (hne : front ≠ []) : ∃ o, e.markOf? front = some ⟨1, some o⟩ := by
  cases front with
  | nil => exact absurd rfl hne
  | cons u rest =>
    obtain ⟨more, rfl⟩ := hf
    rw [hasMark, List.cons_append, markOf?_cons he, Option.isSome_map] at hm
    obtain ⟨o, ho⟩ := Option.isSome_iff_exists.mp hm
    rw [markOf?_cons he, ho]
    exact ⟨o, rfl⟩

end Encoding

namespace Request

variable {source target : Encoding} {r : Request source target} {wish : SourceOrder}

/-- The request for the same units with their bytes in reverse, under another wish for the order. -/
def swapped (r : Request source target) (wish : SourceOrder) : Request source target :=
  { r with units := r.units.map (List.map source.swap), sourceOrder := wish }

theorem selected_swapped (r : Request source target) (wish : SourceOrder) :
    (r.swapped wish).selected = r.selected.map (List.map source.swap) := by
  unfold selected swapped
  cases r.units with
  | none => rfl
  | some units => exact source.selectUnits_map_swap r.length units

/-- A request with the bytes of its units in reverse is opened with the same steps when it is read
in the other order. Without units the order does not matter. -/
theorem opening_swapped
    (h : ∀ units, r.selected = some units → units ≠ [] →
      wish.resolve (((source.markOf? units).bind (·.order)).map Order.other) =
        (r.sourceOrder.resolve ((source.markOf? units).bind (·.order))).other) :
    (r.swapped wish).opening = r.opening := by
  cases hunits : r.selected with
  | none =>
    have hnone : (r.swapped wish).selected = none := by
      rw [selected_swapped, hunits]
      rfl
    rw [opening_of_unselected hunits, opening_of_unselected hnone]
  | some units =>
    have hswapped : (r.swapped wish).selected = some (units.map source.swap) := by
      rw [selected_swapped, hunits]
      rfl
    have hmark : source.hasMark (units.map source.swap) = source.hasMark units := by
      rw [Encoding.hasMark, source.markOf?_map_swap, Option.isSome_map]
      rfl
    have hsize : ((source.markOf? (units.map source.swap)).map (·.size)).getD 0 =
        ((source.markOf? units).map (·.size)).getD 0 := by
      rw [source.markOf?_map_swap, Option.map_map]
      rfl
    have horder : (source.markOf? (units.map source.swap)).bind (·.order) =
        ((source.markOf? units).bind (·.order)).map Order.other := by
      rw [source.markOf?_map_swap]
      cases source.markOf? units <;> rfl
    have hread : ∀ skipped, ((units.map source.swap).drop skipped).map
        (source.reorder (wish.resolve (((source.markOf? units).bind (·.order)).map Order.other))) =
          (units.drop skipped).map
            (source.reorder (r.sourceOrder.resolve ((source.markOf? units).bind (·.order)))) := by
      intro skipped
      by_cases hempty : units = []
      · rw [hempty, List.map_nil, List.drop_nil, List.map_nil, List.map_nil]
      · rw [← List.map_drop, List.map_map, h units hunits hempty]
        refine List.map_congr_left fun u _ => ?_
        rw [Function.comp_apply, source.reorder_swap, Order.other_other]
    have hwish : (r.swapped wish).sourceOrder = wish := rfl
    rw [opening_of_selected hswapped, opening_of_selected hunits, hmark, hsize, horder, hwish,
      hread]
    rfl

/-- The units of a destination behind those of a reading: a zero when the reading ends so and a slot
is left, and what stood there before. -/
theorem drop_fill (order : Order) (reading : Reading) (held : List target.Unit) :
    (fill order reading held).drop (target.widthAll reading.codes) =
      if terminates reading.status ∧ target.widthAll reading.codes < held.length then
        target.unit 0 :: held.drop (target.widthAll reading.codes + 1)
      else held.drop (target.widthAll reading.codes) := by
  have hw := target.length_stored order reading.codes
  unfold fill overlay
  dsimp only
  rw [← hw]
  split_ifs
  · rw [List.append_assoc, List.drop_left, List.length_append]
    rfl
  · rw [List.drop_left]

/-- The order of the result decides how the written units are stored and nothing else: both orders
give the same counts, the units that are written are each other's with the bytes in reverse, and
behind them the destinations are the same. -/
theorem convert_stored (r : Request source target) (dest : Option (List target.Unit)) :
    let le := ({ r with targetOrder := .fixed .le } : Request source target).convert dest
    let be := ({ r with targetOrder := .fixed .be } : Request source target).convert dest
    be.outcome = le.outcome ∧ be.written = le.written.map target.swap ∧
      be.dest.map (List.drop be.outcome.length) = le.dest.map (List.drop le.outcome.length) := by
  intro le be
  have hle : le = _ := convert_eq { r with targetOrder := .fixed .le } dest
  have hbe : be = _ := convert_eq { r with targetOrder := .fixed .be } dest
  have hopening : ∀ order : TargetOrder,
      ({ r with targetOrder := order } : Request source target).opening = r.opening := fun _ => rfl
  rw [hopening] at hle hbe
  cases ho : r.opening with
  | error status =>
    rw [ho] at hle hbe
    rw [hle, hbe]
    exact ⟨rfl, rfl, rfl⟩
  | ok o =>
    rw [ho] at hle hbe
    cases dest with
    | none =>
      rw [hle, hbe]
      dsimp only [Converted.written, Option.map_none, Option.getD_none]
      simp only [List.take_nil, List.map_nil, and_self]
    | some held =>
      rw [hle, hbe]
      dsimp only [Converted.written, Option.map_some, Option.getD_some, TargetOrder.resolve]
      rw [take_fill, take_fill, drop_fill, drop_fill, List.map_map]
      exact ⟨rfl, rfl, rfl⟩

/-- Orders are symmetric at both ends. A source read with the high byte first converts like the same
units with their bytes in reverse read with the low byte first, and so it does when the order is to
be detected and a mark starts a wide source. At the other end both orders give the same counts and
store the written units as each other's reverse; behind them the destinations are the same. -/
theorem convert_swapped (r : Request source target) (dest : Option (List target.Unit)) :
    ({ r with sourceOrder := .fixed .be } : Request source target).convert dest =
        (r.swapped (.fixed .le)).convert dest ∧
      (source ≠ .utf8 → (∀ units ∈ r.units, source.hasMark units = true) →
        ({ r with sourceOrder := .detect } : Request source target).convert dest =
          (r.swapped .detect).convert dest) ∧
      let le := ({ r with targetOrder := .fixed .le } : Request source target).convert dest
      let be := ({ r with targetOrder := .fixed .be } : Request source target).convert dest
      be.outcome = le.outcome ∧ be.written = le.written.map target.swap ∧
        be.dest.map (List.drop be.outcome.length) = le.dest.map (List.drop le.outcome.length) := by
  refine ⟨?_, fun hwide hmark => ?_, convert_stored r dest⟩
  · let high : Request source target := { r with sourceOrder := .fixed .be }
    have hopening : (high.swapped (.fixed .le)).opening = high.opening :=
      opening_swapped fun _ _ _ => rfl
    exact convert_congr hopening.symm rfl rfl dest
  · let detected : Request source target := { r with sourceOrder := .detect }
    have hopening : (detected.swapped .detect).opening = detected.opening := by
      refine opening_swapped fun units hunits hne => ?_
      obtain ⟨all, hall, hselected⟩ := Option.bind_eq_some_iff.mp hunits
      obtain ⟨o, ho⟩ := Encoding.exists_markOf?_of_prefix hwide (hmark all hall)
        (Encoding.selectUnits_prefix hselected) hne
      rw [ho]
      rfl
    exact convert_congr hopening.symm rfl rfl dest

/-- A mark, a letter and a sign in UTF-16 up to the first zero, with their order to be detected. -/
theorem convert_swapped_detected :
    let r : Request .utf16 .utf8 :=
      ⟨some [0xFEFF, 0x61, 0x20AC, 0, 0x62], .detect, .native, .lenient, some (Double.ofInt (-1))⟩
    let reversed : Request .utf16 .utf8 :=
      ⟨some [0xFFFE, 0x6100, 0xAC20, 0, 0x6200], .detect, .native, .lenient,
        some (Double.ofInt (-1))⟩
    Encoding.utf16.hasMark [0xFEFF, 0x61, 0x20AC, 0, 0x62] = true ∧
      (r.convert (some [1, 1, 1, 1, 1])).outcome = ⟨.success, 4, 3⟩ ∧
      reversed.convert (some [1, 1, 1, 1, 1]) = r.convert (some [1, 1, 1, 1, 1]) := by
  intro r reversed
  have hmark : Encoding.utf16.hasMark [0xFEFF, 0x61, 0x20AC, 0, 0x62] = true := by decide
  have hmarked : ∀ units ∈ r.units, Encoding.utf16.hasMark units = true := by
    rintro _ ⟨⟩
    exact hmark
  have hreversed : r.swapped .detect = reversed := rfl
  have hsame := (convert_swapped r (some [1, 1, 1, 1, 1])).2.1 (by decide) hmarked
  rw [hreversed] at hsame
  exact ⟨hmark, by decide +kernel, hsame.symm⟩

end Request

end TextUnits
