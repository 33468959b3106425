import TextUnits.Proofs.Encoding.InPlace
import TextUnits.Proofs.Transcode.Opening

/-!
# Conversions with a limit

A `Passage` goes over a source that is not cut, from place to place up to a limit, and writes each
code point over the units of the destination at the place where the last one ended. It makes of its
destination, and counts, what the conversion of the units up to the limit does. So a length that
fits the source stands for its first units, whatever stands behind them, and a length of -1 for the
units in front of the first zero.
-/

namespace TextUnits

open Step Reading

namespace Encoding

variable {e : Encoding}

/-- How many units of a source are to be read under a length, if that fits the source. -/
def limitOf? (e : Encoding) (length : Option Double) (units : List e.Unit) : Option Nat :=
  match length with
  | none => some units.length
  | some x =>
    match x.toInt? with
    | none => none
    | some n =>
      if n = -1 then some (units.findIdx fun u => e.value u == 0)
      else if 0 ≤ n ∧ n ≤ units.length then some n.toNat
      else none

/-- A limit lies within its source. -/
theorem limitOf?_le {length : Option Double} {units : List e.Unit} {limit : Nat}
    (h : e.limitOf? length units = some limit) : limit ≤ units.length := by
  unfold limitOf? at h
  split at h
  · cases h
    exact Nat.le_refl _
  · split at h
    · cases h
    · split_ifs at h with hzero hwithin
      · cases h
        exact List.findIdx_le_length
      · cases h
        omega

/-- The units that a length selects are those up to its limit. -/
theorem selectUnits_eq (e : Encoding) (length : Option Double) (units : List e.Unit) :
    selectUnits e length units = (e.limitOf? length units).map units.take := by
  have hzero : (units.takeWhile fun u => e.value u != 0) =
      units.take (units.findIdx fun u => e.value u == 0) := by
    rw [List.takeWhile_eq_take_findIdx_not]
    simp only [bne, Bool.not_not]
  unfold selectUnits limitOf?
  cases length with
  | none => exact congrArg some List.take_length.symm
  | some x =>
    dsimp only
    cases x.toInt? with
    | none => rfl
    | some n =>
      dsimp only
      rw [hzero]
      split_ifs <;> rfl

end Encoding

section Overlays

variable {α : Type} {front written held : List α}

/-- Units written over those from a place on. -/
def overlayAt (n : Nat) (written held : List α) : List α :=
  held.take n ++ overlay written (held.drop n)

/-- Units laid over others leave as many as there were, unless they are more. -/
theorem length_overlay (h : front.length ≤ held.length) :
    (overlay front held).length = held.length := by
  rw [overlay, List.length_append, List.length_drop]
  omega

/-- Units written behind those that were laid over a destination are laid over it with them. -/
theorem overlayAt_overlay (front written held : List α) :
    overlayAt front.length written (overlay front held) = overlay (front ++ written) held := by
  simp only [overlayAt, overlay, List.take_left, List.drop_left, List.drop_drop,
    List.length_append, List.append_assoc]

/-- One unit set behind those that were laid over a destination is laid over it with them. -/
theorem set_overlay (u : α) (h : front.length < held.length) :
    (overlay front held).set front.length u = overlay (front ++ [u]) held := by
  rw [overlay, List.set_append_right _ _ (Nat.le_refl _), Nat.sub_self,
    List.drop_eq_getElem_cons h, List.set_cons_zero, overlay, List.length_append,
    List.length_singleton, List.append_assoc, List.singleton_append]

end Overlays

namespace Request

variable {source target : Encoding}

/-- A conversion that reads its source and writes its destination in place. -/
structure Passage (source target : Encoding) where
  /-- All units of the source. -/
  units : List source.Unit
  /-- How many of them are to be read. -/
  limit : Nat
  /-- The limit lies within the source. -/
  limit_le : limit ≤ units.length
  /-- Order the source is stored in. -/
  order : Order
  /-- Order the result is to be stored in. -/
  targetOrder : Order
  /-- Whether malformed input is refused. -/
  refuseInvalid : Bool

namespace Passage

variable {p : Passage source target} {n : Nat}

/-- What stands at a place of the source. -/
def step (p : Passage source target) (n : Nat) : Step :=
  source.decodeAt p.order p.units p.limit n

/-- The units from a place up to the limit, in the order of the host. -/
def behind (p : Passage source target) (n : Nat) : List source.Unit :=
  ((p.units.take p.limit).drop n).map (source.reorder p.order)

/-- In front of the limit a step in place is the one at the front of the units up to the limit. -/
theorem step_eq (hn : n < p.limit) : p.step n = source.decode (p.behind n) :=
  source.decodeAt_eq p.order p.limit_le hn

theorem length_behind (p : Passage source target) (n : Nat) :
    (p.behind n).length = p.limit - n := by
  rw [behind, List.length_map, Encoding.length_drop_take p.limit_le]

theorem behind_ne_nil (hn : n < p.limit) : p.behind n ≠ [] := by
  rw [← List.length_pos_iff, length_behind]
  omega

theorem behind_add (p : Passage source target) (n m : Nat) :
    p.behind (n + m) = (p.behind n).drop m := by
  rw [behind, behind, ← List.map_drop, List.drop_drop]

/-- A step in front of the limit that stops nothing takes a unit and ends in front of the limit. -/
theorem step_within (hn : n < p.limit) (hs : (p.step n).stops p.refuseInvalid = false) :
    0 < (p.step n).size ∧ n + (p.step n).size ≤ p.limit := by
  have hwithin := source.decode_within (p.behind n)
  rw [← step_eq hn] at hwithin
  have hcut : p.step n ≠ .truncated := by
    intro hcut
    rw [hcut] at hs
    cases hs
  have hle := Encoding.size_le hwithin
  rw [length_behind] at hle
  exact ⟨Encoding.size_pos hwithin hcut, by omega⟩

/-- The end of a conversion behind `count` units of its destination: a zero follows them when a slot
is left. -/
def close (status : Status) (n count : Nat) (dest : Option (List target.Unit)) : Converted target :=
  ⟨⟨status, count, n⟩, dest.map fun held =>
    if count < held.length then held.set count (target.unit 0) else held⟩

/-- Goes on at a place of the source behind `count` units of the destination. -/
def run (p : Passage source target) (n count : Nat) (dest : Option (List target.Unit)) :
    Converted target :=
  if _open : n < p.limit then
    if _stops : (p.step n).stops p.refuseInvalid then
      ⟨⟨(p.step n).stopStatus, count, n⟩, dest⟩
    else
      let code := (p.step n).code?.getD Scalar.replacement
      if dest.any fun held => held.length < count + target.width code then
        close .outOfSpace n count dest
      else
        let written := (target.encode code).map (target.reorder p.targetOrder)
        p.run (n + (p.step n).size) (count + target.width code) (dest.map (overlayAt count written))
  else close .success n count dest
termination_by p.limit - n
decreasing_by
  have hmoves := (step_within _open (Bool.eq_false_iff.mpr _stops)).1
  omega

/-- What a conversion reads from a place on, with room for some more units. -/
def reading (p : Passage source target) (n : Nat) (room : Option Nat) : Reading :=
  Reading.take target p.refuseInvalid room (source.steps (p.behind n))

theorem reading_of_stops (hn : n < p.limit) (hs : (p.step n).stops p.refuseInvalid = true)
    (room : Option Nat) : p.reading n room = ⟨(p.step n).stopStatus, [], 0⟩ := by
  have hne := behind_ne_nil hn
  have hfront := step_eq hn
  unfold reading
  by_cases hcut : source.decode (p.behind n) = .truncated
  · rw [Encoding.steps_of_truncated hne hcut, ← hcut, ← hfront, take_cons_of_stops hs]
  · rw [Encoding.steps_of_decode hne hcut, ← hfront, take_cons_of_stops hs]

theorem reading_of_not_stops (hn : n < p.limit) (hs : (p.step n).stops p.refuseInvalid = false)
    {code : Nat} (hc : (p.step n).code? = some code) (room : Option Nat) :
    p.reading n room =
      if ∀ free, room = some free → target.width code ≤ free then
        push code (p.step n).size
          (p.reading (n + (p.step n).size) (room.map (· - target.width code)))
      else ⟨.outOfSpace, [], 0⟩ := by
  have hcut : source.decode (p.behind n) ≠ .truncated := by
    rw [← step_eq hn]
    intro hcut
    rw [hcut] at hc
    cases hc
  unfold reading
  rw [Encoding.steps_of_decode (behind_ne_nil hn) hcut, ← step_eq hn,
    take_cons_of_not_stops hs hc, ← behind_add]

theorem reading_of_end (hn : p.limit ≤ n) (room : Option Nat) :
    p.reading n room = ⟨.success, [], 0⟩ := by
  have hnil : p.behind n = [] := by
    rw [← List.length_eq_zero_iff, length_behind]
    omega
  rw [reading, hnil, Encoding.steps]
  rfl

/-- A destination behind a reading: units that stood there before, those of the reading, and a zero
when it ends so and a slot is left. -/
def filled (order : Order) (front : List target.Unit) (reading : Reading)
    (held : List target.Unit) : List target.Unit :=
  let written := front ++ (target.encodeAll reading.codes).map (target.reorder order)
  overlay
    (if terminates reading.status ∧ written.length < held.length then written ++ [target.unit 0]
      else written) held

/-- The units of a first code point stand in front of those of the others. -/
theorem filled_push (order : Order) (front : List target.Unit) (code size : Nat)
    (reading : Reading) (held : List target.Unit) :
    filled order front (push code size reading) held =
      filled order (front ++ (target.encode code).map (target.reorder order)) reading held := by
  simp only [filled, push, Encoding.encodeAll_cons, List.map_append, List.append_assoc]

/-- A reading that stops at once leaves the units that were written. -/
theorem filled_of_stops {status : Status} (ht : terminates status = false) (order : Order)
    (front held : List target.Unit) :
    filled order front ⟨status, [], 0⟩ held = overlay front held := by
  have hnone : (target.encodeAll []).map (target.reorder order) = [] := rfl
  simp only [filled, ht, hnone, List.append_nil, Bool.false_eq_true, false_and, if_false]

/-- A reading that ends at once leaves the units that were written, closed. -/
theorem close_eq {status : Status} (ht : terminates status = true) (order : Order) (n : Nat)
    (front : List target.Unit) {dest : Option (List target.Unit)}
    (hd : ∀ held ∈ dest, front.length ≤ held.length) :
    close status n front.length (dest.map (overlay front)) =
      ⟨⟨status, front.length, n⟩, dest.map (filled order front ⟨status, [], 0⟩)⟩ := by
  cases dest with
  | none => rfl
  | some held =>
    have hnone : (target.encodeAll []).map (target.reorder order) = [] := rfl
    have hlength := length_overlay (hd held rfl)
    simp only [close, filled, Option.map_some, hnone, List.append_nil, hlength, ht, true_and]
    split_ifs with hslot
    · rw [set_overlay _ hslot]
    · rfl

/-- There is too little room for a code point behind units that were written exactly when what is
left is smaller. -/
theorem any_overlay_iff (front : List target.Unit) (width : Nat) {dest : Option (List target.Unit)}
    (hd : ∀ held ∈ dest, front.length ≤ held.length) :
    ((dest.map (overlay front)).any fun held => held.length < front.length + width) = false ↔
      ∀ free, dest.map (·.length - front.length) = some free → width ≤ free := by
  cases dest with
  | none => simp
  | some held =>
    have hle := hd held rfl
    simp only [Option.map_some, Option.any_some, length_overlay hle, decide_eq_false_iff_not,
      Option.some.injEq, forall_eq']
    omega

/-- A conversion in place behind units that were written gives what the reading of the units from
its place up to the limit gives, with the room that is left. -/
theorem run_eq (p : Passage source target) {n : Nat} (hn : n ≤ p.limit)
    (front : List target.Unit) {dest : Option (List target.Unit)}
    (hd : ∀ held ∈ dest, front.length ≤ held.length) :
    let read := p.reading n (dest.map (·.length - front.length))
    p.run n front.length (dest.map (overlay front)) =
      ⟨⟨read.status, front.length + target.widthAll read.codes, n + read.size⟩,
        dest.map (filled p.targetOrder front read)⟩ := by
  -- Induction on what is left of the source; the written units grow with every step.
  induction hk : p.limit - n using Nat.strongRecOn generalizing n front with
  | ind k ih =>
    intro read
    rw [run]
    by_cases hopen : n < p.limit
    · rw [dif_pos hopen]
      by_cases hstops : (p.step n).stops p.refuseInvalid = true
      · have hread : read = _ := reading_of_stops hopen hstops _
        have hends : terminates (p.step n).stopStatus = false := by
          cases hcase : p.step n with
          | scalar code size => rw [hcase] at hstops; cases hstops
          | invalid size => rfl
          | truncated => rfl
        rw [dif_pos hstops, hread, funext (filled_of_stops hends p.targetOrder front)]
        rfl
      · have hgoes := Bool.eq_false_iff.mpr hstops
        obtain ⟨hmoves, hwithin⟩ := step_within hopen hgoes
        obtain ⟨code, hcode⟩ := exists_code?_of_not_stops hgoes
        have hread : read = _ := reading_of_not_stops hopen hgoes hcode _
        have hroom := any_overlay_iff front (target.width code) hd
        rw [dif_neg hstops, hcode, Option.getD_some]
        dsimp only
        by_cases hfits : ∀ free, dest.map (·.length - front.length) = some free →
            target.width code ≤ free
        · rw [if_pos hfits] at hread
          rw [if_neg (Bool.eq_false_iff.mp (hroom.mpr hfits))]
          let written := (target.encode code).map (target.reorder p.targetOrder)
          have hlength : (front ++ written).length = front.length + target.width code := by
            rw [List.length_append, List.length_map, Encoding.length_encode]
          have hmore : ∀ held ∈ dest, (front ++ written).length ≤ held.length := by
            intro held hheld
            have hle := hd held hheld
            have hwidth := hfits _ (by rw [Option.mem_def.mp hheld, Option.map_some])
            omega
          have hleft : dest.map (·.length - (front ++ written).length) =
              (dest.map (·.length - front.length)).map (· - target.width code) := by
            rw [Option.map_map, hlength]
            exact congrArg (Option.map · dest) (funext fun held => Nat.sub_add_eq _ _ _)
          have hlaid : (dest.map (overlay front)).map (overlayAt front.length written) =
              dest.map (overlay (front ++ written)) := by
            rw [Option.map_map]
            exact congrArg (Option.map · dest) (funext (overlayAt_overlay front written))
          have hlater := ih (p.limit - (n + (p.step n).size)) (by omega) hwithin
            (front ++ written) hmore rfl
          rw [hleft] at hlater
          rw [hlaid, ← hlength, hlater, hread, funext (filled_push p.targetOrder front code _ _)]
          simp only [push, Encoding.widthAll, hlength, Nat.add_assoc]
          rfl
        · rw [if_neg hfits] at hread
          rw [if_pos (Bool.of_not_eq_false (fun h => hfits (hroom.mp h))), hread,
            close_eq rfl p.targetOrder n front hd]
          rfl
    · have hread : read = _ := reading_of_end (Nat.not_lt.mp hopen) _
      rw [dif_neg hopen, hread, close_eq rfl p.targetOrder n front hd]
      rfl

/-- A conversion in place with nothing written yet fills its destination with its reading. -/
theorem run_of_start (p : Passage source target) {n : Nat} (hn : n ≤ p.limit)
    (dest : Option (List target.Unit)) :
    let read := p.reading n (dest.map List.length)
    p.run n 0 dest =
      ⟨⟨read.status, target.widthAll read.codes, n + read.size⟩,
        dest.map (fill p.targetOrder read)⟩ := by
  have hrun := p.run_eq hn [] fun held (_ : held ∈ dest) => Nat.zero_le _
  have hheld : dest.map (overlay []) = dest := by
    cases dest <;> rfl
  rw [hheld] at hrun
  simp only [List.length_nil, Nat.zero_add] at hrun
  exact hrun

end Passage

/-- Runs a conversion in place: nothing is cut off the source, and the units of the destination are
written one code point after the other. -/
def convertInPlace (r : Request source target) (dest : Option (List target.Unit)) :
    Converted target :=
  match r.units with
  | none => refuse .invalidArgument dest
  | some units =>
    match _limit : source.limitOf? r.length units with
    | none => refuse .invalidArgument dest
    | some limit =>
      let mark := source.markAt? units limit
      if mark.isSome ∧ r.strictness.forbidMark then refuse .markRejected dest
      else
        let p : Passage source target :=
          ⟨units, limit, Encoding.limitOf?_le _limit,
            r.sourceOrder.resolve (mark.bind (·.order)), r.targetOrder.resolve,
            r.strictness.refuseInvalid⟩
        p.run ((mark.map (·.size)).getD 0) 0 dest

/-- In place a conversion gives the counts and leaves the destination that it does on the units that
the length selects. -/
theorem convertInPlace_eq (r : Request source target) (dest : Option (List target.Unit)) :
    r.convertInPlace dest = r.convert dest := by
  unfold convertInPlace convert
  cases r.units with
  | none => rfl
  | some units =>
    dsimp only
    split
    · rename_i hlimit
      rw [Encoding.selectUnits_eq, hlimit]
      rfl
    · rename_i limit hlimit
      have hselected : selectUnits source r.length units = some (units.take limit) := by
        rw [Encoding.selectUnits_eq, hlimit]
        rfl
      rw [hselected, Encoding.markAt?_eq]
      dsimp only
      split_ifs with hmark
      · rfl
      · generalize hfound : source.markOf? (units.take limit) = mark
        have hstart : (mark.map (·.size)).getD 0 ≤ limit := by
          rw [← Encoding.markAt?_eq] at hfound
          cases mark with
          | none => exact Nat.zero_le _
          | some found => exact Encoding.size_markAt?_le hfound
        exact Passage.run_of_start
          ⟨units, limit, Encoding.limitOf?_le hlimit, r.sourceOrder.resolve (mark.bind (·.order)),
            r.targetOrder.resolve, r.strictness.refuseInvalid⟩ hstart dest

/-- Requests that differ in their units and in their length alone, and read the same units, convert
alike. -/
theorem convert_of_selected {r other : Request source target} {units : List source.Unit}
    (hr : r.selected = some units) (ho : other.selected = some units)
    (hw : r.sourceOrder = other.sourceOrder) (ht : r.targetOrder = other.targetOrder)
    (hs : r.strictness = other.strictness) (dest : Option (List target.Unit)) :
    r.convert dest = other.convert dest := by
  refine convert_congr ?_ hs ht dest
  rw [opening_of_selected hr, opening_of_selected ho, hw, hs]

/-- A length that counts the first units selects them. -/
theorem selectUnits_of_length {x : Double} {front : List source.Unit}
    (hx : x.toInt? = some (front.length : Int)) (rest : List source.Unit) :
    selectUnits source (some x) (front ++ rest) = some front := by
  have hsize : (0 : Int) ≤ front.length ∧ (front.length : Int) ≤ (front ++ rest).length := by
    rw [List.length_append]
    omega
  unfold selectUnits
  dsimp only
  rw [hx]
  dsimp only
  rw [if_neg (by omega), if_pos hsize, Int.toNat_natCast, List.take_left]

/-- A length of -1 selects the units in front of the first zero. -/
theorem selectUnits_of_terminated {x : Double} {front rest : List source.Unit}
    (hx : x.toInt? = some (-1)) (hf : ∀ u ∈ front, source.value u ≠ 0)
    (hr : ∀ u ∈ rest.head?, source.value u = 0) :
    selectUnits source (some x) (front ++ rest) = some front := by
  have hstop : (rest.takeWhile fun u => source.value u != 0) = [] := by
    cases rest with
    | nil => rfl
    | cons u more => rw [List.takeWhile_cons_of_neg (by simp [hr u rfl])]
  have hall : ∀ u ∈ front, (source.value u != 0) = true := by simpa using hf
  unfold selectUnits
  dsimp only
  rw [hx]
  dsimp only
  rw [if_pos rfl, List.takeWhile_append_of_pos hall, hstop, List.append_nil]

/-- Any other length that does not count first units selects nothing. -/
theorem selectUnits_of_unfit {x : Double} {units : List source.Unit} (hx : x.toInt? ≠ some (-1))
    (hn : ∀ n ≤ units.length, x.toInt? ≠ some (n : Int)) :
    selectUnits source (some x) units = none := by
  unfold selectUnits
  dsimp only
  cases hint : x.toInt? with
  | none => rfl
  | some n =>
    have hminus : n ≠ -1 := by
      rintro rfl
      exact hx hint
    have hwithin : ¬ (0 ≤ n ∧ n ≤ units.length) := by
      rintro ⟨hle, hlen⟩
      exact hn n.toNat (by omega) (by rw [hint, Int.toNat_of_nonneg hle])
    dsimp only
    rw [if_neg hminus, if_neg hwithin]

/-- A conversion of a source under a length that counts its first units is the conversion of these
units as a whole source: the status, both counts and the destination are the same, whatever stands
behind them and whether the source is cut or read in place. A length of -1 stands in the same way
for the units in front of the first zero, or for all of them when there is none. Under any other
number nothing is read, nothing is counted, and the destination stays as it was. -/
theorem convert_limit (r : Request source target) (x : Double) (front rest : List source.Unit)
    (dest : Option (List target.Unit)) :
    let limited : Request source target :=
      { r with units := some (front ++ rest), length := some x }
    let whole : Request source target := { r with units := some front, length := none }
    (x.toInt? = some (front.length : Int) ∨ x.toInt? = some (-1) ∧
          (∀ u ∈ front, source.value u ≠ 0) ∧ (∀ u ∈ rest.head?, source.value u = 0) →
        limited.convert dest = whole.convert dest ∧
          limited.convertInPlace dest = whole.convert dest) ∧
      (x.toInt? ≠ some (-1) → (∀ n ≤ (front ++ rest).length, x.toInt? ≠ some (n : Int)) →
        limited.convert dest = ⟨⟨.invalidArgument, 0, 0⟩, dest⟩ ∧
          limited.convertInPlace dest = ⟨⟨.invalidArgument, 0, 0⟩, dest⟩) := by
  intro limited whole
  rw [convertInPlace_eq]
  refine ⟨fun hx => ?_, fun hx hn => ?_⟩
  · have hselected : limited.selected = some front := by
      rcases hx with hcount | ⟨hminus, hf, hr⟩
      · exact selectUnits_of_length hcount rest
      · exact selectUnits_of_terminated hminus hf hr
    have hwhole : whole.selected = some front := rfl
    have hsame : limited.convert dest = whole.convert dest :=
      convert_of_selected hselected hwhole rfl rfl rfl dest
    exact ⟨hsame, hsame⟩
  · have hnone : limited.selected = none := selectUnits_of_unfit hx hn
    have hrefused : limited.convert dest = ⟨⟨.invalidArgument, 0, 0⟩, dest⟩ := by
      rw [convert_eq, opening_of_unselected hnone]
      rfl
    exact ⟨hrefused, hrefused⟩

/-- A limit between the halves of a pair, which cuts it off, a zero behind a letter, and a length
that is no whole number. -/
theorem convert_limit_pair :
    let pair (x : Double) : Request .utf16 .utf8 :=
      ⟨some [0x61, 0xD83D, 0xDE00], .native, .native, .lenient, some x⟩
    let ended (x : Double) : Request .utf16 .utf8 :=
      ⟨some [0x61, 0x00, 0x62], .native, .native, .lenient, some x⟩
    ((pair (.ofNat 2)).convertInPlace (some [1, 1, 1])).outcome = ⟨.invalidArgument, 1, 1⟩ ∧
      ((pair (.ofNat 2)).convertInPlace (some [1, 1, 1])).dest = some [0x61, 1, 1] ∧
      ((ended ⟨0xBFF0000000000000⟩).convertInPlace (some [1, 1, 1])).outcome = ⟨.success, 1, 1⟩ ∧
      ((ended ⟨0xBFF0000000000000⟩).convertInPlace (some [1, 1, 1])).dest = some [0x61, 0, 1] ∧
      (ended ⟨0x3FF8000000000000⟩).convertInPlace (some [1, 1, 1]) =
        ⟨⟨.invalidArgument, 0, 0⟩, some [1, 1, 1]⟩ := by
  intro pair ended
  have hpair := ((convert_limit (pair (.ofNat 2)) (.ofNat 2) [0x61, 0xD83D] [0xDE00]
    (some [1, 1, 1])).1 (.inl (by decide +kernel))).2
  have hended := ((convert_limit (ended ⟨0xBFF0000000000000⟩) ⟨0xBFF0000000000000⟩ [0x61]
    [0x00, 0x62] (some [1, 1, 1])).1
      (.inr ⟨by decide +kernel, List.forall_mem_singleton.mpr (by decide), by rintro _ ⟨⟩; rfl⟩)).2
  have hunfit := ((convert_limit (ended ⟨0x3FF8000000000000⟩) ⟨0x3FF8000000000000⟩ [0x61]
    [0x00, 0x62] (some [1, 1, 1])).2 (by decide +kernel) (by decide +kernel)).2
  exact ⟨(congrArg Converted.outcome hpair).trans (by decide +kernel),
    (congrArg Converted.dest hpair).trans (by decide +kernel),
    (congrArg Converted.outcome hended).trans (by decide +kernel),
    (congrArg Converted.dest hended).trans (by decide +kernel), hunfit⟩

end Request

end TextUnits
