import TextUnits.Encoding.Mark
import TextUnits.Proofs.Encoding.RoundTrip

/-!
# Decoding in place

A source need not be cut to the units that are to be read: a decoder can be given all of it, a place
and a limit. It then looks at units wherever they stand and has to mind the limit itself, in another
way for each encoding: by the length that a lead byte announces, by the place of the second half of
a pair, or not at all where a code point is one unit. The main statements say that a decoder and a
test for a byte order mark that read in place find what stands in the units up to the limit.
-/

namespace TextUnits.Encoding

/-- The code point at a place of UTF-8 text of which only the bytes in front of a limit are to be
read. The bytes behind a lead are read wherever the limit is, once their number is known to fit. -/
def decodeUtf8At (bytes : List UInt8) (limit n : Nat) : Step :=
  match bytes[n]? with
  | none => .truncated
  | some b =>
    let lead := b.toNat
    if lead < 0x80 then .scalar lead 1
    else if Scalar.isForbiddenOctet lead then .invalid 1
    else
      match leadSize? lead with
      | none => .invalid 1
      | some size =>
        if limit < n + size then .truncated
        else
          let tail := (bytes.drop (n + 1)).take (size - 1)
          if tail.all (fun c => Scalar.isContinuation c.toNat) then
            let code := assemble lead tail
            if Scalar.isScalar code then .scalar code size else .invalid size
          else .invalid 1

/-- The code point at a place of UTF-16 text, stored in `order`, of which only the units in front of
a limit are to be read. -/
def decodeUtf16At (order : Order) (units : List UInt16) (limit n : Nat) : Step :=
  match units[n]? with
  | none => .truncated
  | some u =>
    let first := (utf16.reorder order u).toNat
    if !Scalar.isSurrogate first then .scalar first 1
    else if Scalar.isLowSurrogate first then .invalid 1
    else if limit ≤ n + 1 then .truncated
    else
      match units[n + 1]? with
      | none => .truncated
      | some v =>
        let second := (utf16.reorder order v).toNat
        if Scalar.isLowSurrogate second then .scalar (Scalar.joinPair first second) 2
        else .invalid 1

/-- The code point at a place of UTF-32 text, stored in `order`. -/
def decodeUtf32At (order : Order) (units : List UInt32) (n : Nat) : Step :=
  match units[n]? with
  | none => .truncated
  | some u =>
    let code := (utf32.reorder order u).toNat
    if Scalar.isScalar code then .scalar code 1 else .invalid 1

/-- The code point at a place of units stored in `order`, of which only those in front of a limit
are to be read. -/
def decodeAt : (e : Encoding) → Order → List e.Unit → Nat → Nat → Step
  | utf8, _, units, limit, n => decodeUtf8At units limit n
  | utf16, order, units, limit, n => decodeUtf16At order units limit n
  | utf32, order, units, _, n => decodeUtf32At order units n

/-- The mark at the start of a source of which only the units in front of a limit are to be read.
The three bytes of UTF-8, and the unit of a wider encoding, are looked at when that many are to be
read. -/
def markAt? : (e : Encoding) → List e.Unit → Nat → Option Found
  | utf8, units, limit =>
    if 3 ≤ limit ∧ units[0]? = some (0xEF : UInt8) ∧ units[1]? = some (0xBB : UInt8) ∧
        units[2]? = some (0xBF : UInt8) then
      some ⟨3, none⟩
    else none
  | utf16, units, limit =>
    if 1 ≤ limit then units[0]?.bind fun u => (orderShown utf16 u).map fun o => ⟨1, some o⟩
    else none
  | utf32, units, limit =>
    if 1 ≤ limit then units[0]?.bind fun u => (orderShown utf32 u).map fun o => ⟨1, some o⟩
    else none

section Limits

variable {α : Type} {units : List α} {limit n : Nat}

/-- In front of the limit stands the unit of the source. -/
theorem exists_front_of_lt (hl : limit ≤ units.length) (hn : n < limit) :
    ∃ u, units[n]? = some u ∧ (units.take limit).drop n = u :: (units.take limit).drop (n + 1) := by
  have hsource : n < units.length := by omega
  have hlt : n < (units.take limit).length := by
    rw [List.length_take]
    omega
  refine ⟨units[n], List.getElem?_eq_getElem hsource, ?_⟩
  rw [List.drop_eq_getElem_cons hlt, List.getElem_take]

/-- How many units stand between a place and the limit. -/
theorem length_drop_take (hl : limit ≤ units.length) (n : Nat) :
    ((units.take limit).drop n).length = limit - n := by
  rw [List.length_drop, List.length_take, Nat.min_eq_left hl]

/-- Units that end in front of the limit are the same with and without it. -/
theorem take_drop_take {count : Nat} (h : n + count ≤ limit) :
    ((units.take limit).drop n).take count = (units.drop n).take count := by
  rw [List.drop_take, List.take_take, Nat.min_eq_left (by omega)]

end Limits

variable {limit n : Nat}

/-- UTF-8 read in place is that of the bytes from the place up to the limit. -/
theorem decodeUtf8At_eq {bytes : List UInt8} (hl : limit ≤ bytes.length) (hn : n < limit) :
    decodeUtf8At bytes limit n = decodeUtf8 ((bytes.take limit).drop n) := by
  obtain ⟨b, hb, hfront⟩ := exists_front_of_lt hl hn
  have hlength := length_drop_take hl (n + 1)
  rw [hfront]
  unfold decodeUtf8At decodeUtf8
  rw [hb]
  dsimp only
  congr 2
  cases hlead : leadSize? b.toNat with
  | none => rfl
  | some size =>
    obtain ⟨htwo, -⟩ := size_of_leadSize? hlead
    have hcut : (((bytes.take limit).drop (n + 1)).take (size - 1)).length < size - 1 ↔
        limit < n + size := by
      rw [List.length_take, hlength]
      omega
    dsimp only
    by_cases h : limit < n + size
    · rw [if_pos h, if_pos (hcut.mpr h)]
    · rw [if_neg h, if_neg (fun hlt => h (hcut.mp hlt)), take_drop_take (by omega)]

/-- UTF-16 read in place is that of the words from the place up to the limit. -/
theorem decodeUtf16At_eq {units : List UInt16} (order : Order) (hl : limit ≤ units.length)
    (hn : n < limit) :
    decodeUtf16At order units limit n =
      decodeUtf16 (((units.take limit).drop n).map (utf16.reorder order)) := by
  obtain ⟨u, hu, hfront⟩ := exists_front_of_lt hl hn
  rw [hfront, List.map_cons]
  unfold decodeUtf16At decodeUtf16
  rw [hu]
  dsimp only
  congr 2
  by_cases hlast : limit ≤ n + 1
  · have hend : (units.take limit).drop (n + 1) = [] := by
      rw [List.drop_eq_nil_iff, List.length_take]
      omega
    rw [if_pos hlast, hend]
    rfl
  · obtain ⟨v, hv, hsecond⟩ := exists_front_of_lt hl (Nat.not_le.mp hlast)
    rw [if_neg hlast, hv, hsecond]
    rfl

/-- UTF-32 read in place is that of the words from the place up to the limit. -/
theorem decodeUtf32At_eq {units : List UInt32} (order : Order) (hl : limit ≤ units.length)
    (hn : n < limit) :
    decodeUtf32At order units n =
      decodeUtf32 (((units.take limit).drop n).map (utf32.reorder order)) := by
  obtain ⟨u, hu, hfront⟩ := exists_front_of_lt hl hn
  rw [hfront, List.map_cons, decodeUtf32At, hu]
  rfl

/-- A code point read in place is the one at the front of the units from the place up to the limit,
in the order of the host. -/
theorem decodeAt_eq (e : Encoding) (order : Order) {units : List e.Unit}
    (hl : limit ≤ units.length) (hn : n < limit) :
    e.decodeAt order units limit n =
      e.decode (((units.take limit).drop n).map (e.reorder order)) := by
  cases e with
  | utf8 =>
    rw [map_reorder_utf8]
    exact decodeUtf8At_eq hl hn
  | utf16 => exact decodeUtf16At_eq order hl hn
  | utf32 => exact decodeUtf32At_eq order hl hn

/-- UTF-8 text starts with the mark where its first three bytes do. -/
theorem startsWithMark_iff (bytes : List UInt8) :
    startsWithMark bytes = true ↔
      bytes[0]? = some 0xEF ∧ bytes[1]? = some 0xBB ∧ bytes[2]? = some 0xBF := by
  rcases bytes with _ | ⟨a, _ | ⟨b, _ | ⟨c, rest⟩⟩⟩ <;> simp [startsWithMark, and_assoc]

/-- A mark looked for in place is the one at the start of the units up to the limit. -/
theorem markAt?_eq (e : Encoding) {units : List e.Unit} (limit : Nat) :
    e.markAt? units limit = e.markOf? (units.take limit) := by
  have hfirst : ∀ {β : Type} (f : e.Unit → Option β),
      (if 1 ≤ limit then units[0]?.bind f else none) = (units.take limit).head?.bind f := by
    intro β f
    rw [List.head?_eq_getElem?, List.getElem?_take]
    by_cases h : 1 ≤ limit
    · rw [if_pos h, if_pos (by omega)]
    · rw [if_neg h, if_neg (by omega), Option.bind_none]
  cases e with
  | utf8 =>
    unfold markAt? markOf?
    refine if_congr ?_ rfl rfl
    rw [startsWithMark_iff, List.getElem?_take, List.getElem?_take, List.getElem?_take]
    by_cases h : 3 ≤ limit
    · rw [if_pos (by omega), if_pos (by omega), if_pos (by omega)]
      exact and_iff_right h
    · rw [if_neg (show ¬ 2 < limit by omega)]
      exact iff_of_false (fun hm => h hm.1) (fun hm => nomatch hm.2.2)
  | utf16 => exact hfirst _
  | utf32 => exact hfirst _

/-- A mark found in place ends in front of the limit. -/
theorem size_markAt?_le {e : Encoding} {units : List e.Unit} {found : Found}
    (h : e.markAt? units limit = some found) : found.size ≤ limit := by
  have hone : ∀ {β : Type} {o : Option β} {f : β → Option Order},
      (if 1 ≤ limit then o.bind fun u => (f u).map fun order => ⟨1, some order⟩ else none) =
        some found → found.size ≤ limit := by
    intro β o f h
    split_ifs at h with hlimit
    obtain ⟨u, -, hu⟩ := Option.bind_eq_some_iff.mp h
    obtain ⟨order, -, rfl⟩ := Option.map_eq_some_iff.mp hu
    exact hlimit
  cases e with
  | utf8 =>
    simp only [markAt?] at h
    split_ifs at h with hbytes
    cases h
    exact hbytes.1
  | utf16 => exact hone h
  | utf32 => exact hone h

end TextUnits.Encoding
