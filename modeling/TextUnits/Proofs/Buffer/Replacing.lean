import TextUnits.Proofs.Buffer.Reachable
import TextUnits.Proofs.Lexer.InPlace
import TextUnits.Proofs.Sequence.Parts

/-!
# Replacing all occurrences

The occurrences of a sequence in a content are looked for in place, each behind the one before, and
counted. What they are to be replaced by tells then how many bytes are needed, and the parts between
the occurrences are copied, each with the replacement behind it, into just that many slots. All of
it fits: the slots hold the parts of the content with the replacement between them, and a buffer
whose room or limit allows it takes them as its content. Nothing that was put in is searched.
-/

namespace TextUnits.Buffer

open Sequence

variable {o : BufferOptions} {b : Buffer} {sought inserted content : List UInt8}
  {parts : List (List UInt8)} {n : Nat}

/-- The first place from a given one on where a sequence stands. -/
def place? (sought content : List UInt8) (n : Nat) : Option Nat :=
  (Lexer.View.mk content content.length).find? sought n

theorem place?_eq (sought : List UInt8) (hn : n ≤ content.length) :
    place? sought content n = (indexOf? sought (content.drop n)).map (n + ·) := by
  have hfits : (Lexer.View.mk content content.length).Fits := Nat.le_refl _
  have hbehind : (Lexer.View.mk content content.length).behind n = content.drop n := by
    rw [Lexer.View.behind, List.take_length]
  rw [place?, Lexer.View.find?_eq hfits sought hn, hbehind]

/-- A place that is found does not lie in front of the one that the search began at, and the
sequence ends there within the content. -/
theorem place?_within {place : Nat} (h : place? sought content n = some place) :
    n ≤ place ∧ place + sought.length ≤ content.length := by
  unfold place? at h
  induction n using Lexer.View.find?.induct (Lexer.View.mk content content.length) sought with
  | case1 n hfits hbegins =>
    rw [Lexer.View.find?, if_pos hfits, if_pos hbegins] at h
    cases h
    exact ⟨Nat.le_refl _, hfits⟩
  | case2 n hfits hbegins ih =>
    rw [Lexer.View.find?, if_pos hfits, if_neg hbegins] at h
    obtain ⟨hle, hwithin⟩ := ih h
    exact ⟨by omega, hwithin⟩
  | case3 n hfits =>
    rw [Lexer.View.find?, if_neg hfits] at h
    cases h

/-- The places of a sequence from a given one on, each looked for behind the one before. -/
def places (hne : sought ≠ []) (content : List UInt8) (n : Nat) : List Nat :=
  match _found : place? sought content n with
  | none => []
  | some place => place :: places hne content (place + sought.length)
termination_by content.length - n
decreasing_by
  have hwithin := place?_within _found
  have hpos := List.length_pos_iff.mpr hne
  omega

/-- Bytes written over those from a place on, if there are as many. -/
def put? (n : Nat) (written slots : List UInt8) : Option (List UInt8) :=
  if n + written.length ≤ slots.length then some (overwrite n written slots) else none

/-- Copies a content from the place `first` on into slots from the place `target` on, with other
bytes in the place of the `size` bytes at each of the given places. -/
def copied? (content inserted : List UInt8) (size first target : Nat) (slots : List UInt8) :
    List Nat → Option (List UInt8)
  | [] => put? target (content.drop first) slots
  | place :: later => do
    let slots ← put? target ((content.take place).drop first) slots
    let behind := target + (place - first)
    let slots ← put? behind inserted slots
    copied? content inserted size (place + size) (behind + inserted.length) slots later

/-- The content with the occurrences of a sequence replaced, copied into as many slots as are
counted to be needed. -/
def rebuilt? (hne : sought ≠ []) (inserted content : List UInt8) : Option (List UInt8) :=
  let found := places hne content 0
  let required : ℤ := content.length + found.length * ((inserted.length : ℤ) - sought.length)
  if required < 0 then none
  else copied? content inserted sought.length 0 0 (List.replicate required.toNat 0) found

/-- Bytes that fit behind others are put there. -/
theorem put?_append (front : List UInt8) {written stale : List UInt8}
    (h : written.length ≤ stale.length) :
    put? front.length written (front ++ stale) =
      some (front ++ written ++ stale.drop written.length) := by
  rw [put?, if_pos (by rw [List.length_append]; omega), overwrite_eq, List.take_left,
    List.drop_append, Nat.add_sub_cancel_left, List.drop_of_length_le (by omega), List.nil_append,
    List.append_assoc]

/-- Where a sequence does not occur it has no place. -/
theorem places_of_absent (hne : sought ≠ []) (hn : n ≤ content.length)
    (h : ¬ sought <:+: content.drop n) : places hne content n = [] := by
  have hplace := place?_eq sought hn
  rw [indexOf?_of_absent h] at hplace
  rw [places]
  split
  · rfl
  · rename_i place hfound
    rw [hplace] at hfound
    cases hfound

/-- The places of a sequence are the first one and those behind it. -/
theorem places_of_first (hne : sought ≠ []) {front rest : List UInt8} (hn : n ≤ content.length)
    (hcontent : content.drop n = front ++ (sought ++ rest))
    (h : ∀ m < front.length, ¬ sought <+: (front ++ (sought ++ rest)).drop m) :
    places hne content n =
      (n + front.length) :: places hne content (n + front.length + sought.length) := by
  have hplace := place?_eq sought hn
  rw [hcontent, indexOf?_of_first h] at hplace
  rw [places]
  split
  · rename_i hfound
    rw [hplace] at hfound
    cases hfound
  · rename_i place hfound
    rw [hplace] at hfound
    cases hfound
    rfl

/-- There is a place between each two parts. -/
theorem length_places (hne : sought ≠ []) (hn : n ≤ content.length)
    (h : Parted sought (content.drop n) parts) :
    (places hne content n).length + 1 = parts.length := by
  generalize hxs : content.drop n = xs at h
  induction h generalizing n with
  | last hnone =>
    rw [places_of_absent hne hn (hxs ▸ hnone)]
    rfl
  | @first front rest parts hfirst later ih =>
    have hlength := congrArg List.length hxs
    simp only [List.length_drop, List.length_append] at hlength
    have hbehind : content.drop (n + front.length + sought.length) = rest := by
      rw [← List.drop_drop, ← List.drop_drop, hxs, List.drop_left, List.drop_left]
    have hpos := List.length_pos_iff.mpr hne
    rw [places_of_first hne hn hxs hfirst, List.length_cons, List.length_cons,
      ih (by omega) hbehind]

/-- Copying the parts of a content behind what was copied before, into as many slots as they need
with the replacement between them, fills these slots with them. -/
theorem copied?_eq (hne : sought ≠ []) (hn : n ≤ content.length)
    (h : Parted sought (content.drop n) parts) (front : List UInt8) {stale : List UInt8}
    (hroom : stale.length = (inserted.intercalate parts).length) :
    copied? content inserted sought.length n front.length (front ++ stale)
      (places hne content n) = some (front ++ inserted.intercalate parts) := by
  generalize hxs : content.drop n = xs at h
  induction h generalizing n front stale with
  | last hnone =>
    rw [List.intercalate_singleton] at hroom ⊢
    rw [places_of_absent hne hn (hxs ▸ hnone), copied?, hxs,
      put?_append front (Nat.le_of_eq hroom.symm), List.drop_of_length_le (Nat.le_of_eq hroom),
      List.append_nil]
  | @first kept rest parts hfirst later ih =>
    have hlength := congrArg List.length hxs
    simp only [List.length_drop, List.length_append] at hlength
    have hbehind : content.drop (n + kept.length + sought.length) = rest := by
      rw [← List.drop_drop, ← List.drop_drop, hxs, List.drop_left, List.drop_left]
    have hkept : (content.take (n + kept.length)).drop n = kept := by
      rw [List.drop_take, hxs, Nat.add_sub_cancel_left, List.take_left]
    have hpos := List.length_pos_iff.mpr hne
    rw [List.intercalate_cons_of_ne_nil later.ne_nil, List.append_assoc] at hroom ⊢
    simp only [List.length_append] at hroom
    have hleft : ((stale.drop kept.length).drop inserted.length).length =
        (inserted.intercalate parts).length := by
      simp only [List.length_drop]
      omega
    have hlater := ih (by omega) (front ++ kept ++ inserted) hleft hbehind
    simp only [List.length_append, List.append_assoc] at hlater
    rw [places_of_first hne hn hxs hfirst, copied?, hkept, put?_append front (by omega)]
    simp only [Option.bind_eq_bind, Option.bind_some, Nat.add_sub_cancel_left]
    rw [← List.length_append, put?_append (front ++ kept) (by rw [List.length_drop]; omega)]
    simp only [Option.bind_some, List.length_append, List.append_assoc]
    rw [← Nat.add_assoc] at hlater
    exact hlater

/-- All that is to be copied fits, and it is the parts of the content with the replacement between
them. -/
theorem rebuilt?_eq (hne : sought ≠ []) (h : Parted sought content parts)
    (inserted : List UInt8) :
    rebuilt? hne inserted content = some (inserted.intercalate parts) := by
  have hcount := length_places hne (Nat.zero_le _) (n := 0) h
  have hlength := length_intercalate h.ne_nil sought inserted
  rw [h.intercalate_eq] at hlength
  have hfound : ((places hne content 0).length : ℤ) = parts.length - 1 := by omega
  unfold rebuilt?
  dsimp only
  rw [hfound, ← hlength, if_neg (by omega), Int.toNat_natCast]
  exact copied?_eq hne (Nat.zero_le _) (n := 0) h [] List.length_replicate

/-- Behind a part without an occurrence goes on what stands there. -/
theorem replaceIn_append {front rest : List UInt8}
    (h : ∀ m < front.length, ¬ sought <+: (front ++ rest).drop m) :
    replaceIn sought inserted (front ++ rest) = front ++ replaceIn sought inserted rest := by
  induction front with
  | nil => rfl
  | cons x front ih =>
    have hbegins : ¬ begins sought (x :: (front ++ rest)) = true := by
      rw [begins_iff]
      exact h 0 (Nat.succ_pos _)
    rw [List.cons_append, replaceIn, if_neg hbegins,
      ih fun m hm => h (m + 1) (Nat.succ_lt_succ hm), List.cons_append]

/-- An occurrence at the front is replaced. -/
theorem replaceIn_begins (hne : sought ≠ []) (rest : List UInt8) :
    replaceIn sought inserted (sought ++ rest) = inserted ++ replaceIn sought inserted rest := by
  cases sought with
  | nil => exact absurd rfl hne
  | cons x more =>
    have hbegins : begins (x :: more) (x :: (more ++ rest)) = true :=
      begins_iff.mpr (List.prefix_append (x :: more) rest)
    rw [List.cons_append, replaceIn, if_pos hbegins, List.length_cons, Nat.add_sub_cancel,
      List.drop_left]

/-- Bytes with the occurrences of a sequence replaced are its parts with the replacement between
them. -/
theorem replaceIn_eq (hne : sought ≠ []) (h : Parted sought content parts)
    (inserted : List UInt8) : replaceIn sought inserted content = inserted.intercalate parts := by
  induction h with
  | last hnone =>
    rw [replaceIn_of_indexOf?_eq_none (indexOf?_of_absent hnone), List.intercalate_singleton]
  | first hfirst later ih =>
    rw [replaceIn_append hfirst, replaceIn_begins hne, ih,
      List.intercalate_cons_of_ne_nil later.ne_nil, List.append_assoc]

/-- Let a query stand for bytes, at least one, and a replacement for others. The content has parts
between the occurrences of the query, taken from the left without overlap, and no other ones. With
the replacement between them they are what is counted and copied in place, without any byte that
would not fit, and differ in length from the content by the difference for every occurrence. When
the limit allows as many bytes, the operation succeeds and they are the content; and when the query
is replaced by itself, it always succeeds and the content stays as it was. -/
theorem Reachable.replaceAll_parts (h : Reachable o b) {query replacement : Input}
    (hq : b.bytesOf query = .ok sought) (hr : b.bytesOf replacement = .ok inserted)
    (hne : sought ≠ []) :
    ∃ parts, Parted sought b.content parts ∧
      (∀ other, Parted sought b.content other → other = parts) ∧
      sought.intercalate parts = b.content ∧
      rebuilt? hne inserted b.content = some (inserted.intercalate parts) ∧
      ((inserted.intercalate parts).length : ℤ) = b.content.length +
        ((parts.length : ℤ) - 1) * ((inserted.length : ℤ) - sought.length) ∧
      ((inserted.intercalate parts).length ≤ b.limit →
        ∃ changed, perform (.replaceAll query replacement) b = .ok () changed ∧
          changed.content = inserted.intercalate parts ∧
          changed.length = (inserted.intercalate parts).length) ∧
      (inserted = sought →
        ∃ changed, perform (.replaceAll query replacement) b = .ok () changed ∧
          changed.content = b.content) := by
  have hsound := h.soundFor.toSound
  obtain ⟨parts, hparts⟩ := exists_parted hne b.content
  have hwhole := hparts.intercalate_eq
  have hlength := length_intercalate hparts.ne_nil sought inserted
  have hedited : Operation.edited b (.replaceAll query replacement) =
      .ok (inserted.intercalate parts) := by
    rw [Operation.edited, hq, hr, ← replaceIn_eq hne hparts inserted]
    exact if_neg fun hempty => hne (List.isEmpty_iff.mp hempty)
  refine ⟨parts, hparts, fun other ho => hparts.unique ho, hwhole,
    rebuilt?_eq hne hparts inserted, hwhole ▸ hlength, fun hroom => ?_, ?_⟩
  · obtain ⟨changed, hperform, hholds⟩ :=
      exists_perform_of_room hsound hedited (Nat.le_trans hroom (Nat.le_max_right _ _))
    exact ⟨changed, hperform, hholds.content_eq, hholds.length_eq⟩
  · rintro rfl
    have hroom : b.content.length ≤ max b.capacity b.limit := by
      have hcontent := hsound.length_content
      have hle := hsound.length_le
      omega
    rw [hwhole] at hedited
    obtain ⟨changed, hperform, hholds⟩ := exists_perform_of_room hsound hedited hroom
    exact ⟨changed, hperform, hholds.content_eq⟩

/-- A query that overlaps itself, replaced by bytes that contain it. -/
theorem Reachable.replaceAll_parts_overlap :
    Reachable ⟨some (Double.ofNat 8), none⟩ ⟨[0x61, 0x61, 0x61, 0x61, 0x61], 5, 8, .default⟩ ∧
      ∃ changed, perform (.replaceAll (.text [0x61, 0x61]) (.bytes [0x61, 0x61, 0x62]))
          ⟨[0x61, 0x61, 0x61, 0x61, 0x61], 5, 8, .default⟩ = .ok () changed ∧
        changed.content = [0x61, 0x61, 0x62, 0x61, 0x61, 0x62, 0x61] ∧ changed.length = 7 := by
  have hreach : Reachable ⟨some (Double.ofNat 8), none⟩
      ⟨[0x61, 0x61, 0x61, 0x61, 0x61], 5, 8, .default⟩ :=
    .ofBytes [0x61, 0x61, 0x61, 0x61, 0x61] (eq_ok_of_toOption (by decide +kernel))
  have hparted : Parted [0x61, 0x61] (content ⟨[0x61, 0x61, 0x61, 0x61, 0x61], 5, 8, .default⟩)
      [[], [], [0x61]] :=
    @Parted.first _ _ [] [0x61, 0x61, 0x61] _ (by decide)
      (@Parted.first _ _ [] [0x61] _ (by decide) (.last (by decide)))
  have hquery : bytesOf ⟨[0x61, 0x61, 0x61, 0x61, 0x61], 5, 8, .default⟩ (.text [0x61, 0x61]) =
      .ok [0x61, 0x61] := eq_ok_of_toOption (by decide +kernel)
  have hreplacement : bytesOf ⟨[0x61, 0x61, 0x61, 0x61, 0x61], 5, 8, .default⟩
      (.bytes [0x61, 0x61, 0x62]) = .ok [0x61, 0x61, 0x62] := rfl
  obtain ⟨parts, -, hunique, -, -, -, hreplaced, -⟩ :=
    hreach.replaceAll_parts hquery hreplacement (List.cons_ne_nil _ _)
  cases hunique _ hparted
  exact ⟨hreach, hreplaced (by decide)⟩

end TextUnits.Buffer
