import TextUnits.Proofs.Buffer.Reachable
import TextUnits.Proofs.Text.Characters

/-!
# Texts put into a buffer

A buffer holds bytes, but it takes texts and shows a text. What it shows of encoded characters are
these characters, wherever in the content they stand. What it takes of a text are its characters
without a byte order mark in front. So texts can be put behind one another, and are shown as they
were given, exactly as long as none of them starts like a mark.
-/

namespace TextUnits.Buffer

open Text

variable {o : BufferOptions} {b : Buffer} {operation : Operation} {s t : Text}
  {held given chars : List Char}

/-- Characters whose bytes the buffer may have room for. -/
def Allows (b : Buffer) (chars : List Char) : Prop :=
  (chars.flatMap String.utf8EncodeChar).length ≤ b.limit

/-- An operation that ends well and leaves a buffer that shows the text. -/
def Shows (operation : Operation) (b : Buffer) (t : Text) : Prop :=
  ∃ changed, perform operation b = .ok () changed ∧ changed.text = t

/-- A buffer shows the characters that its content encodes. -/
theorem text_of_content (h : b.content = chars.flatMap String.utf8EncodeChar) :
    b.text = chars.flatMap unitsOfChar := by
  rw [text, h, ← encodeAll_utf8_toNat, ← encodeAll_utf16_toNat]
  exact ofBytes_encodeAll fun _ => Encoding.isScalar_of_mem_map

/-- What a buffer shows behind an operation is determined. -/
theorem Shows.iff_eq (h : Shows operation b s) : Shows operation b t ↔ s = t := by
  obtain ⟨changed, hperform, htext⟩ := h
  constructor
  · rintro ⟨other, hother, rfl⟩
    rw [hperform] at hother
    cases hother
    exact htext.symm
  · rintro rfl
    exact ⟨changed, hperform, htext⟩

/-- An operation that is to make bytes of characters ends well if they may be given room, and then
the buffer shows the characters. -/
theorem shows_of_edited (hb : b.Sound)
    (hedited : operation.edited b = .ok (chars.flatMap String.utf8EncodeChar))
    (hroom : b.Allows chars) : Shows operation b (chars.flatMap unitsOfChar) := by
  have hmax : (chars.flatMap String.utf8EncodeChar).length ≤ max b.capacity b.limit :=
    Nat.le_trans hroom (Nat.le_max_right _ _)
  obtain ⟨changed, hperform, hholds⟩ := exists_perform_of_room hb hedited hmax
  exact ⟨changed, hperform, text_of_content hholds.content_eq⟩

/-- A buffer takes the characters of a text but for a mark in front. -/
theorem bytesOf_text (h : chars? t = some given) :
    b.bytesOf (.text t) = .ok ((behindMark given).flatMap String.utf8EncodeChar) := by
  rw [chars?_eq_some_iff.mp h]
  exact toUtf8_chars given

/-- Nothing of a text is left out exactly when it does not start like a mark. -/
theorem behindMark_units_eq_iff (h : chars? t = some given) :
    (behindMark given).flatMap unitsOfChar = t ↔
      ¬ (t.head? = some 0xFEFF ∨ t.head? = some 0xFFFE) := by
  rw [chars?_eq_some_iff.mp h, flatMap_unitsOfChar_inj, behindMark_eq_self_iff,
    ← startsLikeMark_iff, Bool.not_eq_true]

/-- Let a buffer hold the bytes of a text, and be given another one. Appending puts the other one
behind the first, prepending in front of it, and setting in its place, if the bytes may be given
room; but what is put there is without the mark that the other one may start with. So the buffer
shows the two texts together, or the other one, exactly when that does not start like a mark. -/
theorem Reachable.shows_text (h : Reachable o b) (hs : chars? s = some held)
    (ht : chars? t = some given) (hheld : b.content = held.flatMap String.utf8EncodeChar) :
    (b.Allows (held ++ behindMark given) →
      Shows (.append (.text t)) b (s ++ (behindMark given).flatMap unitsOfChar) ∧
      (Shows (.append (.text t)) b (s ++ t) ↔
        ¬ (t.head? = some 0xFEFF ∨ t.head? = some 0xFFFE))) ∧
    (b.Allows (behindMark given ++ held) →
      Shows (.prepend (.text t)) b ((behindMark given).flatMap unitsOfChar ++ s) ∧
      (Shows (.prepend (.text t)) b (t ++ s) ↔
        ¬ (t.head? = some 0xFEFF ∨ t.head? = some 0xFFFE))) ∧
    (b.Allows (behindMark given) →
      Shows (.set (.text t)) b ((behindMark given).flatMap unitsOfChar) ∧
      (Shows (.set (.text t)) b t ↔
        ¬ (t.head? = some 0xFEFF ∨ t.head? = some 0xFFFE))) := by
  have hsound := h.soundFor.toSound
  have hbytes := bytesOf_text (b := b) ht
  have hwhole := behindMark_units_eq_iff ht
  have hunits := chars?_eq_some_iff.mp hs
  refine ⟨fun hroom => ?_, fun hroom => ?_, fun hroom => ?_⟩
  · have hedited : (Operation.append (.text t)).edited b =
        .ok ((held ++ behindMark given).flatMap String.utf8EncodeChar) := by
      rw [Operation.edited, hbytes, hheld, List.flatMap_append]
      rfl
    have hshows := shows_of_edited hsound hedited hroom
    rw [List.flatMap_append, ← hunits] at hshows
    exact ⟨hshows, hshows.iff_eq.trans ((List.append_right_inj s).trans hwhole)⟩
  · have hedited : (Operation.prepend (.text t)).edited b =
        .ok ((behindMark given ++ held).flatMap String.utf8EncodeChar) := by
      rw [Operation.edited, hbytes, hheld, List.flatMap_append]
      rfl
    have hshows := shows_of_edited hsound hedited hroom
    rw [List.flatMap_append, ← hunits] at hshows
    exact ⟨hshows, hshows.iff_eq.trans ((List.append_left_inj s).trans hwhole)⟩
  · have hshows : Shows (.set (.text t)) b _ := shows_of_edited hsound hbytes hroom
    exact ⟨hshows, hshows.iff_eq.trans hwhole⟩

/-- A character of two halves is put on either side of a letter, and in its place. -/
theorem Reachable.shows_text_pair :
    Reachable ⟨some (Double.ofNat 16), none⟩ ⟨[0x61], 1, 16, .default⟩ ∧
      Shows (.append (.text [0xD83D, 0xDE00])) ⟨[0x61], 1, 16, .default⟩ [0x61, 0xD83D, 0xDE00] ∧
      Shows (.prepend (.text [0xD83D, 0xDE00])) ⟨[0x61], 1, 16, .default⟩ [0xD83D, 0xDE00, 0x61] ∧
      Shows (.set (.text [0xD83D, 0xDE00])) ⟨[0x61], 1, 16, .default⟩ [0xD83D, 0xDE00] := by
  have hreach : Reachable ⟨some (Double.ofNat 16), none⟩ ⟨[0x61], 1, 16, .default⟩ :=
    .ofBytes [0x61] (eq_ok_of_toOption (by decide +kernel))
  have hs : chars? [0x61] = some ['a'] := by decide
  have ht : chars? [0xD83D, 0xDE00] = some ['😀'] := by decide
  obtain ⟨happend, hprepend, hset⟩ := hreach.shows_text hs ht (by decide)
  exact ⟨hreach, (happend (by unfold Allows; decide)).2.mpr (by decide),
    (hprepend (by unfold Allows; decide)).2.mpr (by decide),
    (hset (by unfold Allows; decide)).2.mpr (by decide)⟩

/-- A text that starts with the mark loses it behind a letter, although there is room for it. -/
theorem Reachable.not_shows_mark :
    Reachable ⟨some (Double.ofNat 16), none⟩ ⟨[0x61], 1, 16, .default⟩ ∧
      chars? [0x61] = some ['a'] ∧ chars? [0xFEFF, 0x78] = some ['\uFEFF', 'x'] ∧
      content ⟨[0x61], 1, 16, .default⟩ = ['a'].flatMap String.utf8EncodeChar ∧
      Allows ⟨[0x61], 1, 16, .default⟩ (['a'] ++ ['\uFEFF', 'x']) ∧
      ¬ Shows (.append (.text [0xFEFF, 0x78])) ⟨[0x61], 1, 16, .default⟩
        ([0x61] ++ [0xFEFF, 0x78]) := by
  have hreach : Reachable ⟨some (Double.ofNat 16), none⟩ ⟨[0x61], 1, 16, .default⟩ :=
    .ofBytes [0x61] (eq_ok_of_toOption (by decide +kernel))
  have hperform : perform (.append (.text [0xFEFF, 0x78])) ⟨[0x61], 1, 16, .default⟩ =
      .ok () ⟨[0x61, 0x78], 2, 16, .default⟩ := by with_unfolding_all rfl
  have hshows : Shows (.append (.text [0xFEFF, 0x78])) ⟨[0x61], 1, 16, .default⟩ [0x61, 0x78] :=
    ⟨_, hperform, text_of_content (by decide : _ = ['a', 'x'].flatMap String.utf8EncodeChar)⟩
  refine ⟨hreach, by decide, by decide, by decide, by unfold Allows; decide, ?_⟩
  rw [hshows.iff_eq]
  decide

end TextUnits.Buffer
