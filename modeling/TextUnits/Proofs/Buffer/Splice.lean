import TextUnits.Buffer.Basic
import Mathlib.Tactic.Common

/-!
# Replacing bytes in place

`Buffer.splice` works on all slots of a buffer: it may have to move them to larger room, it moves
the bytes behind the replaced ones to where they are to stand, over others that are still needed if
it were done byte by byte in the wrong order, and writes the new bytes between. Behind the string
stale bytes remain. The main statement says that none of this shows: the content becomes the one
with the bytes replaced, the room is what it was or what is needed, and a splice that would pass
the limit changes nothing at all.
-/

namespace TextUnits.Buffer

/-- The string lies within the slots, and they within the limit. -/
structure Sound (b : Buffer) : Prop where
  /-- The string has room. -/
  length_le : b.length ≤ b.capacity
  /-- The room does not pass the limit. -/
  capacity_le : b.capacity ≤ b.limit

/-- A buffer that came from another one by putting other bytes in the place of its content. -/
structure Holds (b : Buffer) (bytes : List UInt8) (changed : Buffer) : Prop where
  /-- The bytes are the content. -/
  content_eq : changed.content = bytes
  /-- They are counted. -/
  length_eq : changed.length = bytes.length
  /-- The room is the one from before, or else just what the bytes need. -/
  capacity_eq : changed.capacity = max b.capacity bytes.length
  /-- The limit is the one from before. -/
  limit_eq : changed.limit = b.limit
  /-- So are the separators. -/
  separators_eq : changed.separators = b.separators

/-- What an edit owes to a buffer whose content it is to replace by the given bytes: it does so when
they have room or may be given room, and otherwise it is refused and the buffer stays as it was. -/
def Edit.Gives (e : Edit) (b : Buffer) (bytes : List UInt8) : Prop :=
  if max b.capacity b.limit < bytes.length then
    e b = .error (.capacityExceeded bytes.length b.limit) b
  else ∃ changed, e b = .ok () changed ∧ Holds b bytes changed

variable {b changed : Buffer} {bytes : List UInt8}

/-- An action behind one that ended well goes on with what that one left. -/
theorem bind_of_ok {α β : Type} {first : EStateM Fault Buffer α} {next : α → EStateM Fault Buffer β}
    {a : α} (h : first b = .ok a changed) : (first >>= next) b = next a changed := by
  change EStateM.bind first next b = _
  rw [EStateM.bind, h]

/-- Behind a fault nothing is done. -/
theorem bind_of_error {α β : Type} {first : EStateM Fault Buffer α}
    {next : α → EStateM Fault Buffer β} {fault : Fault} (h : first b = .error fault changed) :
    (first >>= next) b = .error fault changed := by
  change EStateM.bind first next b = _
  rw [EStateM.bind, h]

/-- The content of a sound buffer is as long as it is counted. -/
theorem Sound.length_content (h : b.Sound) : b.content.length = b.length := by
  have hle := h.length_le
  rw [capacity] at hle
  rw [content, List.length_take, Nat.min_eq_left hle]

/-- A buffer with bytes that have room or may be given room is sound. -/
theorem Holds.sound (h : Holds b bytes changed) (hb : b.Sound)
    (hroom : ¬ max b.capacity b.limit < bytes.length) : changed.Sound := by
  have hlimit := hb.capacity_le
  constructor
  · rw [h.length_eq, h.capacity_eq]
    omega
  · rw [h.capacity_eq, h.limit_eq]
    omega

/-- Bytes written over others, which are in front of and behind them. -/
theorem overwrite_eq (offset : Nat) (written slots : List UInt8) :
    overwrite offset written slots =
      slots.take offset ++ (written ++ slots.drop (offset + written.length)) := by
  rw [overwrite, overlay, List.drop_drop]

/-- Bytes written over slots that are there take no more of them. -/
theorem length_overwrite {offset : Nat} {written slots : List UInt8}
    (h : offset + written.length ≤ slots.length) :
    (overwrite offset written slots).length = slots.length := by
  rw [overwrite_eq]
  simp only [List.length_append, List.length_take, List.length_drop]
  omega

/-- The bytes behind the replaced ones, moved behind the place for the new ones, stand there
unchanged when there is room, and nothing in front of that place is touched. -/
theorem moveWithin_eq (string stale : List UInt8) (target first : Nat)
    (hroom : target + (string.length - first) ≤ (string ++ stale).length) :
    moveWithin target first string.length (string ++ stale) =
      (string ++ stale).take target ++ (string.drop first ++
        (string ++ stale).drop (target + (string.length - first))) := by
  have hmoved : (((string ++ stale).take string.length).drop first).take
      ((string ++ stale).length - target) = string.drop first := by
    rw [List.take_left, List.take_of_length_le]
    rw [List.length_drop]
    omega
  rw [moveWithin, hmoved, overwrite_eq, List.length_drop]

/-- Moving the bytes behind the replaced ones and writing others over these puts the others in their
place. As many slots are left as there were. -/
theorem exists_splice_slots {string : List UInt8} (stale inserted : List UInt8)
    {offset removed : Nat}
    (hrange : offset + removed ≤ string.length)
    (hroom : string.length - removed + inserted.length ≤ (string ++ stale).length) :
    ∃ behind, overwrite offset inserted (moveWithin (offset + inserted.length) (offset + removed)
        string.length (string ++ stale)) =
      (string.take offset ++ inserted ++ string.drop (offset + removed)) ++ behind ∧
      (overwrite offset inserted (moveWithin (offset + inserted.length) (offset + removed)
        string.length (string ++ stale))).length = (string ++ stale).length := by
  have hmove :=
    moveWithin_eq string stale (offset + inserted.length) (offset + removed) (by omega)
  have htarget : ((string ++ stale).take (offset + inserted.length)).length =
      offset + inserted.length := by
    rw [List.length_take]
    omega
  have hlength : (moveWithin (offset + inserted.length) (offset + removed) string.length
      (string ++ stale)).length = (string ++ stale).length := by
    rw [hmove]
    simp only [List.length_append, List.length_take, List.length_drop]
    simp only [List.length_append] at hroom
    omega
  have hfront : (moveWithin (offset + inserted.length) (offset + removed) string.length
      (string ++ stale)).take offset = string.take offset := by
    rw [hmove, List.take_append_of_le_length (by omega), List.take_take,
      Nat.min_eq_left (by omega), List.take_append_of_le_length (by omega)]
  have hbehind : (moveWithin (offset + inserted.length) (offset + removed) string.length
      (string ++ stale)).drop (offset + inserted.length) = string.drop (offset + removed) ++
        (string ++ stale).drop
          (offset + inserted.length + (string.length - (offset + removed))) := by
    rw [hmove]
    exact List.drop_left' htarget
  refine ⟨(string ++ stale).drop (offset + inserted.length + (string.length - (offset + removed))),
    ?_, (length_overwrite (by omega)).trans hlength⟩
  rw [overwrite_eq, hfront, hbehind]
  simp only [List.append_assoc]

/-- Room is made exactly when there is none and the limit allows it. What it holds then starts with
the content. -/
theorem reserve_eq (hb : b.Sound) (required : Nat) :
    if max b.capacity b.limit < required then
      reserve required b = .error (.capacityExceeded required b.limit) b
    else ∃ stale, reserve required b = .ok () { b with slots := b.content ++ stale } ∧
      (b.content ++ stale).length = max b.capacity required := by
  have hlength := hb.length_le
  have hcontent := hb.length_content
  have hreserve : reserve required b =
      if required ≤ b.capacity then .ok () b
      else if b.limit < required then .error (.capacityExceeded required b.limit) b
      else .ok () { b with slots := overlay b.content (List.replicate required 0) } := by
    change (if required ≤ b.capacity then (pure () : Edit) else _) b = _
    split_ifs <;> rfl
  rw [hreserve]
  by_cases hfits : required ≤ b.capacity
  · rw [if_pos hfits, if_neg (by omega)]
    refine ⟨b.slots.drop b.length, ?_, ?_⟩
    · rw [content, List.take_append_drop]
    · rw [content, List.take_append_drop]
      exact (Nat.max_eq_left hfits).symm
  · by_cases hpassed : b.limit < required
    · rw [if_neg hfits, if_pos hpassed, if_pos (by omega)]
    · rw [if_neg hfits, if_neg hpassed, if_neg (by omega)]
      refine ⟨(List.replicate required 0).drop b.content.length, rfl, ?_⟩
      rw [List.length_append, List.length_drop, List.length_replicate, hcontent]
      omega

/-- A splice puts bytes in the place of others, or is refused because they have no room, and then
the buffer stays as it was. -/
theorem splice_gives (hb : b.Sound) (offset removed : Nat) (inserted : List UInt8)
    (hrange : offset + removed ≤ b.length) :
    (splice offset removed inserted).Gives b
      (b.content.take offset ++ inserted ++ b.content.drop (offset + removed)) := by
  have hcontent := hb.length_content
  have hrequired : (b.content.take offset ++ inserted ++ b.content.drop (offset + removed)).length =
      b.length - removed + inserted.length := by
    simp only [List.length_append, List.length_take, List.length_drop]
    omega
  have hreserve := reserve_eq hb (b.length - removed + inserted.length)
  unfold Edit.Gives
  rw [hrequired]
  by_cases hexceeded : max b.capacity b.limit < b.length - removed + inserted.length
  · rw [if_pos hexceeded] at hreserve ⊢
    exact (bind_of_ok rfl).trans (bind_of_error hreserve)
  · rw [if_neg hexceeded] at hreserve ⊢
    obtain ⟨stale, hr, hroom⟩ := hreserve
    obtain ⟨behind, hslots, hkept⟩ :=
      exists_splice_slots stale inserted (hcontent.symm ▸ hrange) (by rw [hcontent]; omega)
    rw [hcontent] at hslots hkept
    refine ⟨_, (bind_of_ok rfl).trans (bind_of_ok hr), ?_, hrequired.symm, ?_, rfl, rfl⟩
    · exact (congrArg (List.take _) hslots).trans (List.take_left' hrequired)
    · exact hkept.trans (hroom.trans (by rw [hrequired]))

end TextUnits.Buffer
