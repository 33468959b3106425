import TextUnits.Proofs.Buffer.Edits
import TextUnits.Proofs.Format.Faults
import TextUnits.Proofs.Number.Exact
import TextUnits.Proofs.Transcode.Whole

/-!
# Buffers that can come about

A buffer is made empty, from bytes, from a text or by formatting, and then changed by operations,
each of which may also fail. All such buffers are sound, so what was shown of one operation on a
sound buffer holds at every point of every row of operations.
-/

namespace TextUnits

/-- The limit that options ask for, if it is one. -/
def BufferOptions.limit? (o : BufferOptions) : Option Nat :=
  sizeOf? (o.limit.getD (Double.ofNat Double.maxSafe))

/-- Options that set no limit ask for the highest one. -/
theorem BufferOptions.limit?_default : BufferOptions.default.limit? = some Double.maxSafe := by
  rw [limit?, default, Option.getD_none, sizeOf?_ofNat (Nat.le_refl _)]

/-- A fault that is no refusal for want of room. -/
def Fault.AsksNoRoom (fault : Fault) : Prop :=
  ∀ required most, fault ≠ .capacityExceeded required most

namespace Buffer

/-- The buffer as an operation leaves it, whether it fails or not. -/
def after (operation : Operation) (b : Buffer) : Buffer :=
  match perform operation b with
  | .ok _ changed => changed
  | .error _ left => left

/-- Buffers that come about from the given options. -/
inductive Reachable (o : BufferOptions) : Buffer → Prop where
  /-- Made empty. -/
  | withCapacity {capacity : Double} {b : Buffer}
    (h : Buffer.withCapacity capacity o = .ok b) : Reachable o b
  /-- Made from bytes. -/
  | ofBytes (bytes : List UInt8) {b : Buffer} (h : Buffer.ofBytes bytes o = .ok b) : Reachable o b
  /-- Made from a text. -/
  | ofText {t : Text} {b : Buffer} (h : Buffer.ofText t o = .ok b) : Reachable o b
  /-- Made from the first bytes of a sequence. -/
  | ofSpan {bytes : List UInt8} {length : Double} {b : Buffer}
    (h : Buffer.ofSpan bytes length o = .ok b) : Reachable o b
  /-- Made by formatting. -/
  | ofFormat {fmt : Text} {args : List Format.Argument} {b : Buffer}
    (h : Buffer.ofFormat fmt args o = .ok b) : Reachable o b
  /-- Left by an operation. -/
  | after {b : Buffer} (h : Reachable o b) (operation : Operation) :
    Reachable o (after operation b)

variable {α β : Type} {o : BufferOptions} {b changed left : Buffer} {operation : Operation}
  {fault : Fault}

/-- A sound buffer whose limit is the one that its options ask for. -/
structure SoundFor (o : BufferOptions) (b : Buffer) : Prop extends b.Sound where
  /-- The limit is the one of the options. -/
  limit_eq : o.limit? = some b.limit

/-- An operation without bytes to make fails as these do. -/
theorem perform_of_failed (hb : b.Sound) (h : operation.edited b = .error fault) :
    perform operation b = .error fault b := by
  have hfollows := perform_follows hb operation
  rwa [h] at hfollows

/-- An operation whose bytes have no room and may be given none is refused. -/
theorem perform_of_passed {bytes : List UInt8} (hb : b.Sound)
    (h : operation.edited b = .ok bytes) (hpassed : max b.capacity b.limit < bytes.length) :
    perform operation b = .error (.capacityExceeded bytes.length b.limit) b := by
  have hfollows := perform_follows hb operation
  rw [h] at hfollows
  unfold Edit.Follows Edit.Gives at hfollows
  dsimp only at hfollows
  rwa [if_pos hpassed] at hfollows

/-- An operation whose bytes have room or may be given room makes them the content. -/
theorem exists_perform_of_room {bytes : List UInt8} (hb : b.Sound)
    (h : operation.edited b = .ok bytes) (hroom : bytes.length ≤ max b.capacity b.limit) :
    ∃ changed, perform operation b = .ok () changed ∧ Holds b bytes changed := by
  have hfollows := perform_follows hb operation
  rw [h] at hfollows
  unfold Edit.Follows Edit.Gives at hfollows
  dsimp only at hfollows
  rwa [if_neg (Nat.not_lt.mpr hroom)] at hfollows

/-- What a successful operation leaves holds the bytes that it was to make, and these have room. -/
theorem holds_of_perform_ok (operation : Operation) (hb : b.Sound)
    (h : perform operation b = .ok () changed) :
    ∃ bytes, operation.edited b = .ok bytes ∧ Holds b bytes changed ∧
      bytes.length ≤ max b.capacity b.limit := by
  cases hedited : operation.edited b with
  | error fault => cases (perform_of_failed hb hedited).symm.trans h
  | ok bytes =>
    by_cases hroom : bytes.length ≤ max b.capacity b.limit
    · obtain ⟨made, hmade, hholds⟩ := exists_perform_of_room hb hedited hroom
      cases hmade.symm.trans h
      exact ⟨bytes, rfl, hholds, hroom⟩
    · cases (perform_of_passed hb hedited (Nat.not_le.mp hroom)).symm.trans h

/-- A failed operation leaves the buffer as it was. It fails as the bytes it was to make do, or is
refused because these have no room. -/
theorem left_eq_of_perform_error (hb : b.Sound) (h : perform operation b = .error fault left) :
    left = b ∧ (operation.edited b = .error fault ∨ ∃ bytes, operation.edited b = .ok bytes ∧
      max b.capacity b.limit < bytes.length) := by
  cases hedited : operation.edited b with
  | error other =>
    cases (perform_of_failed hb hedited).symm.trans h
    exact ⟨rfl, .inl rfl⟩
  | ok bytes =>
    by_cases hroom : bytes.length ≤ max b.capacity b.limit
    · obtain ⟨made, hmade, _⟩ := exists_perform_of_room hb hedited hroom
      cases hmade.symm.trans h
    · have hpassed := Nat.not_le.mp hroom
      cases (perform_of_passed hb hedited hpassed).symm.trans h
      exact ⟨rfl, .inr ⟨bytes, rfl, hpassed⟩⟩

/-- A result behind another one is made from it. -/
theorem exists_of_bind_ok {x : Except Fault α} {next : α → Except Fault β} {result : β}
    (h : (do let a ← x; next a) = .ok result) : ∃ a, x = .ok a ∧ next a = .ok result := by
  cases x with
  | error fault => cases h
  | ok a => exact ⟨a, rfl, h⟩

theorem soundFor_of_withCapacity {capacity : Double} (h : withCapacity capacity o = .ok b) :
    SoundFor o b := by
  unfold withCapacity at h
  dsimp only at h
  split at h
  · cases h
  · split at h
    · cases h
    · rename_i hmost
      split_ifs at h with hroom
      cases h
      exact ⟨⟨Nat.zero_le _, Nat.le_trans (Nat.le_of_eq List.length_replicate)
        (Nat.not_lt.mp hroom)⟩, hmost⟩

theorem soundFor_of_ofBytes {bytes : List UInt8} (h : ofBytes bytes o = .ok b) :
    SoundFor o b := by
  obtain ⟨made, hmade, hset⟩ := exists_of_bind_ok h
  have hsound := soundFor_of_withCapacity hmade
  unfold Edit.result at hset
  split at hset
  · rename_i changed hperform
    cases hset
    obtain ⟨written, _, hholds, hroom⟩ :=
      holds_of_perform_ok (.set (.bytes bytes)) hsound.toSound hperform
    exact ⟨hholds.sound hsound.toSound (Nat.not_lt.mpr hroom),
      hsound.limit_eq.trans (congrArg some hholds.limit_eq.symm)⟩
  · cases hset

/-- Bytes that the limit has room for are made a buffer with just their room. -/
theorem exists_ofBytes {bytes : List UInt8} {most : Nat} (hm : o.limit? = some most)
    (h : bytes.length ≤ most) :
    ∃ b, ofBytes bytes o = .ok b ∧ b.content = bytes ∧ b.length = bytes.length ∧
      b.capacity = bytes.length := by
  have hsize := sizeOf?_ofNat (Nat.le_trans h (le_of_sizeOf? hm))
  have hroom : withCapacity (Double.ofNat bytes.length) o =
      .ok ⟨List.replicate bytes.length 0, 0, most, o.resolved⟩ := by
    unfold withCapacity
    dsimp only
    rw [hsize]
    dsimp only
    unfold BufferOptions.limit? at hm
    rw [hm]
    exact if_neg (Nat.not_lt.mpr h)
  have hsound := soundFor_of_withCapacity hroom
  have hedited : Operation.edited ⟨List.replicate bytes.length 0, 0, most, o.resolved⟩
      (.set (.bytes bytes)) = .ok bytes := rfl
  obtain ⟨changed, hperform, hholds⟩ :=
    exists_perform_of_room hsound.toSound hedited (Nat.le_trans h (Nat.le_max_right _ _))
  have hcapacity : changed.capacity = bytes.length := by
    rw [hholds.capacity_eq, capacity, List.length_replicate, Nat.max_self]
  refine ⟨changed, ?_, hholds.content_eq, hholds.length_eq, hcapacity⟩
  unfold ofBytes
  rw [hroom]
  change Edit.result (perform (.set (.bytes bytes))) _ = _
  rw [Edit.result, hperform]

theorem soundFor_of_ofText {t : Text} (h : ofText t o = .ok b) : SoundFor o b := by
  obtain ⟨bytes, _, hbytes⟩ := exists_of_bind_ok h
  exact soundFor_of_ofBytes hbytes

theorem soundFor_of_ofSpan {bytes : List UInt8} {length : Double}
    (h : ofSpan bytes length o = .ok b) : SoundFor o b := by
  unfold ofSpan at h
  split at h
  · split_ifs at h
    exact soundFor_of_ofBytes h
  · cases h

theorem soundFor_of_ofFormat {fmt : Text} {args : List Format.Argument}
    (h : ofFormat fmt args o = .ok b) : SoundFor o b := by
  obtain ⟨t, _, htext⟩ := exists_of_bind_ok h
  exact soundFor_of_ofText htext

/-- An operation leaves a sound buffer sound, and its limit as it was. -/
theorem SoundFor.after (hb : SoundFor o b) (operation : Operation) :
    SoundFor o (Buffer.after operation b) := by
  unfold Buffer.after
  cases hperform : perform operation b with
  | ok _ changed =>
    obtain ⟨bytes, _, hholds, hroom⟩ := holds_of_perform_ok operation hb.toSound hperform
    exact ⟨hholds.sound hb.toSound (Nat.not_lt.mpr hroom),
      hb.limit_eq.trans (congrArg some hholds.limit_eq.symm)⟩
  | error fault left =>
    rw [(left_eq_of_perform_error hb.toSound hperform).1]
    exact hb

theorem Reachable.soundFor (h : Reachable o b) : SoundFor o b := by
  induction h with
  | withCapacity h => exact soundFor_of_withCapacity h
  | ofBytes _ h => exact soundFor_of_ofBytes h
  | ofText h => exact soundFor_of_ofText h
  | ofSpan h => exact soundFor_of_ofSpan h
  | ofFormat h => exact soundFor_of_ofFormat h
  | after _ operation ih => exact ih.after operation

/-- At every point the bytes are counted, lie within the room, and this within the limit of the
options. An operation succeeds exactly when it has bytes to make that have room or may be given
room. Its content is then just these bytes, and the room is that from before if they fit it, and
else exactly theirs. -/
theorem Reachable.perform_ok (h : Reachable o b) :
    (b.content.length = b.length ∧ b.length ≤ b.capacity ∧ b.capacity ≤ b.limit ∧
      o.limit? = some b.limit) ∧
    ∀ operation : Operation,
      ((∃ changed, perform operation b = .ok () changed) ↔
        ∃ bytes, operation.edited b = .ok bytes ∧ bytes.length ≤ max b.capacity b.limit) ∧
      ∀ changed, perform operation b = .ok () changed →
        operation.edited b = .ok changed.content ∧ changed.length = changed.content.length ∧
        changed.limit = b.limit ∧ b.capacity ≤ changed.capacity ∧
        changed.capacity =
          if changed.length ≤ b.capacity then b.capacity else changed.length := by
  have hsound := h.soundFor.toSound
  refine ⟨⟨hsound.length_content, hsound.length_le, hsound.capacity_le,
    h.soundFor.limit_eq⟩, ?_⟩
  intro operation
  constructor
  · constructor
    · rintro ⟨changed, hperform⟩
      obtain ⟨bytes, hedited, _, hroom⟩ := holds_of_perform_ok operation hsound hperform
      exact ⟨bytes, hedited, hroom⟩
    · rintro ⟨bytes, hedited, hroom⟩
      obtain ⟨changed, hperform, _⟩ := exists_perform_of_room hsound hedited hroom
      exact ⟨changed, hperform⟩
  · intro changed hperform
    obtain ⟨bytes, hedited, hholds, _⟩ := holds_of_perform_ok operation hsound hperform
    have hcapacity := hholds.capacity_eq
    rw [hholds.length_eq, hholds.content_eq, hcapacity]
    refine ⟨hedited, rfl, hholds.limit_eq, Nat.le_max_left _ _, ?_⟩
    split_ifs <;> omega

/-- Room for one byte under a limit of four: two more bytes make it grow to just three. -/
theorem Reachable.perform_ok_grown :
    Reachable ⟨some (Double.ofNat 4), none⟩ ⟨[0x61], 1, 4, .default⟩ ∧
      perform (.append (.bytes [0x62, 0x63])) ⟨[0x61], 1, 4, .default⟩ =
        .ok () ⟨[0x61, 0x62, 0x63], 3, 4, .default⟩ ∧
      Operation.edited ⟨[0x61], 1, 4, .default⟩ (.append (.bytes [0x62, 0x63])) =
        .ok [0x61, 0x62, 0x63] := by
  have hreach : Reachable ⟨some (Double.ofNat 4), none⟩ ⟨[0x61], 1, 4, .default⟩ :=
    .ofBytes [0x61] (eq_ok_of_toOption (by decide +kernel))
  have hperform : perform (.append (.bytes [0x62, 0x63])) ⟨[0x61], 1, 4, .default⟩ =
      .ok () ⟨[0x61, 0x62, 0x63], 3, 4, .default⟩ := by with_unfolding_all rfl
  exact ⟨hreach, hperform, ((hreach.perform_ok.2 _).2 _ hperform).1⟩

theorem failsOnly_bytesOf (b : Buffer) (input : Input) :
    FailsOnly Fault.AsksNoRoom (b.bytesOf input) := by
  cases input with
  | text t =>
    intro fault h required most
    unfold bytesOf Text.toUtf8 at h
    dsimp only at h
    rw [Request.whole_eq] at h
    unfold Request.failure? Request.failureWith? at h
    split_ifs at h
    all_goals
      cases h
      exact Fault.noConfusion
  | bytes bs => exact failsOnly_ok bs
  | itself => exact failsOnly_ok b.content

theorem failsOnly_formatted (b : Buffer) (fmt : Text) (args : List Format.Argument) :
    FailsOnly Fault.AsksNoRoom (b.formatted fmt args) := by
  refine FailsOnly.bind ?_ fun _ => failsOnly_ok _
  intro fault h required most
  cases Format.failsOnly_format _ _ _ _ h <;> exact Fault.noConfusion

/-- The bytes that an operation is to make fail to be made for other reasons than their room. -/
theorem failsOnly_edited (b : Buffer) (operation : Operation) :
    FailsOnly Fault.AsksNoRoom (operation.edited b) := by
  have hbytes := failsOnly_bytesOf b
  cases operation with
  | set input => exact hbytes input
  | append input => exact (hbytes input).bind fun _ => failsOnly_ok _
  | prepend input => exact (hbytes input).bind fun _ => failsOnly_ok _
  | setFormatted fmt args => exact (failsOnly_formatted b fmt args).bind hbytes
  | appendFormatted fmt args =>
    exact (failsOnly_formatted b fmt args).bind fun input =>
      (hbytes input).bind fun _ => failsOnly_ok _
  | prependFormatted fmt args =>
    exact (failsOnly_formatted b fmt args).bind fun input =>
      (hbytes input).bind fun _ => failsOnly_ok _
  | removeRange first finish =>
    rw [Operation.edited]
    split
    · split_ifs
      · exact failsOnly_ok _
      · exact failsOnly_ok _
    · exact failsOnly_error fun _ _ => Fault.noConfusion
  | replace offset count input =>
    rw [Operation.edited]
    split
    · split_ifs
      · exact failsOnly_ok _
      · exact (hbytes input).bind fun _ => failsOnly_ok _
    · exact failsOnly_error fun _ _ => Fault.noConfusion
  | replaceAll query replacement =>
    refine (hbytes query).bind fun sought => ?_
    split_ifs
    · exact failsOnly_ok _
    · exact (hbytes replacement).bind fun _ => failsOnly_ok _
  | trim => exact failsOnly_ok _

end Buffer

end TextUnits
