import TextUnits.Proofs.Buffer.Reachable

/-!
# Chains end with their first fault

An operation that fails leaves the buffer as it was. So does every operation of a chain behind the
first one that fails: if that was refused, its refusal is what the chain returns, and if another
fault left it, the chain ends with that fault. Of the way in which a reply is passed on only two
things are asked: that the call is made after success, and that a refusal is kept without a call.
-/

namespace TextUnits

namespace Buffer

/-- How a reply is passed on to a call. -/
structure PassesOn (andThen : Reply → Call → Call) : Prop where
  /-- After success the call is made. -/
  done : ∀ (next : Call) (b : Buffer), andThen .done next b = next b
  /-- A refusal is kept, and no call is made. -/
  refused : ∀ (fault : Fault) (next : Call) (b : Buffer),
    andThen (.refused fault) next b = .ok (.refused fault) b

/-- Operations that are all done, one after the other. -/
inductive Does : Buffer → List Operation → Buffer → Prop where
  /-- There are none. -/
  | nil {b : Buffer} : Does b [] b
  /-- The first is done, and then the others are. -/
  | cons {b changed last : Buffer} {operation : Operation} {rest : List Operation}
    (h : perform operation b = .ok () changed) (later : Does changed rest last) :
    Does b (operation :: rest) last

variable {o : BufferOptions} {b changed last left : Buffer} {operation : Operation}
  {operations front : List Operation} {fault : Fault} {andThen : Reply → Call → Call}

theorem call_of_ok (h : perform operation b = .ok () changed) :
    call operation b = .ok .done changed := by
  rw [call, h]

/-- A refusal is returned, and another fault leaves the call. -/
theorem call_of_error (h : perform operation b = .error fault left) :
    call operation b =
      if fault.isRefusal then .ok (.refused fault) left else .error fault left := by
  rw [call, h]

/-- Operations that are done leave a reachable buffer. -/
theorem Does.reachable (h : Does b operations last) (hb : Reachable o b) : Reachable o last := by
  induction h with
  | nil => exact hb
  | @cons b changed last operation rest h later ih =>
    have hafter : after operation b = changed := by rw [after, h]
    exact ih (hafter ▸ hb.after operation)

/-- Operations are all done, or one is the first that fails. -/
theorem does_or_fails (b : Buffer) (operations : List Operation) :
    (∃ last, Does b operations last) ∨ ∃ front operation rest last fault left,
      operations = front ++ operation :: rest ∧ Does b front last ∧
        perform operation last = .error fault left := by
  induction operations generalizing b with
  | nil => exact .inl ⟨b, .nil⟩
  | cons operation rest ih =>
    cases h : perform operation b with
    | ok _ changed =>
      rcases ih changed with
        ⟨last, hlast⟩ | ⟨front, failing, behind, last, fault, left, rfl, hd, hf⟩
      · exact .inl ⟨last, .cons h hlast⟩
      · exact .inr ⟨operation :: front, failing, behind, last, fault, left, rfl, .cons h hd, hf⟩
    | error fault left => exact .inr ⟨[], operation, rest, b, fault, left, rfl, .nil, h⟩

/-- A refusal is kept to the end of a chain, and nothing changes any more. -/
theorem chain_of_refused (h : PassesOn andThen) (fault : Fault) (operations : List Operation)
    (b : Buffer) : chain andThen (.refused fault) operations b = .ok (.refused fault) b := by
  induction operations with
  | nil => rfl
  | cons operation rest ih =>
    change EStateM.bind (andThen (.refused fault) (call operation))
      (fun next => chain andThen next rest) b = _
    rw [EStateM.bind, h.refused]
    exact ih

/-- A chain by its first operation. -/
theorem chain_cons (h : PassesOn andThen) (operation : Operation) (rest : List Operation)
    (b : Buffer) :
    chain andThen .done (operation :: rest) b =
      match call operation b with
      | .ok reply changed => chain andThen reply rest changed
      | .error fault left => .error fault left := by
  change EStateM.bind (andThen .done (call operation)) (fun next => chain andThen next rest) b = _
  rw [EStateM.bind, h.done]
  cases call operation b <;> rfl

/-- A chain whose first operations are done goes on with the others. -/
theorem Does.chain_append (hd : Does b front last) (h : PassesOn andThen)
    (rest : List Operation) :
    chain andThen .done (front ++ rest) b = chain andThen .done rest last := by
  induction hd with
  | nil => rfl
  | cons hok later ih =>
    rw [List.cons_append, chain_cons h, call_of_ok hok]
    exact ih

/-- Whatever stands behind it, the first operation that fails decides a chain. -/
theorem Does.chain_of_error (hd : Does b front last) (h : PassesOn andThen)
    (hf : perform operation last = .error fault left) (rest : List Operation) :
    chain andThen .done (front ++ operation :: rest) b =
      if fault.isRefusal then .ok (.refused fault) left else .error fault left := by
  rw [hd.chain_append h, chain_cons h, call_of_error hf]
  split_ifs
  · exact chain_of_refused h fault rest left
  · rfl

/-- The way of passing on that keeps a refusal and makes the call otherwise. -/
def Reply.passOn (reply : Reply) (next : Call) : Call :=
  match reply with
  | .done => next
  | .refused fault => pure (.refused fault)

theorem passesOn_passOn : PassesOn Reply.passOn := ⟨fun _ _ => rfl, fun _ _ _ => rfl⟩

end Buffer

/-- An operation that fails leaves the buffer as it was. It is refused for want of room exactly when
it has bytes to make that exceed both the room and the limit. The operations of a chain are all
done, or one is the first that fails. Then the chain returns its refusal or ends with the fault that
left it, and the buffer stays as it was in front of that operation, whatever operations stand
behind. The refusal to make a buffer is what a chain behind it returns. -/
theorem Buffer.Reachable.perform_error {o : BufferOptions} {b : Buffer} (h : Reachable o b) :
    (∀ operation fault left, perform operation b = .error fault left → left = b) ∧
    (∀ operation : Operation,
      (∃ required most left, perform operation b = .error (.capacityExceeded required most) left) ↔
        ∃ bytes, operation.edited b = .ok bytes ∧ b.capacity < bytes.length ∧
          b.limit < bytes.length) ∧
    (∀ operations, (∃ last, Does b operations last) ∨
      ∃ front operation rest last fault left, operations = front ++ operation :: rest ∧
        Does b front last ∧ perform operation last = .error fault left) ∧
    ∀ andThen : Reply → Call → Call, PassesOn andThen →
      (∀ operations last, Does b operations last →
        chain andThen .done operations b = .ok .done last) ∧
      (∀ front operation rest last fault left, Does b front last →
        perform operation last = .error fault left →
        chain andThen .done (front ++ operation :: rest) b =
          if fault.isRefusal then .ok (.refused fault) last else .error fault last) ∧
      ∀ fault operations, chain andThen (.refused fault) operations b = .ok (.refused fault) b := by
  have hsound := h.soundFor.toSound
  refine ⟨?_, ?_, does_or_fails b, fun andThen hpasses => ⟨?_, ?_, fun fault operations => ?_⟩⟩
  · intro operation fault left hperform
    exact (left_eq_of_perform_error hsound hperform).1
  · intro operation
    constructor
    · rintro ⟨required, most, left, hperform⟩
      obtain ⟨_, hfails | ⟨bytes, hedited, hpassed⟩⟩ :=
        left_eq_of_perform_error hsound hperform
      · exact absurd rfl (failsOnly_edited b operation _ hfails required most)
      · exact ⟨bytes, hedited, by omega, by omega⟩
    · rintro ⟨bytes, hedited, hroom, hlimit⟩
      exact ⟨_, _, _, perform_of_passed hsound hedited (by omega)⟩
  · intro operations last hd
    have hchain := hd.chain_append hpasses []
    rwa [List.append_nil] at hchain
  · intro front operation rest last fault left hd hf
    obtain rfl := (left_eq_of_perform_error (hd.reachable h).soundFor.toSound hf).1
    exact hd.chain_of_error hpasses hf rest
  · exact chain_of_refused hpasses fault operations b

/-- Under a limit of two, the third byte is refused, and the operation behind is not called. -/
theorem Buffer.Reachable.perform_error_full :
    Reachable ⟨some (Double.ofNat 2), none⟩ ⟨[0x61], 1, 2, .default⟩ ∧
      (∃ required most left, perform (.append (.bytes [0x62, 0x63])) ⟨[0x61], 1, 2, .default⟩ =
        .error (.capacityExceeded required most) left) ∧
      PassesOn Reply.passOn ∧
      chain Reply.passOn .done [.append (.bytes [0x62, 0x63]), .trim] ⟨[0x61], 1, 2, .default⟩ =
        .ok (.refused (.capacityExceeded 3 2)) ⟨[0x61], 1, 2, .default⟩ := by
  have hreach : Reachable ⟨some (Double.ofNat 2), none⟩ ⟨[0x61], 1, 2, .default⟩ :=
    .ofBytes [0x61] (eq_ok_of_toOption (by decide +kernel))
  have hperform : perform (.append (.bytes [0x62, 0x63])) ⟨[0x61], 1, 2, .default⟩ =
      .error (.capacityExceeded 3 2) ⟨[0x61], 1, 2, .default⟩ := by with_unfolding_all rfl
  obtain ⟨_, hrefused, -, hchain⟩ := hreach.perform_error
  refine ⟨hreach, (hrefused _).mpr ⟨[0x61, 0x62, 0x63], rfl, by decide, by decide⟩,
    passesOn_passOn, ?_⟩
  exact (hchain Reply.passOn passesOn_passOn).2.1 [] _ [.trim] _ _ _ .nil hperform

end TextUnits
