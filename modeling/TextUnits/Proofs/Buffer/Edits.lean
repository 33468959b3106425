import TextUnits.Buffer.Chain
import TextUnits.Proofs.Buffer.Splice
import TextUnits.Proofs.Scan.Within

/-!
# Operations as operations on lists

`Operation.edited` says what bytes an operation is to make of a content, as an operation on lists,
or with which fault it fails before any byte is moved. The main statement says that every operation
on a sound buffer follows it. What has no room is refused, and with any fault the buffer stays as it
was. So all buffers that can come about are sound.
-/

namespace TextUnits

namespace Buffer

/-- What an operation is to make of the content of a buffer. -/
def Operation.edited (b : Buffer) : Operation → Except Fault (List UInt8)
  | .set input => b.bytesOf input
  | .append input => do return b.content ++ (← b.bytesOf input)
  | .prepend input => do return (← b.bytesOf input) ++ b.content
  | .setFormatted fmt args => do b.bytesOf (← b.formatted fmt args)
  | .appendFormatted fmt args => do return b.content ++ (← b.bytesOf (← b.formatted fmt args))
  | .prependFormatted fmt args => do return (← b.bytesOf (← b.formatted fmt args)) ++ b.content
  | .removeRange first finish =>
    match sizeOf? first, sizeOf? finish with
    | some start, some stop =>
      if stop < start ∨ b.content.length < start then .ok b.content
      else .ok (b.content.take start ++ b.content.drop (min stop b.content.length))
    | _, _ => .error (rangeRefusal first finish)
  | .replace offset count input =>
    match sizeOf? offset, sizeOf? count with
    | some start, some removed =>
      if b.content.length < start + removed then .ok b.content
      else do
        return b.content.take start ++ (← b.bytesOf input) ++ b.content.drop (start + removed)
    | _, _ => .error (replaceRefusal offset count)
  | .replaceAll query replacement => do
    let sought ← b.bytesOf query
    if sought.isEmpty then return b.content
    else return replaceIn sought (← b.bytesOf replacement) b.content
  | .trim => .ok (trimmed b.content)

/-- An edit makes of a buffer what it is to make, and with a fault it leaves the buffer as it
was. -/
def Edit.Follows (e : Edit) (b : Buffer) : Except Fault (List UInt8) → Prop
  | .error fault => e b = .error fault b
  | .ok bytes => e.Gives b bytes

variable {b changed : Buffer}

/-- An edit that does nothing gives the content itself. -/
theorem gives_content (hb : b.Sound) : Edit.Gives (pure ()) b b.content := by
  have hlength := hb.length_le
  have hcontent := hb.length_content
  unfold Edit.Gives
  rw [hcontent, if_neg (by omega)]
  refine ⟨b, rfl, rfl, hcontent.symm, ?_, rfl, rfl⟩
  rw [hcontent]
  exact (Nat.max_eq_left hlength).symm

/-- An edit that first looks at the buffer follows what the edit for that buffer follows. -/
theorem follows_get {next : Buffer → Edit} {made : Except Fault (List UInt8)}
    (h : (next b).Follows b made) : Edit.Follows (do let b ← get; next b) b made := h

/-- An edit that first needs a result fails with its fault, or goes on with it. -/
theorem follows_ofExcept {α : Type} {x : Except Fault α} {next : α → Edit}
    (made : α → Except Fault (List UInt8)) (h : ∀ a, (next a).Follows b (made a)) :
    Edit.Follows (do let a ← ofExcept x; next a) b (do let a ← x; made a) := by
  cases x with
  | error fault => exact rfl
  | ok a => exact h a

/-- A sequence that does not occur is not replaced. -/
theorem replaceIn_of_indexOf?_eq_none {query replacement bytes : List UInt8}
    (h : Sequence.indexOf? query bytes = none) : replaceIn query replacement bytes = bytes := by
  induction bytes with
  | nil => rw [replaceIn]
  | cons x rest ih =>
    obtain ⟨hbegins, hrest⟩ := Sequence.indexOf?_cons_eq_none h
    rw [replaceIn, hbegins, if_neg Bool.false_ne_true, ih hrest]

/-- A splice of all bytes leaves those that were put in. -/
theorem splice_all_gives (hb : b.Sound) (bytes : List UInt8) :
    (splice 0 b.length bytes).Gives b bytes := by
  have h := splice_gives hb 0 b.length bytes (by omega)
  rwa [Nat.zero_add, ← hb.length_content, List.drop_length, List.take_zero, List.nil_append,
    List.append_nil, hb.length_content] at h

/-- Replacing the content leaves the bytes of the input. -/
theorem set_follows (hb : b.Sound) (input : Input) : (set input).Follows b (b.bytesOf input) := by
  have hbind : (do let bytes ← b.bytesOf input; Except.ok bytes) = b.bytesOf input := bind_pure _
  rw [← hbind]
  exact follows_ofExcept .ok fun bytes => splice_all_gives hb bytes

/-- Putting bytes behind the content leaves it in front of them. -/
theorem append_follows (hb : b.Sound) (input : Input) :
    (append input).Follows b (Operation.edited b (.append input)) := by
  refine follows_ofExcept (fun bytes => .ok (b.content ++ bytes)) fun bytes => ?_
  have h := splice_gives hb b.length 0 bytes (Nat.le_refl _)
  rw [Nat.add_zero, ← hb.length_content, List.take_length, List.drop_length, List.append_nil,
    hb.length_content] at h
  exact h

/-- Putting bytes in front of the content leaves it behind them. -/
theorem prepend_follows (hb : b.Sound) (input : Input) :
    (prepend input).Follows b (Operation.edited b (.prepend input)) := by
  refine follows_ofExcept (fun bytes => .ok (bytes ++ b.content)) fun bytes => ?_
  have h := splice_gives hb 0 0 bytes (Nat.zero_le _)
  rw [List.take_zero, List.nil_append, Nat.add_zero, List.drop_zero] at h
  exact h

/-- Removing a range leaves what is in front of it and behind it. -/
theorem removeRange_follows (hb : b.Sound) (first finish : Double) :
    (removeRange first finish).Follows b (Operation.edited b (.removeRange first finish)) := by
  rw [removeRange, Operation.edited]
  cases hfirst : sizeOf? first with
  | none => exact rfl
  | some start =>
    cases hfinish : sizeOf? finish with
    | none => exact rfl
    | some stop =>
      dsimp only
      apply follows_get
      rw [hb.length_content]
      split_ifs with hempty
      · exact gives_content hb
      · have hrange : start + (min stop b.length - start) = min stop b.length := by omega
        have h := splice_gives hb start (min stop b.length - start) [] (by omega)
        rw [hrange, List.append_nil] at h
        exact h

/-- Replacing a range leaves the bytes of the input between what is in front of it and behind it. -/
theorem replace_follows (hb : b.Sound) (offset count : Double) (input : Input) :
    (replace offset count input).Follows b (Operation.edited b (.replace offset count input)) := by
  rw [replace, Operation.edited]
  cases hoffset : sizeOf? offset with
  | none => exact rfl
  | some start =>
    cases hcount : sizeOf? count with
    | none => exact rfl
    | some removed =>
      dsimp only
      apply follows_get
      rw [hb.length_content]
      split_ifs with hbehind
      · exact gives_content hb
      · exact follows_ofExcept
          (fun bytes => .ok (b.content.take start ++ bytes ++
            b.content.drop (start + removed)))
          fun bytes => splice_gives hb start removed bytes (by omega)

/-- Replacing all occurrences of a sequence leaves the content with others in their place. -/
theorem replaceAll_follows (hb : b.Sound) (query replacement : Input) :
    (replaceAll query replacement).Follows b
      (Operation.edited b (.replaceAll query replacement)) := by
  rw [replaceAll, Operation.edited]
  apply follows_get
  refine follows_ofExcept _ fun sought => ?_
  by_cases hempty : sought.isEmpty = true
  · rw [if_pos hempty, if_pos hempty]
    exact gives_content hb
  · rw [if_neg hempty, if_neg hempty]
    refine follows_ofExcept (fun inserted => .ok (replaceIn sought inserted b.content))
      fun inserted => ?_
    split_ifs with hnone
    · rw [replaceIn_of_indexOf?_eq_none (Option.isNone_iff_eq_none.mp hnone)]
      exact gives_content hb
    · exact splice_all_gives hb _

/-- Every operation makes of a sound buffer what it is to make. -/
theorem perform_follows (hb : b.Sound) (operation : Operation) :
    (perform operation).Follows b (operation.edited b) := by
  cases operation with
  | set input => exact set_follows hb input
  | append input => exact append_follows hb input
  | prepend input => exact prepend_follows hb input
  | setFormatted fmt args =>
    rw [perform, Operation.edited]
    exact follows_get (follows_ofExcept _ fun input => set_follows hb input)
  | appendFormatted fmt args =>
    rw [perform, Operation.edited]
    exact follows_get (follows_ofExcept _ fun input => append_follows hb input)
  | prependFormatted fmt args =>
    rw [perform, Operation.edited]
    exact follows_get (follows_ofExcept _ fun input => prepend_follows hb input)
  | removeRange first finish => exact removeRange_follows hb first finish
  | replace offset count input => exact replace_follows hb offset count input
  | replaceAll query replacement => exact replaceAll_follows hb query replacement
  | trim => exact splice_all_gives hb _

end Buffer

end TextUnits
