import TextUnits.Format.Truncate
import TextUnits.Proofs.Encoding.Boundaries
import TextUnits.Proofs.Lexer.Markers
import TextUnits.Proofs.Transcode.Limits

/-!
# What a buffer holds behind formatting

A `Filling` is an action on a buffer in place, which a fault ends, and so does a write that would go
past the end. Formatting into a buffer never writes past its end. It writes as many of the code
points of the text as fit in front of a zero byte, and touches nothing behind that byte. A fault
comes before the first write.
-/

namespace TextUnits.Format

open Encoding

variable {bytes held kept : List UInt8} {codes : List Nat} {n : Nat}

/-- An action on the bytes of a buffer. It ends early with a fault, or without one for a write past
the end, and leaves the buffer as it is by then. -/
abbrev Filling (α : Type) := EStateM (Option Fault) (List UInt8) α

/-- The value that was computed apart from the buffer. -/
def computed {α : Type} : Except Fault α → Filling α
  | .ok a => return a
  | .error fault => throw (some fault)

/-- Writes bytes from a place on. -/
def writeAt (n : Nat) (written : List UInt8) : Filling Unit := do
  let held ← get
  if n + written.length ≤ held.length then set (overlayAt n written held) else throw none

/-- How many bytes are written where there is so much room. -/
def fitting (bytes : List UInt8) (room : Nat) : Nat :=
  let most := min bytes.length room
  if most < bytes.length then boundary bytes most else most

/-- Fills the buffer with bytes and a zero byte behind them. Tells how many bytes there are, and
whether some were left out. -/
def fillWith (bytes : List UInt8) : Filling (Nat × Bool) := do
  let held ← get
  if held.isEmpty then return (bytes.length, !bytes.isEmpty)
  let count := fitting bytes (held.length - 1)
  writeAt 0 (bytes.take count)
  writeAt count [0]
  return (bytes.length, decide (count < bytes.length))

/-- The bytes of formatted text. -/
def encoded (separators : Separators) (fmt : Text) (args : List Argument) :
    Except Fault (List UInt8) := do
  let text ← format separators fmt args
  Text.toUtf8 text .default

/-- Formats into the buffer. -/
def formatWithin (separators : Separators) (fmt : Text) (args : List Argument) :
    Filling (Nat × Bool) := do
  let text ← computed (format separators fmt args)
  let bytes ← computed (Text.toUtf8 text .default)
  fillWith bytes

/-- Well-formed bytes as far as a place between two of their code points. -/
def Heads (bytes kept : List UInt8) : Prop :=
  ∃ before later, (∀ code ∈ before ++ later, Scalar.isScalar code = true) ∧
    utf8.encodeAll before = kept ∧ utf8.encodeAll (before ++ later) = bytes

/-- The most that can be kept of well-formed bytes in so much room without cutting a code point. -/
structure Longest (bytes : List UInt8) (room : Nat) (kept : List UInt8) : Prop where
  /-- It ends between two code points. -/
  heads : Heads bytes kept
  /-- It fits. -/
  fits : kept.length ≤ room
  /-- Nothing else that does so is longer. -/
  most : ∀ other, Heads bytes other → other.length ≤ room → other.length ≤ kept.length

/-- What bytes make of a buffer that they are written into. -/
inductive Fills (bytes : List UInt8) : List UInt8 → Filled → Prop where
  /-- A buffer without room takes nothing, not even the zero byte. -/
  | roomless : Fills bytes [] ⟨bytes.length, decide (bytes ≠ []), []⟩
  /-- Any other takes the code points that leave room for the zero byte, and that byte. The bytes
  behind are those from before. -/
  | cut {held kept : List UInt8} (hne : held ≠ []) (h : Longest bytes (held.length - 1) kept) :
    Fills bytes held ⟨bytes.length, decide (kept.length < bytes.length),
      kept ++ 0 :: held.drop (kept.length + 1)⟩

/-- The boundary found does not lie behind the place that the search began at. It is the start, or
no continuation byte stands behind it; and one does behind each place that was passed over. -/
theorem boundary_spec (bytes : List UInt8) (n : Nat) :
    boundary bytes n ≤ n ∧
      (boundary bytes n = 0 ∨
        ∀ b ∈ bytes[boundary bytes n]?, Scalar.isContinuation b.toNat = false) ∧
      ∀ m ≤ n, boundary bytes n < m →
        ∃ b ∈ bytes[m]?, Scalar.isContinuation b.toNat = true := by
  induction n with
  | zero => exact ⟨Nat.le_refl _, .inl rfl, fun m hm hlt => absurd hlt (by omega)⟩
  | succ n ih =>
    obtain ⟨hle, hstart, hpassed⟩ := ih
    rw [boundary]
    split_ifs with hcont
    · refine ⟨by omega, hstart, fun m hm hlt => ?_⟩
      rcases Nat.lt_or_eq_of_le hm with hm | rfl
      · exact hpassed m (by omega) hlt
      · cases hb : bytes[n + 1]? with
        | none =>
          rw [hb] at hcont
          cases hcont
        | some b =>
          rw [hb] at hcont
          exact ⟨b, rfl, hcont⟩
    · refine ⟨Nat.le_refl _, .inr fun b hb => ?_, fun m hm hlt => absurd hlt (by omega)⟩
      rw [Option.mem_def] at hb
      rwa [hb, Option.any_some, Bool.not_eq_true] at hcont

/-- The bytes up to a place end between two code points exactly when no continuation byte stands
behind the place. -/
theorem heads_take_iff (hc : ∀ code ∈ codes, Scalar.isScalar code = true)
    (hn : n ≤ (utf8.encodeAll codes).length) :
    Heads (utf8.encodeAll codes) ((utf8.encodeAll codes).take n) ↔
      ∀ b ∈ (utf8.encodeAll codes)[n]?, Scalar.isContinuation b.toNat = false := by
  constructor
  · rintro ⟨before, later, hscalar, hkept, hall⟩ b hb
    have hlength := congrArg List.length hkept
    rw [List.length_take, Nat.min_eq_left hn] at hlength
    rw [← hall, encodeAll_append, List.getElem?_append_right (by omega), hlength,
      Nat.sub_self] at hb
    cases later with
    | nil => cases hb
    | cons code later =>
      obtain ⟨lead, tail, hencode, hlead, -⟩ := exists_lead (hscalar code (by simp))
      rw [encodeAll_cons, hencode] at hb
      cases hb
      exact hlead
  · intro h
    have hr : ∀ b ∈ ((utf8.encodeAll codes).drop n).head?,
        Scalar.isContinuation b.toNat = false := by
      rwa [List.head?_drop]
    obtain ⟨before, later, rfl, hbefore, -⟩ :=
      exists_split hc (List.take_append_drop n _).symm hr
    exact ⟨before, later, hc, hbefore, rfl⟩

/-- What is kept of bytes is a part at their front. -/
theorem Heads.eq_take (h : Heads bytes kept) : kept = bytes.take kept.length := by
  obtain ⟨before, later, -, rfl, rfl⟩ := h
  rw [encodeAll_append, List.take_left]

theorem Heads.length_le (h : Heads bytes kept) : kept.length ≤ bytes.length := by
  obtain ⟨before, later, -, rfl, rfl⟩ := h
  rw [encodeAll_append, List.length_append]
  exact Nat.le_add_right _ _

/-- The bytes up to the boundary in front of a place are the most that can be kept up to there. -/
theorem longest_boundary (hc : ∀ code ∈ codes, Scalar.isScalar code = true)
    (hn : n < (utf8.encodeAll codes).length) :
    Longest (utf8.encodeAll codes) n
      ((utf8.encodeAll codes).take (boundary (utf8.encodeAll codes) n)) := by
  obtain ⟨hle, hstart, hpassed⟩ := boundary_spec (utf8.encodeAll codes) n
  have hlength : ((utf8.encodeAll codes).take (boundary (utf8.encodeAll codes) n)).length =
      boundary (utf8.encodeAll codes) n := by
    rw [List.length_take, Nat.min_eq_left (by omega)]
  refine ⟨?_, by omega, fun other hother hfits => ?_⟩
  · rcases hstart with hstart | hstart
    · rw [hstart]
      exact ⟨[], codes, hc, rfl, rfl⟩
    · exact (heads_take_iff hc (by omega)).mpr hstart
  · -- A longer part would end where a place was passed over, in front of a continuation byte.
    by_contra hlonger
    obtain ⟨b, hb, hcont⟩ := hpassed other.length hfits (by omega)
    rw [hother.eq_take] at hother
    rw [(heads_take_iff hc (by omega)).mp hother b hb] at hcont
    cases hcont

/-- What is written where there is so much room is the most that can be kept. -/
theorem longest_fitting (hc : ∀ code ∈ codes, Scalar.isScalar code = true) (room : Nat) :
    Longest (utf8.encodeAll codes) room
      ((utf8.encodeAll codes).take (fitting (utf8.encodeAll codes) room)) := by
  unfold fitting
  dsimp only
  split_ifs with hroom
  · rw [Nat.min_eq_right (by omega)]
    exact longest_boundary hc (by omega)
  · rw [Nat.min_eq_left (by omega), List.take_length]
    exact ⟨⟨codes, [], by rwa [List.append_nil], rfl, by rw [List.append_nil]⟩, by omega,
      fun other hother _ => hother.length_le⟩

/-- No more is written than there is, or than there is room for. -/
theorem fitting_le (bytes : List UInt8) (room : Nat) :
    fitting bytes room ≤ min bytes.length room := by
  unfold fitting
  dsimp only
  split_ifs
  · exact (boundary_spec bytes _).1
  · exact Nat.le_refl _

theorem length_take_fitting (bytes : List UInt8) (room : Nat) :
    (bytes.take (fitting bytes room)).length = fitting bytes room := by
  have hle := fitting_le bytes room
  rw [List.length_take]
  omega

/-- A buffer with room that was filled. -/
theorem fillBuffer_of_ne (hne : held ≠ []) (bytes : List UInt8) :
    fillBuffer bytes held = ⟨bytes.length, decide (fitting bytes (held.length - 1) < bytes.length),
      overlay (bytes.take (fitting bytes (held.length - 1)) ++ [0]) held⟩ := by
  rw [fillBuffer, if_neg (by rwa [List.isEmpty_iff])]
  rfl

/-- Well-formed bytes leave a buffer with as many of their code points as fit. -/
theorem fills_fillBuffer (hc : ∀ code ∈ codes, Scalar.isScalar code = true) (held : List UInt8) :
    Fills (utf8.encodeAll codes) held (fillBuffer (utf8.encodeAll codes) held) := by
  by_cases hne : held = []
  · subst hne
    have hempty : (!(utf8.encodeAll codes).isEmpty) = decide (utf8.encodeAll codes ≠ []) := by
      rw [Bool.eq_iff_iff]
      simp
    have hfilled : fillBuffer (utf8.encodeAll codes) [] =
        ⟨(utf8.encodeAll codes).length, !(utf8.encodeAll codes).isEmpty, []⟩ := rfl
    rw [hfilled, hempty]
    exact .roomless
  · have hfills := Fills.cut hne (longest_fitting hc (held.length - 1))
    rw [length_take_fitting] at hfills
    rwa [fillBuffer_of_ne hne, overlay, List.length_append, length_take_fitting,
      List.length_singleton, List.append_assoc, List.singleton_append]

/-- A buffer is as long behind as it was before. -/
theorem Fills.length_dest {filled : Filled} (h : Fills bytes held filled) :
    filled.dest.length = held.length := by
  cases h with
  | roomless => rfl
  | cut hne hlongest =>
    have hpos := List.length_pos_iff.mpr hne
    have hfits := hlongest.fits
    simp only [List.length_append, List.length_cons, List.length_drop]
    omega

/-- A write that ends within the buffer. -/
theorem run_writeAt {written : List UInt8} (h : n + written.length ≤ held.length) :
    (writeAt n written).run held = .ok () (overlayAt n written held) := by
  simp only [writeAt, EStateM.run_bind, EStateM.run_get, if_pos h, EStateM.run_set]

/-- Filling a buffer in place stays within it, and leaves the bytes that were told. -/
theorem run_fillWith (bytes held : List UInt8) :
    (fillWith bytes).run held =
      .ok ((fillBuffer bytes held).length, (fillBuffer bytes held).truncated)
        (fillBuffer bytes held).dest := by
  by_cases hne : held = []
  · subst hne
    rfl
  · have hpos := List.length_pos_iff.mpr hne
    have hle := fitting_le bytes (held.length - 1)
    have hlength := length_take_fitting bytes (held.length - 1)
    rw [fillBuffer_of_ne hne]
    simp only [fillWith, EStateM.run_bind, EStateM.run_get, List.isEmpty_iff, if_neg hne]
    generalize fitting bytes (held.length - 1) = count at hle hlength ⊢
    have hfront : (overlay (bytes.take count) held).length = held.length :=
      length_overlay (by omega)
    have hzero := overlayAt_overlay (bytes.take count) [0] held
    rw [hlength] at hzero
    rw [run_writeAt (by omega)]
    have hfirst : overlayAt 0 (bytes.take count) held = overlay (bytes.take count) held := rfl
    rw [hfirst]
    dsimp only
    rw [run_writeAt (by rw [hfront, List.length_singleton]; omega), hzero]
    rfl

/-- Formatting into a buffer in place is filling it with the bytes of the text, if there are any. -/
theorem run_formatWithin (separators : Separators) (fmt : Text) (args : List Argument)
    (held : List UInt8) :
    (formatWithin separators fmt args).run held =
      match encoded separators fmt args with
      | .error fault => .error (some fault) held
      | .ok bytes => (fillWith bytes).run held := by
  unfold formatWithin encoded
  cases format separators fmt args with
  | error fault => rfl
  | ok text =>
    change (computed (text.toUtf8 .default) >>= fillWith).run held =
      match text.toUtf8 .default with
      | .error fault => .error (some fault) held
      | .ok bytes => (fillWith bytes).run held
    cases text.toUtf8 .default <;> rfl

theorem formatInto_eq (separators : Separators) (fmt : Text) (args : List Argument)
    (held : List UInt8) :
    formatInto separators fmt args held =
      (encoded separators fmt args).map fun bytes => fillBuffer bytes held := by
  unfold formatInto encoded
  cases format separators fmt args with
  | error fault => rfl
  | ok text => exact bind_pure_comp (fillBuffer · held) (text.toUtf8 .default)

/-- The bytes of formatted text are well formed. -/
theorem exists_codes_of_encoded {separators : Separators} {fmt : Text} {args : List Argument}
    (h : encoded separators fmt args = .ok bytes) :
    ∃ codes, bytes = utf8.encodeAll codes ∧ ∀ code ∈ codes, Scalar.isScalar code = true := by
  unfold encoded at h
  cases htext : format separators fmt args with
  | error fault =>
    rw [htext] at h
    cases h
  | ok text =>
    rw [htext] at h
    obtain ⟨codes, hbytes, hcodes⟩ := Text.exists_codes_of_toUtf8 h
    exact ⟨codes, hbytes, fun code hm => (hcodes code hm).1⟩

/-- Formatting into a buffer fails as formatting the text and encoding it do, and then leaves the
buffer as it is. Otherwise the buffer holds, of the bytes of the text, the code points that leave
room for a zero byte, then that byte, and from there on what it held; one without room holds
nothing. The length told is that of all the bytes, and a cut is told where some are left out. No
byte is written past the end. -/
theorem formatWithin_fills (separators : Separators) (fmt : Text) (args : List Argument)
    (held : List UInt8) :
    match encoded separators fmt args with
    | .error fault =>
      formatInto separators fmt args held = .error fault ∧
        (formatWithin separators fmt args).run held = .error (some fault) held
    | .ok bytes =>
      ∃ filled, formatInto separators fmt args held = .ok filled ∧
        (formatWithin separators fmt args).run held =
          .ok (filled.length, filled.truncated) filled.dest ∧
        filled.dest.length = held.length ∧ Fills bytes held filled := by
  have hinto := formatInto_eq separators fmt args held
  have hrun := run_formatWithin separators fmt args held
  cases hencoded : encoded separators fmt args with
  | error fault =>
    rw [hencoded] at hinto hrun
    exact ⟨hinto, hrun⟩
  | ok bytes =>
    rw [hencoded] at hinto hrun
    obtain ⟨codes, rfl, hcodes⟩ := exists_codes_of_encoded hencoded
    have hfills := fills_fillBuffer hcodes held
    exact ⟨_, hinto, hrun.trans (run_fillWith _ held), hfills.length_dest, hfills⟩

/-- Of the text `aé!` a buffer of three bytes takes the first letter alone: the next code point has
two bytes, and the zero byte needs one. -/
example :
    let text := [0x61, 0xE9, 0x21]
    fillBuffer (utf8.encodeAll text) [0xAA, 0xAA, 0xAA] = ⟨4, true, [0x61, 0, 0xAA]⟩ := by
  decide

end TextUnits.Format
