import TextUnits.Format.Writer
import TextUnits.Scan
import TextUnits.Text.Lossy
import TextUnits.Transcode.Whole

/-!
# Strings that grow in place

A `Buffer` is a string of bytes at the front of the slots reserved for it, with a limit that the
slots may not pass. An `Edit` changes a buffer in place. All edits come down to `splice`, which
makes room if there is too little, moves what stands behind the bytes to replace and writes others
over them. The room never shrinks, and it grows to exactly what is needed. An edit that cannot be
done ends with a fault, and the buffer is then as the edit has left it.
-/

namespace TextUnits

/-- A string of bytes with reserved room. -/
structure Buffer where
  /-- All bytes of the room: in front those of the string, behind them what longer strings have
  left there. -/
  slots : List UInt8
  /-- Bytes of the string. -/
  length : Nat
  /-- Most bytes it may come to have room for. -/
  limit : Nat
  /-- Separators for operations that format. -/
  separators : Format.Separators
  deriving DecidableEq, Repr

/-- Options of a new buffer. -/
structure BufferOptions where
  /-- Most bytes it may have room for; all safe integers when not given. -/
  limit : Option Double
  /-- Separators for operations that format; the default ones when not given. -/
  separators : Option Format.Separators

/-- No option given. -/
def BufferOptions.default : BufferOptions := ⟨none, none⟩

/-- The separators that options stand for. -/
def BufferOptions.resolved (o : BufferOptions) : Format.Separators :=
  o.separators.getD .default

/-- What an operation takes as bytes. -/
inductive Input where
  /-- A text, to be encoded as UTF-8. -/
  | text (t : Text)
  /-- Bytes as they are. -/
  | bytes (bs : List UInt8)
  /-- The content of the buffer itself. -/
  | itself
  deriving DecidableEq, Repr

/-- The natural that a number stands for as a size or an offset: a safe integer that is not
negative. -/
def sizeOf? (x : Double) : Option Nat :=
  match x.toSafeInt? with
  | some n => if 0 ≤ n then some n.toNat else none
  | none => none

namespace Buffer

/-- The bytes it holds. -/
def content (b : Buffer) : List UInt8 := b.slots.take b.length

/-- Bytes it has room for. -/
def capacity (b : Buffer) : Nat := b.slots.length

/-- The content as text. -/
def text (b : Buffer) : Text := Text.ofBytes b.content

/-- A change of a buffer in place. A fault ends it and leaves the buffer as it is by then. -/
abbrev Edit := EStateM Fault Buffer Unit

/-- The buffer behind an edit, unless the edit ends with a fault. -/
def Edit.result (e : Edit) (b : Buffer) : Except Fault Buffer :=
  match e b with
  | .ok _ changed => .ok changed
  | .error fault _ => .error fault

/-- The refusal of an argument, told by its parts. -/
def invalid (parts : List Text) : Fault := .invalidStringArgument parts.flatten

/-- An empty buffer with some room. -/
def withCapacity (capacity : Double) (o : BufferOptions) : Except Fault Buffer :=
  let limit := o.limit.getD (Double.ofNat Double.maxSafe)
  match sizeOf? capacity with
  | none => .error (invalid
      [Text.ofString "capacity must be a non-negative integer, got ", capacity.text])
  | some room =>
    match sizeOf? limit with
    | none => .error (invalid
        [Text.ofString "maxCapacity must be a non-negative integer, got ", limit.text])
    | some most =>
      if most < room then .error (.capacityExceeded room most)
      else .ok ⟨List.replicate room 0, 0, most, o.resolved⟩

/-- Bytes written over those from `offset` on. -/
def overwrite (offset : Nat) (written slots : List UInt8) : List UInt8 :=
  slots.take offset ++ overlay written (slots.drop offset)

/-- The bytes from `first` to before `finish` copied to the place `target`, however the two places
overlap. Bytes that would come to lie behind the last slot are left out. -/
def moveWithin (target first finish : Nat) (slots : List UInt8) : List UInt8 :=
  overwrite target (((slots.take finish).drop first).take (slots.length - target)) slots

/-- Makes room for at least `required` bytes. Room that is too small grows to exactly that, unless
the limit is passed, and takes over the content alone. -/
def reserve (required : Nat) : Edit := do
  let b ← get
  if required ≤ b.capacity then return ()
  else if b.limit < required then throw (.capacityExceeded required b.limit)
  else modify fun b => { b with slots := overlay b.content (List.replicate required 0) }

/-- Replaces the `removed` bytes behind `offset` by others. -/
def splice (offset removed : Nat) (inserted : List UInt8) : Edit := do
  let b ← get
  let required := b.length - removed + inserted.length
  reserve required
  modify fun b =>
    { b with slots := moveWithin (offset + inserted.length) (offset + removed) b.length b.slots }
  modify fun b => { b with slots := overwrite offset inserted b.slots, length := required }

/-- The bytes that an input stands for. -/
def bytesOf (b : Buffer) : Input → Except Fault (List UInt8)
  | .text t => Text.toUtf8 t .default
  | .bytes bs => .ok bs
  | .itself => .ok b.content

/-- Replaces the content. -/
def set (input : Input) : Edit := do
  let b ← get
  let bytes ← ofExcept (b.bytesOf input)
  splice 0 b.length bytes

/-- Puts bytes behind the content. -/
def append (input : Input) : Edit := do
  let b ← get
  let bytes ← ofExcept (b.bytesOf input)
  splice b.length 0 bytes

/-- Puts bytes in front of the content. -/
def prepend (input : Input) : Edit := do
  let b ← get
  let bytes ← ofExcept (b.bytesOf input)
  splice 0 0 bytes

/-- A formatted text as input. -/
def formatted (b : Buffer) (fmt : Text) (args : List Format.Argument) : Except Fault Input := do
  return .text (← Format.format b.separators fmt args)

/-- The refusal of a range to remove. -/
def rangeRefusal (first finish : Double) : Fault :=
  invalid [Text.ofString "range ", first.text, Text.ofString "..", finish.text,
    Text.ofString " must use non-negative integers"]

/-- Removes the bytes from `first` to before `finish`. A range that starts behind the content or
runs backwards removes nothing. -/
def removeRange (first finish : Double) : Edit := do
  match sizeOf? first, sizeOf? finish with
  | some start, some stop =>
    let b ← get
    if stop < start ∨ b.length < start then return ()
    else splice start (min stop b.length - start) []
  | _, _ => throw (rangeRefusal first finish)

/-- The refusal of a range to replace. -/
def replaceRefusal (offset count : Double) : Fault :=
  invalid [Text.ofString "replace range ", offset.text, Text.ofString "+", count.text,
    Text.ofString " must use non-negative integers"]

/-- Replaces the `count` bytes behind `offset`. A range that reaches past the end replaces
nothing. -/
def replace (offset count : Double) (input : Input) : Edit := do
  match sizeOf? offset, sizeOf? count with
  | some start, some removed =>
    let b ← get
    if b.length < start + removed then return ()
    else
      let bytes ← ofExcept (b.bytesOf input)
      splice start removed bytes
  | _, _ => throw (replaceRefusal offset count)

/-- Bytes with the occurrences of a sequence replaced, from the left and without overlap. What
was put in is not searched again. -/
def replaceIn (query replacement : List UInt8) : List UInt8 → List UInt8
  | [] => []
  | b :: rest =>
    if Sequence.begins query (b :: rest) then
      replacement ++ replaceIn query replacement (rest.drop (query.length - 1))
    else b :: replaceIn query replacement rest
termination_by bytes => bytes.length
decreasing_by
  · simp only [List.length_drop, List.length_cons]; omega
  · simp

/-- Replaces all occurrences of a sequence. An empty sequence, or one that does not occur, replaces
nothing. -/
def replaceAll (query replacement : Input) : Edit := do
  let b ← get
  let sought ← ofExcept (b.bytesOf query)
  if sought.isEmpty then return ()
  else
    let inserted ← ofExcept (b.bytesOf replacement)
    if (Sequence.indexOf? sought b.content).isNone then return ()
    else splice 0 b.length (replaceIn sought inserted b.content)

/-- Bytes without the blanks at both ends. -/
def trimmed (bytes : List UInt8) : List UInt8 :=
  (bytes.take (Scan.content bytes)).drop (Scan.leading bytes)

/-- Removes the blanks at both ends of the content. -/
def trim : Edit := do
  let b ← get
  splice 0 b.length (trimmed b.content)

/-- A buffer with the given content, and room for exactly that. -/
def ofBytes (bytes : List UInt8) (o : BufferOptions) : Except Fault Buffer := do
  let b ← withCapacity (Double.ofNat bytes.length) o
  (set (.bytes bytes)).result b

/-- A buffer with the bytes of a text. -/
def ofText (t : Text) (o : BufferOptions) : Except Fault Buffer := do
  ofBytes (← Text.toUtf8 t .default) o

/-- A buffer with the first bytes of a sequence. -/
def ofSpan (bytes : List UInt8) (length : Double) (o : BufferOptions) : Except Fault Buffer :=
  match sizeOf? length with
  | some n =>
    if bytes.length < n then .error (exceeds length bytes) else ofBytes (bytes.take n) o
  | none => .error (exceeds length bytes)
where
  /-- The refusal of a length that does not fit. -/
  exceeds (length : Double) (bytes : List UInt8) : Fault :=
    invalid [Text.ofString "span length ", length.text, Text.ofString " exceeds ",
      Numeral.decimal bytes.length, Text.ofString " bytes"]

/-- A buffer with a formatted text. -/
def ofFormat (fmt : Text) (args : List Format.Argument) (o : BufferOptions) :
    Except Fault Buffer := do
  ofText (← Format.format o.resolved fmt args) o

end Buffer

end TextUnits
