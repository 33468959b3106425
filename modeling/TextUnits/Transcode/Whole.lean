import TextUnits.Encoding.Window
import TextUnits.Fault.Basic

/-!
# Whole conversions

Conversions that make their own destination: the source is measured, and then converted into
exactly the room it needs. Between text and encoded units, and between byte streams.
-/

namespace TextUnits

/-- How a source is to be read as a whole. -/
structure ReadOptions where
  /-- What is refused. -/
  strictness : Strictness
  /-- Units to read, as in a `Request`. -/
  length : Option Double

/-- All of the source, nothing refused. -/
def ReadOptions.default : ReadOptions := ⟨.lenient, none⟩

namespace Request

/-- The fault that a status stands for, unless it is success; it tells how many units were read
and written. -/
def failureWith? (status : Status) (processed length : Double) (source target : Encoding)
    (capacity : Option Double) : Option Fault :=
  if status = .success then none
  else some (.conversion status processed length source target capacity)

/-- The fault that a conversion's outcome stands for, unless it succeeded. -/
def failure? (outcome : Outcome) (source target : Encoding) (capacity : Option Double) :
    Option Fault :=
  failureWith? outcome.status (Double.ofNat outcome.processed) (Double.ofNat outcome.length)
    source target capacity

/-- Converts into a destination of the size that measuring asks for. A failure to write tells
the measured size as its capacity when `tellCapacity` is set. -/
def whole {source target : Encoding} (r : Request source target) (tellCapacity : Bool) :
    Except Fault (List target.Unit) :=
  let measured := r.measure
  match failure? measured source target none with
  | some fault => .error fault
  | none =>
    let room := List.replicate measured.length (target.unit 0)
    let done := r.convert (some room)
    let capacity := if tellCapacity then some (Double.ofNat measured.length) else none
    match failure? done.outcome source target capacity with
    | some fault => .error fault
    | none => .ok (done.dest.getD [])

end Request

namespace Text

/-- UTF-8 bytes of a text. An unpaired surrogate becomes the replacement, but one that starts
a pair at the very end is a fault. -/
def toUtf8 (t : Text) (options : ReadOptions) : Except Fault (List UInt8) :=
  let r : Request .utf16 .utf8 :=
    ⟨some t, .native, .native, options.strictness, options.length⟩
  r.whole false

/-- Text of UTF-8 bytes; a mark at the start is passed over. -/
def ofUtf8 (bytes : List UInt8) (options : ReadOptions) : Except Fault Text :=
  let r : Request .utf8 .utf16 :=
    ⟨some bytes, .detect, .native, options.strictness, options.length⟩
  r.whole false

/-- Text of UTF-16 units stored in some order. -/
def ofUtf16 (units : List UInt16) (order : SourceOrder) (options : ReadOptions) :
    Except Fault Text :=
  let r : Request .utf16 .utf16 :=
    ⟨some units, order, .native, options.strictness, options.length⟩
  r.whole false

/-- Text of UTF-32 units whose order a mark may show. -/
def ofUtf32 (units : List UInt32) (options : ReadOptions) : Except Fault Text :=
  let r : Request .utf32 .utf16 :=
    ⟨some units, .detect, .native, options.strictness, options.length⟩
  r.whole false

/-- UTF-32 units of a text, stored in some order. -/
def toUtf32 (t : Text) (order : TargetOrder) : Except Fault (List UInt32) :=
  let r : Request .utf16 .utf32 :=
    ⟨some t, .native, order, .lenient, none⟩
  r.whole false

/-- UTF-16 units of a text, stored in some order. In the order of the host they are the units
of the text; otherwise the text is converted into as many units as it has. -/
def toUtf16 (t : Text) : TargetOrder → Except Fault (List UInt16)
  | .native => .ok t
  | order =>
    let r : Request .utf16 .utf16 := ⟨some t, .native, order, .lenient, none⟩
    let done := r.convert (some (List.replicate t.length 0))
    match Request.failure? done.outcome .utf16 .utf16 none with
    | some fault => .error fault
    | none => .ok (done.dest.getD [])

end Text

namespace Wire

/-- An array of bytes of one encoding as bytes of another. A mark in the source is passed over and
none is written. The units of the source are those that a slice of the array is read as. -/
def transcodeWindow (w : Window) (source target : Wire) (options : ReadOptions) :
    Except Fault (List UInt8) :=
  if w.length % source.base.unitBytes ≠ 0 then
    .error (.unevenBytes source.base target.base)
  else
    let r : Request source.base target.base :=
      ⟨some (source.base.unitsOf (w.readAs source.base)), .fixed source.order,
        .fixed target.order, options.strictness, options.length⟩
    match r.whole true with
    | .error fault => .error fault
    | .ok units => .ok (target.base.bytesOf units)

/-- Bytes of one encoding, in memory of their own, as bytes of another. -/
def transcode (bytes : List UInt8) (source target : Wire) (options : ReadOptions) :
    Except Fault (List UInt8) :=
  transcodeWindow (.ofBytes bytes) source target options

end Wire

end TextUnits
