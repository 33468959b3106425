import TextUnits.Encoding.Wire

/-!
# Arrays of bytes in memory

An array of bytes is a `Window` on some memory, and other arrays may show the same memory. A slice
of an array is a copy with memory of its own, unless the array is of the kind whose slices show the
memory that it shows itself. Units wider than a byte are laid over the memory of a slice from its
start, wherever in it the slice begins, so they are those of the array only when the slice begins
there or the memory happens to hold the same bytes.
-/

namespace TextUnits

/-- An array of bytes: a stretch of some memory. -/
structure Window where
  /-- Bytes of the memory. -/
  memory : List UInt8
  /-- Where in the memory the array begins. -/
  offset : Nat
  /-- How many bytes the array has. -/
  length : Nat
  /-- Whether slices of the array show its memory; those of other arrays are copies. -/
  shares : Bool
  /-- The array lies within the memory. -/
  fits : offset + length ≤ memory.length

namespace Window

/-- The bytes of an array. -/
def bytes (w : Window) : List UInt8 := (w.memory.drop w.offset).take w.length

/-- An array with memory of its own. -/
def ofBytes (bytes : List UInt8) : Window := ⟨bytes, 0, bytes.length, false, by omega⟩

/-- An array behind other bytes of its memory, whose slices show that memory. -/
def behind (front bytes : List UInt8) : Window :=
  ⟨front ++ bytes, front.length, bytes.length, true, by simp⟩

/-- A slice of all of an array. -/
def slice (w : Window) : Window := if w.shares then w else ofBytes w.bytes

/-- The bytes that the units of an encoding are made of when an array is to be read: those of a
slice of the array, or as many from the start of the memory of the slice. -/
def readAs (w : Window) : Encoding → List UInt8
  | .utf8 => w.slice.bytes
  | .utf16 | .utf32 => w.slice.memory.take w.slice.length

variable (w : Window) (e : Encoding)

@[simp] theorem length_bytes : w.bytes.length = w.length := by
  have hfits := w.fits
  rw [bytes, List.length_take, List.length_drop]
  omega

@[simp] theorem length_ofBytes (bytes : List UInt8) : (ofBytes bytes).length = bytes.length := rfl

@[simp] theorem bytes_ofBytes (bytes : List UInt8) : (ofBytes bytes).bytes = bytes :=
  List.take_length

@[simp] theorem bytes_behind (front bytes : List UInt8) : (behind front bytes).bytes = bytes := by
  change ((front ++ bytes).drop front.length).take bytes.length = bytes
  rw [List.drop_left, List.take_length]

/-- An array whose slices are copies is read as it is. -/
theorem readAs_of_not_shares {w : Window} (h : w.shares = false) : w.readAs e = w.bytes := by
  have hslice : w.slice = ofBytes w.bytes := by
    rw [slice, h]
    rfl
  have hfront : (ofBytes w.bytes).memory.take (ofBytes w.bytes).length = w.bytes := List.take_length
  cases e with
  | utf8 => rw [readAs, hslice, bytes_ofBytes]
  | utf16 => rw [readAs, hslice, hfront]
  | utf32 => rw [readAs, hslice, hfront]

/-- Wider units of an array that shares its memory are read at the start of that memory. -/
theorem readAs_of_shares {w : Window} (h : w.shares = true) :
    w.readAs e = if e = .utf8 then w.bytes else w.memory.take w.length := by
  have hslice : w.slice = w := by rw [slice, h, if_pos rfl]
  cases e with
  | utf8 => rw [readAs, hslice, if_pos rfl]
  | utf16 => rw [readAs, hslice, if_neg (by decide)]
  | utf32 => rw [readAs, hslice, if_neg (by decide)]

@[simp] theorem readAs_ofBytes (bytes : List UInt8) : (ofBytes bytes).readAs e = bytes := by
  rw [readAs_of_not_shares e rfl, bytes_ofBytes]

/-- As many bytes are read as the array has. -/
@[simp] theorem length_readAs : (w.readAs e).length = w.length := by
  cases h : w.shares with
  | false => rw [readAs_of_not_shares e h, length_bytes]
  | true =>
    have hfits := w.fits
    rw [readAs_of_shares e h]
    split
    · exact w.length_bytes
    · rw [List.length_take]
      omega

end Window

end TextUnits
