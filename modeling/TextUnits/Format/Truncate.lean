import TextUnits.Format.Writer
import TextUnits.Transcode.Whole

/-!
# Formatting into a buffer

Formatted text is encoded as UTF-8 into a buffer of fixed size, always with a zero byte behind
it. Text that does not fit is cut in front of the code point that does not fit.
-/

namespace TextUnits.Format

/-- Result of formatting into a buffer. -/
structure Filled where
  /-- Bytes of the whole text, without the zero byte. -/
  length : Nat
  /-- Whether the text did not fit. -/
  truncated : Bool
  /-- Bytes of the buffer afterwards. -/
  dest : List UInt8
  deriving DecidableEq, Repr

/-- Largest number of bytes up to `count` that ends in front of a byte that starts a code
point. -/
def boundary (bytes : List UInt8) : Nat → Nat
  | 0 => 0
  | count + 1 =>
    if (bytes[count + 1]?).any fun b => Scalar.isContinuation b.toNat then boundary bytes count
    else count + 1

/-- Writes bytes and a zero byte into a buffer that held the given bytes. -/
def fillBuffer (bytes held : List UInt8) : Filled :=
  if held.isEmpty then ⟨bytes.length, !bytes.isEmpty, held⟩
  else
    let room := min bytes.length (held.length - 1)
    let count := if room < bytes.length then boundary bytes room else room
    ⟨bytes.length, decide (count < bytes.length), overlay (bytes.take count ++ [0]) held⟩

/-- Formats into a buffer that held the given bytes. -/
def formatInto (separators : Separators) (fmt : Text) (args : List Argument)
    (held : List UInt8) : Except Fault Filled := do
  let text ← format separators fmt args
  let bytes ← Text.toUtf8 text .default
  return fillBuffer bytes held

end TextUnits.Format
