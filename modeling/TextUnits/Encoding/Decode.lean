import TextUnits.Encoding.Basic
import TextUnits.Scalar

/-!
# Decoding one code point

`Encoding.decode` reads the code point at the front of units in the order of the host. Its
answer is a `Step`: a scalar value with the units it takes, malformed input with the units to
pass over, or a sequence that the end of the input cuts off. `Encoding.steps` walks a whole
source this way and stops behind a sequence cut off.
-/

namespace TextUnits

/-- What stands at the front of a source. -/
inductive Step where
  /-- A scalar value and how many units it takes. -/
  | scalar (code size : Nat)
  /-- Malformed input and how many units of it to pass over. -/
  | invalid (size : Nat)
  /-- A sequence that continues past the end of the source. -/
  | truncated
  deriving DecidableEq, Repr

namespace Step

/-- Units that a step takes. -/
def size : Step → Nat
  | scalar _ n => n
  | invalid n => n
  | truncated => 0

/-- Code point read leniently: the replacement for malformed input, none at a cut. -/
def code? : Step → Option Nat
  | scalar c _ => some c
  | invalid _ => some Scalar.replacement
  | truncated => none

end Step

namespace Encoding

/-- Length of the UTF-8 sequence that a lead byte announces; none for a byte that is no lead. -/
def leadSize? (lead : Nat) : Option Nat :=
  if lead < 0xC0 then none
  else if lead < 0xE0 then some 2
  else if lead < 0xF0 then some 3
  else if lead < 0xF8 then some 4
  else none

/-- Number formed by the payload bits of a lead byte and of the bytes behind it. -/
def assemble (lead : Nat) (rest : List UInt8) : Nat :=
  let head :=
    match rest.length with
    | 1 => lead % 0x20
    | 2 => lead % 0x10
    | _ => lead % 0x08
  rest.foldl (fun n b => n * 0x40 + b.toNat % 0x40) head

/-- The code point at the front of UTF-8 text. A byte that starts no sequence, and a lead with
a wrong byte behind it, are passed over alone; a sequence for a surrogate or for a value beyond
the last code point is passed over whole. Longer forms than needed are read as the value they
denote. -/
def decodeUtf8 : List UInt8 → Step
  | [] => .truncated
  | b :: rest =>
    let lead := b.toNat
    if lead < 0x80 then .scalar lead 1
    else if Scalar.isForbiddenOctet lead then .invalid 1
    else
      match leadSize? lead with
      | none => .invalid 1
      | some size =>
        let tail := rest.take (size - 1)
        if tail.length < size - 1 then .truncated
        else if tail.all (fun c => Scalar.isContinuation c.toNat) then
          let code := assemble lead tail
          if Scalar.isScalar code then .scalar code size else .invalid size
        else .invalid 1

/-- The code point at the front of UTF-16 text. A surrogate without its other half is passed
over alone, and a first half that ends the text is cut off. -/
def decodeUtf16 : List UInt16 → Step
  | [] => .truncated
  | u :: rest =>
    let first := u.toNat
    if !Scalar.isSurrogate first then .scalar first 1
    else if Scalar.isLowSurrogate first then .invalid 1
    else
      match rest with
      | [] => .truncated
      | v :: _ =>
        if Scalar.isLowSurrogate v.toNat then .scalar (Scalar.joinPair first v.toNat) 2
        else .invalid 1

/-- The code point at the front of UTF-32 text. -/
def decodeUtf32 : List UInt32 → Step
  | [] => .truncated
  | u :: _ => if Scalar.isScalar u.toNat then .scalar u.toNat 1 else .invalid 1

/-- The code point at the front of units in the order of the host. -/
def decode : (e : Encoding) → List e.Unit → Step
  | utf8, units => decodeUtf8 units
  | utf16, units => decodeUtf16 units
  | utf32, units => decodeUtf32 units

/-- The steps from the front of a source to its end, or to the first sequence that is cut
off. Every step but a cut takes at least one unit. -/
def steps (e : Encoding) : List e.Unit → List Step
  | [] => []
  | u :: rest =>
    match e.decode (u :: rest) with
    | .truncated => [.truncated]
    | step => step :: steps e (rest.drop (step.size - 1))
termination_by units => units.length
decreasing_by simp only [List.length_drop, List.length_cons]; omega

end Encoding

end TextUnits
