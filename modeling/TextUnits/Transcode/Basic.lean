import TextUnits.Encoding.Decode
import TextUnits.Encoding.Encode
import TextUnits.Encoding.Mark
import TextUnits.Number.Double

/-!
# Conversion between encodings

A `Request` names a source, its encoding and order, the encoding and order of the result, and
how strict to be. `Request.convert` runs it into a destination, given by the units that it held
before; without a destination it only measures. The source is cut into decoding steps first,
and `Reading.take` then keeps the code points that fit, so measuring and writing read the same
steps. The answer counts the units produced and the units consumed, also when it fails.
-/

namespace TextUnits

/-- How a conversion ended. -/
inductive Status where
  /-- The whole source was converted. -/
  | success
  /-- No source, a length that does not fit it, or a sequence cut off by its end. -/
  | invalidArgument
  /-- Malformed input under strict decoding. -/
  | invalidCodePoint
  /-- A byte order mark where none was allowed. -/
  | markRejected
  /-- No room for the next code point. -/
  | outOfSpace
  deriving DecidableEq, Repr, Inhabited

/-- Result counts of a conversion. -/
structure Outcome where
  /-- How it ended. -/
  status : Status
  /-- Units produced, without a terminator; when measuring, the units that are needed. -/
  length : Nat
  /-- Units consumed, a byte order mark included. -/
  processed : Nat
  deriving DecidableEq, Repr, Inhabited

/-- What a conversion refuses. -/
structure Strictness where
  /-- A byte order mark is refused instead of passed over. -/
  forbidMark : Bool
  /-- Malformed input is refused instead of replaced. -/
  refuseInvalid : Bool
  deriving DecidableEq, Repr, Inhabited

namespace Strictness

/-- Nothing is refused. -/
def lenient : Strictness := ⟨false, false⟩

/-- Reading of a bit mask: bit 1 refuses a mark, bit 2 malformed input; others are ignored. -/
def ofMask (mask : Int) : Strictness := ⟨mask / 2 % 2 == 1, mask / 4 % 2 == 1⟩

/-- The bit mask that `ofMask` reads back. -/
def toMask (s : Strictness) : Nat :=
  (if s.forbidMark then 2 else 0) + (if s.refuseInvalid then 4 else 0)

/-- Reading a mask back gives the strictness it was made from. -/
theorem ofMask_toMask (s : Strictness) : ofMask s.toMask = s := by
  rcases s with ⟨a, b⟩
  cases a <;> cases b <;> rfl

end Strictness

/-- A conversion without its destination. -/
structure Request (source target : Encoding) where
  /-- Units to read; a request may lack them. -/
  units : Option (List source.Unit)
  /-- Order the source is stored in. -/
  sourceOrder : SourceOrder
  /-- Order the result is stored in. -/
  targetOrder : TargetOrder
  /-- What is refused. -/
  strictness : Strictness
  /-- Units to read of the source: all without a length, those before the first zero for -1. -/
  length : Option Double

/-- The units that a length selects, or nothing when it does not fit the source. -/
def selectUnits (e : Encoding) (length : Option Double) (units : List e.Unit) :
    Option (List e.Unit) :=
  match length with
  | none => some units
  | some x =>
    match x.toInt? with
    | none => none
    | some n =>
      if n = -1 then some (units.takeWhile fun u => e.value u != 0)
      else if 0 ≤ n ∧ n ≤ units.length then some (units.take n.toNat)
      else none

/-- What a conversion reads before it stops. -/
structure Reading where
  /-- Why it stops. -/
  status : Status
  /-- Code points to write, replacements included. -/
  codes : List Nat
  /-- Units of the source they take. -/
  size : Nat
  deriving DecidableEq, Repr

namespace Reading

/-- A code point put in front of a reading, with the units it takes. -/
def push (code size : Nat) (rest : Reading) : Reading :=
  ⟨rest.status, code :: rest.codes, size + rest.size⟩

/-- Reads steps while the encoded code points fit into `room`; no room given means no limit. -/
def take (target : Encoding) (refuseInvalid : Bool) : Option Nat → List Step → Reading
  | _, [] => ⟨.success, [], 0⟩
  | room, step :: rest =>
    match step.code? with
    | none => ⟨.invalidArgument, [], 0⟩
    | some code =>
      if step = .invalid step.size ∧ refuseInvalid then ⟨.invalidCodePoint, [], 0⟩
      else
        match room with
        | none => push code step.size (take target refuseInvalid none rest)
        | some free =>
          if target.width code ≤ free then
            push code step.size
              (take target refuseInvalid (some (free - target.width code)) rest)
          else ⟨.outOfSpace, [], 0⟩

end Reading

/-- Units laid over the front of what a destination held. -/
def overlay {α : Type} (written held : List α) : List α := written ++ held.drop written.length

/-- A conversion's counts and its destination afterwards. -/
structure Converted (target : Encoding) where
  /-- Status and counts. -/
  outcome : Outcome
  /-- Units of the destination afterwards, if there was one. -/
  dest : Option (List target.Unit)

namespace Request

variable {source target : Encoding}

/-- Refusal before anything is read: no counts, and the destination stays as it was. -/
def refuse (status : Status) (dest : Option (List target.Unit)) : Converted target :=
  ⟨⟨status, 0, 0⟩, dest⟩

/-- Whether a zero unit follows the result when there is room for it. -/
def terminates (status : Status) : Bool := status == .success || status == .outOfSpace

/-- Destination after the code points of a reading were written in `order`. -/
def fill (order : Order) (reading : Reading) (held : List target.Unit) : List target.Unit :=
  let written := (target.encodeAll reading.codes).map (target.reorder order)
  let closed := if terminates reading.status ∧ written.length < held.length
    then written ++ [target.unit 0] else written
  overlay closed held

/-- Runs a conversion into a destination that held the given units; without a destination the
result is only measured. -/
def convert (r : Request source target) (dest : Option (List target.Unit)) : Converted target :=
  match r.units with
  | none => refuse .invalidArgument dest
  | some all =>
    match selectUnits source r.length all with
    | none => refuse .invalidArgument dest
    | some units =>
      let mark := source.markOf? units
      if mark.isSome ∧ r.strictness.forbidMark then refuse .markRejected dest
      else
        let skipped := (mark.map (·.size)).getD 0
        let order := r.sourceOrder.resolve (mark.bind (·.order))
        let body := (units.drop skipped).map (source.reorder order)
        let reading := Reading.take target r.strictness.refuseInvalid (dest.map List.length)
          (source.steps body)
        ⟨⟨reading.status, target.widthAll reading.codes, skipped + reading.size⟩,
          dest.map (fill r.targetOrder.resolve reading)⟩

/-- Counts of a conversion that writes nothing. -/
def measure (r : Request source target) : Outcome := (r.convert none).outcome

end Request

end TextUnits
