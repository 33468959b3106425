import TextUnits.Fault.Basic
import TextUnits.Number.Sum
import TextUnits.Path

/-!
# Stretches of paths

A stretch of a path is given by an offset and a length that may be any numbers. Steps from it to
the segments around it move by whole units, so that a fraction stays with every place; a unit is
pointed at by the whole part of a place.
-/

namespace TextUnits.Path

/-- A stretch of a path. -/
structure Stretch where
  /-- Where it starts. -/
  offset : Double
  /-- How long it is. -/
  length : Double
  deriving DecidableEq, Repr

/-- The number one. -/
def one : Double := Double.ofNat 1

/-- Whether a place points at a unit that separates segments. What is no number points at the
first unit. -/
def separatorAt (path : Text) (p : Double) : Bool :=
  let n := if p.isNaN then some 0 else p.trunc?
  n.any fun n => 0 ≤ n && path[n.toNat]?.any isSeparator

/-- A place moved by a distance as long as a test holds for it, at most so many times. -/
def moved (test : Double → Bool) (distance : Double) : Nat → Double → Double
  | 0, p => p
  | n + 1, p => if test p then moved test distance n (p.add distance) else p

/-- A place moved forwards inside a path as long as it points at separators, or at others. -/
def forwards (path : Text) (overSeparators : Bool) (p : Double) : Double :=
  moved (fun p => p.below path.length && separatorAt path p == overSeparators) one
    (path.length + 1) p

/-- A place moved backwards as long as separators, or others, are in front of it. -/
def backwards (path : Text) (overSeparators : Bool) (p : Double) : Double :=
  moved (fun p => p.above 0 && separatorAt path (p.sub one) == overSeparators) one.neg
    ((p.naturalsBelow?).getD 0) p

/-- The place in a text of some length that a number stands for: its whole part, from the end on
if it is negative, and moved to the nearer end if it lies outside. What is no number stands for
the start. -/
def position (length : Nat) (p : Double) : Nat :=
  match p.trunc? with
  | some n => if n < 0 then (length + n).toNat else min n.toNat length
  | none => if p.above 0 then length else 0

namespace Stretch

/-- Where a stretch ends. -/
def finish (s : Stretch) : Double := s.offset.add s.length

/-- Whether a stretch reaches beyond its path. -/
def isOutside (s : Stretch) (path : Text) : Bool :=
  s.offset.below 0 || s.length.below 0 || s.finish.above path.length

/-- Text of a stretch, which need not lie inside the path. -/
def text (s : Stretch) (path : Text) : Text :=
  (path.take (position path.length s.finish)).drop (position path.length s.offset)

/-- The stretch between two places. -/
def between (start finish : Double) : Stretch := ⟨start, finish.sub start⟩

/-- The segment behind a stretch, which must lie inside the path. -/
def next? (s : Stretch) (path : Text) : Except Fault (Option Stretch) :=
  if s.isOutside path then .error (.segmentOutside s.offset s.length)
  else
    let start := forwards path true s.finish
    if start.above path.length || start.isWhole path.length then .ok none
    else .ok (some (between start (forwards path false start)))

/-- The segment in front of a stretch, which must lie inside the path: the root when only
separators stand there, and none in front of the start. -/
def previous? (s : Stretch) (path : Text) : Except Fault (Option Stretch) :=
  if s.isOutside path then .error (.segmentOutside s.offset s.length)
  else if s.offset.isWhole 0 then .ok none
  else
    let finish := backwards path true s.offset
    if finish.isWhole 0 then .ok (some ⟨Double.zero false, Double.zero false⟩)
    else .ok (some (between (backwards path false finish) finish))

end Stretch

end TextUnits.Path
