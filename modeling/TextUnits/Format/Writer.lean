import TextUnits.Format.Render

/-!
# Formatted output in chunks

A writer hands units to a receiver in chunks of a fixed size, and what is left over when it is
flushed. The receiver may ask to stop with any chunk. `run` walks a format string and gives literal
text and fields to a writer, and counters the writer's position. It ends when the writer has
stopped, so no fault arises from what stands behind that place, and otherwise with the first fault.
`format` joins the chunks of a receiver that never stops.
-/

namespace TextUnits.Format

/-- Units of a chunk. -/
def chunkSize : Nat := 512

/-- Whether a receiver wants more, told all chunks that it has, the newest one last. -/
abbrev Receiver : Type := List Text → Bool

/-- Output on its way to a receiver. -/
structure Writer where
  /-- Units that are not handed over yet. -/
  pending : Text
  /-- Whether the receiver has asked to stop. -/
  stopped : Bool
  /-- Units handed over. -/
  delivered : Nat
  /-- Chunks that the receiver has, in order. -/
  chunks : List Text

namespace Writer

/-- A writer at the start. -/
def start : Writer := ⟨[], false, 0, []⟩

/-- Hands over a chunk and hears whether more is wanted. -/
def deliver (receiver : Receiver) (w : Writer) (chunk : Text) : Writer where
  pending := w.pending
  stopped := w.stopped || !receiver (w.chunks ++ [chunk])
  delivered := w.delivered + chunk.length
  chunks := w.chunks ++ [chunk]

/-- Hands over full chunks until fewer units are pending or the receiver stops. -/
def drain (receiver : Receiver) (w : Writer) : Writer :=
  if _full : w.stopped = false ∧ chunkSize ≤ w.pending.length then
    let handed := w.deliver receiver (w.pending.take chunkSize)
    drain receiver { handed with pending := w.pending.drop chunkSize }
  else w
termination_by w.pending.length
decreasing_by
  simp only [List.length_drop, chunkSize] at *
  omega

/-- Takes a text. -/
def write (receiver : Receiver) (w : Writer) (t : Text) : Writer :=
  drain receiver { w with pending := w.pending ++ t }

/-- Hands over what is pending, unless the receiver has stopped. -/
def flush (receiver : Receiver) (w : Writer) : Writer :=
  if w.stopped = false ∧ 0 < w.pending.length then
    { w.deliver receiver w.pending with pending := [] }
  else w

/-- Units taken so far, handed over or pending. -/
def position (w : Writer) : Nat := w.delivered + w.pending.length

/-- Units that the receiver has. -/
def emitted (w : Writer) : Nat := w.delivered

end Writer

/-- What a walk over a format string leaves behind. -/
structure Outcome where
  /-- The writer. -/
  writer : Writer
  /-- The counters told, by their places among the arguments, and what they were told. -/
  notes : List (Nat × Nat)
  /-- The fault that ended the walk, if one did. -/
  fault : Option Fault

/-- Arguments after a counter was told how much was written. -/
def tell (args : List Argument) (note : Nat × Nat) : List Argument :=
  args.set note.1 (.counter (Double.ofNat note.2))

/-- Arguments after the walk. -/
def Outcome.arguments (o : Outcome) (args : List Argument) : List Argument :=
  o.notes.foldl tell args

/-- Walk over a format string with a writer that has not stopped, and some counters told. -/
def run (receiver : Receiver) (separators : Separators) (t : Text) (w : Writer)
    (notes : List (Nat × Nat)) (s : Supply) : Outcome :=
  match _run : literalRun t with
  | (before, none) => ⟨if before.isEmpty then w else w.write receiver before, notes, none⟩
  | (before, some behind) =>
    let w := if before.isEmpty then w else w.write receiver before
    if !before.isEmpty && w.stopped then ⟨w, notes, none⟩
    else
      let parsed := Directive.parse behind
      match parsed.1.conversion with
      | none => ⟨w, notes, none⟩
      | some letter =>
        match pieceOf parsed.1 letter separators w.position s with
        | .error fault => ⟨w, notes, some fault⟩
        | .ok (.count argument position, s) =>
          run receiver separators parsed.2 w (notes ++ [(argument, position)]) s
        | .ok (.text field, s) =>
          let w := w.write receiver field
          if w.stopped then ⟨w, notes, none⟩
          else run receiver separators parsed.2 w notes s
termination_by t.length
decreasing_by
  all_goals
    have bound := length_of_literalRun _run
    have := Directive.length_parse behind
    omega

/-- Formatted output for a receiver. What is pending at the end is handed over unless a fault
arises. -/
def deliverFormat (receiver : Receiver) (separators : Separators) (fmt : Text)
    (args : List Argument) : Outcome :=
  let o := run receiver separators fmt .start [] ⟨0, args⟩
  match o.fault with
  | some _ => o
  | none => { o with writer := o.writer.flush receiver }

/-- A receiver that wants everything. -/
def everything : Receiver := fun _ => true

/-- Formatted output for a receiver that wants everything. -/
def collect (separators : Separators) (fmt : Text) (args : List Argument) : Outcome :=
  deliverFormat everything separators fmt args

/-- Formatted text. -/
def format (separators : Separators) (fmt : Text) (args : List Argument) : Except Fault Text :=
  let o := collect separators fmt args
  match o.fault with
  | some fault => .error fault
  | none => .ok o.writer.chunks.flatten

end TextUnits.Format
