import TextUnits.Buffer.Basic

/-!
# Chains of operations

An `Operation` changes a buffer. When it is called it returns the buffer or the refusal of what it
was to do, and any other fault, from formatting or encoding, leaves the call. In a chain each
operation is called by way of what the one before returned. How that is done is a parameter here.
-/

namespace TextUnits

namespace Buffer

/-- A change to a buffer. -/
inductive Operation where
  /-- Replaces the content. -/
  | set (input : Input)
  /-- Puts bytes behind the content. -/
  | append (input : Input)
  /-- Puts bytes in front of the content. -/
  | prepend (input : Input)
  /-- Replaces the content by a formatted text. -/
  | setFormatted (fmt : Text) (args : List Format.Argument)
  /-- Puts a formatted text behind the content. -/
  | appendFormatted (fmt : Text) (args : List Format.Argument)
  /-- Puts a formatted text in front of the content. -/
  | prependFormatted (fmt : Text) (args : List Format.Argument)
  /-- Removes a range of bytes. -/
  | removeRange (first finish : Double)
  /-- Replaces bytes at an offset. -/
  | replace (offset count : Double) (input : Input)
  /-- Replaces all occurrences of a sequence. -/
  | replaceAll (query replacement : Input)
  /-- Removes the blanks at both ends. -/
  | trim

/-- The edit that an operation makes. -/
def perform : Operation → Edit
  | .set input => set input
  | .append input => append input
  | .prepend input => prepend input
  | .setFormatted fmt args => do
    let b ← get
    let input ← ofExcept (b.formatted fmt args)
    set input
  | .appendFormatted fmt args => do
    let b ← get
    let input ← ofExcept (b.formatted fmt args)
    append input
  | .prependFormatted fmt args => do
    let b ← get
    let input ← ofExcept (b.formatted fmt args)
    prepend input
  | .removeRange first finish => removeRange first finish
  | .replace offset count input => replace offset count input
  | .replaceAll query replacement => replaceAll query replacement
  | .trim => trim

end Buffer

/-- Whether a fault is the refusal of a buffer operation. -/
def Fault.isRefusal : Fault → Bool
  | .capacityExceeded .. | .invalidStringArgument .. => true
  | _ => false

namespace Buffer

/-- What a call returns: the buffer that it works on in place, or a refusal. -/
inductive Reply where
  /-- The buffer. -/
  | done
  /-- Why nothing was done. -/
  | refused (fault : Fault)

/-- A call that works on a buffer in place. It returns a reply unless a fault leaves it. -/
abbrev Call := EStateM Fault Buffer Reply

/-- The call of an operation. A refusal is returned, and any other fault leaves the call. -/
def call (operation : Operation) : Call := fun b =>
  match perform operation b with
  | .ok _ changed => .ok .done changed
  | .error fault left => if fault.isRefusal then .ok (.refused fault) left else .error fault left

/-- Operations one after the other, each called by way of the reply so far. A fault that leaves one
call leaves the chain. -/
def chain (andThen : Reply → Call → Call) (reply : Reply) : List Operation → Call
  | [] => pure reply
  | operation :: rest => do
    let next ← andThen reply (call operation)
    chain andThen next rest

end Buffer

end TextUnits
