import TextUnits.Encoding.Decode

/-!
# White space and lines in UTF-8 text

Scans over bytes that read one code point at a time, leniently: malformed input reads as the
replacement, and a sequence that the end cuts off stops a scan. A zero byte ends the text for
the scans that work on lines and on leading white space. All answers are offsets in bytes.
-/

namespace TextUnits.Scan

/-- The code point at the front of bytes, read leniently, its size and the bytes behind it.
There is none at the end and at a sequence that is cut off. -/
def next? (bytes : List UInt8) : Option (Nat × Nat × List UInt8) :=
  match bytes with
  | [] => none
  | b :: rest =>
    let step := Encoding.decodeUtf8 (b :: rest)
    step.code?.map fun code => (code, step.size, rest.drop (step.size - 1))

/-- The bytes behind a code point are fewer. -/
theorem length_of_next? {bytes rest : List UInt8} {code size : Nat}
    (h : next? bytes = some (code, size, rest)) : rest.length < bytes.length := by
  cases bytes with
  | nil => simp [next?] at h
  | cons b tail =>
    obtain ⟨c, _, hc⟩ := Option.map_eq_some_iff.1 h
    simp only [Prod.mk.injEq] at hc
    rw [← hc.2.2]
    simp only [List.length_drop, List.length_cons]
    omega

/-- Bytes of the leading run of blanks; a zero byte ends the run. -/
def leading (bytes : List UInt8) : Nat :=
  if bytes.head? = some 0 then 0
  else
    match _front : next? bytes with
    | none => 0
    | some (code, size, rest) => if Scalar.isBlank code then size + leading rest else 0
termination_by bytes.length
decreasing_by exact length_of_next? _front

/-- Bytes up to the end of the last code point that is not blank; 0 when there is none. -/
def content (bytes : List UInt8) : Nat :=
  match _front : next? bytes with
  | none => 0
  | some (code, size, rest) =>
    let behind := content rest
    if behind = 0 ∧ Scalar.isBlank code then 0 else size + behind
termination_by bytes.length
decreasing_by exact length_of_next? _front

/-- Bytes in front of the first blank, if there is one. -/
def blank? (bytes : List UInt8) : Option Nat :=
  match _front : next? bytes with
  | none => none
  | some (code, size, rest) =>
    if Scalar.isBlank code then some 0 else (blank? rest).map (size + ·)
termination_by bytes.length
decreasing_by exact length_of_next? _front

/-- Where a line ends. -/
structure LineEnd where
  /-- Bytes of the line. -/
  line : Nat
  /-- Bytes in front of the next line; as many as the line has when no line end was found. -/
  next : Nat
  deriving DecidableEq, Repr

/-- End of the line at the front. CR LF is one line end, and a zero byte ends the text. -/
def lineEnd (bytes : List UInt8) : LineEnd :=
  if bytes.head? = some 0 then ⟨0, 0⟩
  else
    match _front : next? bytes with
    | none => ⟨0, 0⟩
    | some (code, size, rest) =>
      if Scalar.isNewline code then
        ⟨0, if code = 0x0D ∧ rest.head? = some 0x0A then size + 1 else size⟩
      else
        let behind := lineEnd rest
        ⟨size + behind.line, size + behind.next⟩
termination_by bytes.length
decreasing_by exact length_of_next? _front

/-- Line ends up to the end of the text. -/
def lineCount : List UInt8 → Nat
  | [] => 0
  | b :: rest =>
    let found := lineEnd (b :: rest)
    if found.next = found.line then 0 else 1 + lineCount (rest.drop (found.next - 1))
termination_by bytes => bytes.length
decreasing_by simp only [List.length_drop, List.length_cons]; omega

/-- Whether all bytes are read as blanks, with nothing cut off at the end. -/
def isBlank (bytes : List UInt8) : Bool :=
  if bytes.isEmpty then true
  else
    match _front : next? bytes with
    | none => false
    | some (code, _, rest) => Scalar.isBlank code && isBlank rest
termination_by bytes.length
decreasing_by exact length_of_next? _front

/-- Whether all units of UTF-32 text are blanks. -/
def isBlank32 (units : List UInt32) : Bool := units.all fun u => Scalar.isBlank u.toNat

end TextUnits.Scan
