import TextUnits.Proofs.Lexer.Readers
import TextUnits.Proofs.Scan.Within
import Mathlib.Tactic.Common

/-!
# The extent of the token at the front

What stands at the front of bytes lies within them, whatever the bytes are. It is not empty
either, but for a comment whose markers have no bytes: an opener of line comments without bytes
opens a comment anywhere, also in front of a line end, and markers of block comments that all
lack bytes open and close one at the same place. `Options.Moves` rules out both.
-/

namespace TextUnits.Lexer

/-- What was found takes at least one of the bytes and at most all of them. -/
def Found.Within (bytes : List UInt8) (found : Found) : Prop :=
  0 < found.size ∧ found.size ≤ bytes.length

/-- Whether no comment can be without bytes. -/
def Options.Moves (o : Options) : Prop :=
  o.lineOpener ≠ [] ∧ (o.blockOpener ≠ [] ∨ o.blockCloser ≠ [])

/-- Options whose markers all have bytes. -/
structure Options.Marked (o : Options) : Prop where
  /-- What opens a comment that ends with its line. -/
  lineOpener : o.lineOpener ≠ []
  /-- What opens a comment that ends at its closer. -/
  blockOpener : o.blockOpener ≠ []
  /-- What closes such a comment. -/
  blockCloser : o.blockCloser ≠ []

/-- Where all markers have bytes no comment is without any. -/
theorem Options.Marked.moves {o : Options} (h : o.Marked) : o.Moves :=
  ⟨h.lineOpener, Or.inl h.blockOpener⟩

/-- Bytes whose first byte passes a test are not empty. -/
theorem length_pos_of_startsWith {test : UInt8 → Bool} {bytes : List UInt8}
    (h : startsWith test bytes = true) : 0 < bytes.length := by
  cases bytes with
  | nil => cases h
  | cons b rest => exact Nat.succ_pos _

/-- A test that the byte at a place passes shows that the place lies within the bytes. -/
theorem lt_length_of_startsWith {test : UInt8 → Bool} {bytes : List UInt8} {size : Nat}
    (h : startsWith test (bytes.drop size) = true) : size < bytes.length := by
  have hpos := length_pos_of_startsWith h
  rw [List.length_drop] at hpos
  omega

/-- A run of bytes behind a place within the bytes lies within them. -/
theorem add_run_le (test : UInt8 → Bool) {bytes : List UInt8} {size : Nat}
    (h : size ≤ bytes.length) : size + Sequence.run test (bytes.drop size) ≤ bytes.length := by
  have hle := Sequence.run_le test (bytes.drop size)
  rw [List.length_drop] at hle
  omega

/-- The suffix of an integer lies within the bytes. -/
theorem integerSuffix_le (bytes : List UInt8) : integerSuffix bytes ≤ bytes.length := by
  unfold integerSuffix
  dsimp only
  split_ifs with h1 h2 h3 h4 h5 h6 h7
  · exact lt_length_of_startsWith h3
  · exact lt_length_of_startsWith h2
  · exact length_pos_of_startsWith h1
  · exact lt_length_of_startsWith h6
  · exact lt_length_of_startsWith h5
  · exact lt_length_of_startsWith h7
  · exact length_pos_of_startsWith h4
  · exact Nat.zero_le _

/-- The suffix of a number with a fraction lies within the bytes. -/
theorem floatSuffix_le (bytes : List UInt8) : floatSuffix bytes ≤ bytes.length := by
  unfold floatSuffix
  split_ifs with h
  · exact length_pos_of_startsWith h
  · exact Nat.zero_le _

/-- An integer of a size within the bytes lies within them with its suffix. -/
theorem integer_within (kind : Kind) {bytes : List UInt8} {size : Nat} (hpos : 0 < size)
    (hle : size ≤ bytes.length) : (integer kind bytes size).Within bytes := by
  have hsuffix := integerSuffix_le (bytes.drop size)
  rw [List.length_drop] at hsuffix
  constructor
  · dsimp only [integer]
    omega
  · dsimp only [integer]
    omega

/-- A number with a fraction of a size within the bytes lies within them with its suffix. -/
theorem float_within (kind : Kind) {bytes : List UInt8} {size : Nat} (hpos : 0 < size)
    (hle : size ≤ bytes.length) : (float kind bytes size).Within bytes := by
  have hsuffix := floatSuffix_le (bytes.drop size)
  rw [List.length_drop] at hsuffix
  constructor
  · dsimp only [float]
    omega
  · dsimp only [float]
    omega

/-- A number with an exponent from a place within the bytes lies within them, also when the
exponent breaks off. -/
theorem exponent_within (kind : Kind) {bytes : List UInt8} {size : Nat} (hpos : 0 < size)
    (hle : size ≤ bytes.length) : (exponent kind bytes size).Within bytes := by
  unfold exponent
  dsimp only
  generalize hs : (if startsWith (fun b => b == 0x2B || b == 0x2D) (bytes.drop size) = true then
    size + 1 else size) = signed
  have hsigned : 0 < signed ∧ signed ≤ bytes.length := by
    rw [← hs]
    split_ifs with hsign
    · have hlt := lt_length_of_startsWith hsign
      omega
    · exact ⟨hpos, hle⟩
  have hrun := add_run_le isDigit hsigned.2
  split_ifs
  · exact hsigned
  · exact float_within kind (by omega) hrun

/-- A whole part that lies within the bytes does so with a point and a fraction behind it. -/
theorem fraction_le (test : UInt8 → Bool) {bytes : List UInt8} {whole : Nat}
    (hpos : 0 < whole) (hle : whole ≤ bytes.length) :
    0 < (if startsWith (· == 0x2E) (bytes.drop whole) = true then
        whole + 1 + Sequence.run test (bytes.drop (whole + 1)) else whole) ∧
      (if startsWith (· == 0x2E) (bytes.drop whole) = true then
        whole + 1 + Sequence.run test (bytes.drop (whole + 1)) else whole) ≤ bytes.length := by
  split_ifs with hpoint
  · have hlt := lt_length_of_startsWith hpoint
    have hrun := add_run_le test (Nat.succ_le_of_lt hlt)
    exact ⟨by omega, hrun⟩
  · exact ⟨hpos, hle⟩

/-- A hexadecimal number lies within bytes that have room for its mark. -/
theorem hexNumber_within {bytes : List UInt8} (h : 2 ≤ bytes.length) :
    (hexNumber bytes).Within bytes := by
  have hsize := fraction_le isHex (by omega) (add_run_le isHex h)
  unfold hexNumber
  dsimp only
  generalize (if startsWith (· == 0x2E) (bytes.drop (2 + Sequence.run isHex (bytes.drop 2))) = true
    then _ else _) = size at hsize ⊢
  obtain ⟨hpos, hle⟩ := hsize
  split_ifs with hexp hpoint
  · exact exponent_within .floatHex (Nat.succ_pos size) (lt_length_of_startsWith hexp)
  · exact ⟨hpos, hle⟩
  · exact integer_within .integerHex hpos hle

/-- A number in decimal digits lies within bytes that are not empty. -/
theorem decimalNumber_within {bytes : List UInt8} (h : 1 ≤ bytes.length) :
    (decimalNumber bytes).Within bytes := by
  have hsize := fraction_le isDigit (by omega) (add_run_le isDigit h)
  unfold decimalNumber
  dsimp only
  generalize (if startsWith (· == 0x2E) (bytes.drop (1 + Sequence.run isDigit (bytes.drop 1))) =
    true then _ else _) = size at hsize ⊢
  obtain ⟨hpos, hle⟩ := hsize
  split_ifs with hexp hpoint
  · exact exponent_within .floatDec (Nat.succ_pos size) (lt_length_of_startsWith hexp)
  · exact float_within .floatDec hpos hle
  · exact integer_within .integerDec hpos hle

/-- A number in octal digits lies within bytes that are not empty. -/
theorem octalNumber?_within {bytes : List UInt8} {found : Found} (h : 1 ≤ bytes.length)
    (hf : octalNumber? bytes = some found) : found.Within bytes := by
  have hzeros := add_run_le (· == 0x30) h
  have hdigits := add_run_le isOctal hzeros
  unfold octalNumber? at hf
  dsimp only at hf
  split_ifs at hf
  cases hf
  exact integer_within .integerOct (by omega) hdigits

/-- A number literal lies within bytes that are not empty. -/
theorem number_within {bytes : List UInt8} (h : 1 ≤ bytes.length) :
    (number bytes).Within bytes := by
  unfold number
  split_ifs with hzero hx hb
  · exact hexNumber_within hzero.2
  · have hrun := add_run_le isBinary (show 2 ≤ bytes.length from hzero.2)
    exact integer_within .integerBin (by omega) hrun
  · cases hoct : octalNumber? bytes with
    | none => exact decimalNumber_within h
    | some found => exact octalNumber?_within h hoct
  · exact decimalNumber_within h

/-- A number at the front is not empty and lies within the bytes. -/
theorem number?_within {bytes : List UInt8} {found : Found} (hf : number? bytes = some found) :
    found.Within bytes := by
  unfold number? at hf
  split_ifs at hf with hdigit
  cases hf
  exact number_within (length_pos_of_startsWith hdigit)

/-- Layout at the front is not empty and lies within the bytes. -/
theorem layout?_within {bytes : List UInt8} {found : Found} (hf : layout? bytes = some found) :
    found.Within bytes := by
  have hblank := Scan.leading_le bytes
  obtain ⟨hline, hnext⟩ := Scan.lineEnd_le bytes
  unfold layout? at hf
  dsimp only at hf
  split_ifs at hf with hnone hcut hrun
  · cases hf
    exact ⟨Nat.pos_of_ne_zero hnone, hblank⟩
  · cases hf
    exact ⟨hrun, Nat.le_trans hline hnext⟩
  · cases hf
    exact ⟨Scan.lineEnd_next_pos hnone, hnext⟩

/-- A closing quote lies within the bytes that are searched for it. -/
theorem closing?_le {quote before : UInt8} {bytes : List UInt8} {size : Nat}
    (h : closing? quote before bytes = some size) : size ≤ bytes.length := by
  induction bytes generalizing before size with
  | nil => cases h
  | cons b rest ih =>
    unfold closing? at h
    split_ifs at h with hq
    · cases h
      exact Nat.succ_le_succ (Nat.zero_le _)
    · obtain ⟨n, hn, rfl⟩ := Option.map_eq_some_iff.mp h
      exact Nat.succ_le_succ (ih hn)

/-- A text in quotes is not empty and lies within the bytes. -/
theorem string?_within {bytes : List UInt8} {found : Found} (hf : string? bytes = some found) :
    found.Within bytes := by
  cases bytes with
  | nil => cases hf
  | cons q rest =>
    unfold string? at hf
    dsimp only at hf
    split_ifs at hf with hq
    obtain ⟨size, hs, rfl⟩ := Option.map_eq_some_iff.mp hf
    have hle := closing?_le hs
    constructor
    · dsimp only
      omega
    · dsimp only [List.length_cons]
      omega

/-- An operator is not empty and lies within the bytes. -/
theorem operator?_within {bytes : List UInt8} {found : Found}
    (hf : operator? bytes = some found) : found.Within bytes := by
  obtain ⟨kind, hk, rfl⟩ := Option.map_eq_some_iff.mp hf
  have hnames : ∀ k ∈ Kind.operators, 0 < k.name.length := by decide
  have hfound := List.find?_some hk
  have hbegins := Sequence.length_le_of_begins hfound
  rw [List.length_map, String.length_toList] at hbegins
  exact ⟨hnames kind (List.mem_of_find?_eq_some hk), hbegins⟩

/-- A name is not empty and lies within the bytes. -/
theorem identifier?_within {o : Options} {bytes : List UInt8} {found : Found}
    (hf : identifier? o bytes = some found) : found.Within bytes := by
  unfold identifier? at hf
  dsimp only at hf
  split_ifs at hf with hstart
  cases hf
  have hpos := length_pos_of_startsWith hstart
  have hrun := Sequence.run_le (continuesName o)
    ((bytes.take ((Scan.blank? bytes).getD bytes.length)).drop 1)
  rw [List.length_drop, List.length_take] at hrun
  constructor
  · dsimp only
    omega
  · dsimp only
    omega

/-- A comment that ends with its line is as long as its opener at least and lies within the
bytes. -/
theorem lineComment?_within {o : Options} {bytes : List UInt8} {found : Found}
    (hf : lineComment? o bytes = some found) :
    o.lineOpener.length ≤ found.size ∧ found.size ≤ bytes.length := by
  obtain ⟨body, hb, rfl⟩ := Option.map_eq_some_iff.mp hf
  have hlength := Sequence.length_of_after? hb
  obtain ⟨hline, hnext⟩ := Scan.lineEnd_le body
  constructor
  · dsimp only
    omega
  · dsimp only
    omega

/-- A comment between markers lies within the bytes, and is empty only if both markers are. -/
theorem blockComment?_within {o : Options} {bytes : List UInt8} {found : Found}
    (hu : bytes ≠ []) (hf : blockComment? o bytes = some found) :
    (o.blockOpener ≠ [] ∨ o.blockCloser ≠ [] → 0 < found.size) ∧
      found.size ≤ bytes.length := by
  obtain ⟨body, hb, he⟩ := Option.map_eq_some_iff.mp hf
  have hlength := Sequence.length_of_after? hb
  have hpos := List.length_pos_iff.mpr hu
  cases hi : Sequence.indexOf? o.blockCloser body with
  | none =>
    rw [hi] at he
    cases he
    exact ⟨fun _ => hpos, Nat.le_refl _⟩
  | some inside =>
    rw [hi] at he
    cases he
    have hinside := Sequence.indexOf?_le hi
    refine ⟨fun hm => ?_, by dsimp only; omega⟩
    rcases hm with hm | hm
    · have hopener := List.length_pos_iff.mpr hm
      dsimp only
      omega
    · have hcloser := List.length_pos_iff.mpr hm
      dsimp only
      omega

/-- What a reader finds at the front of bytes lies within them, and it is not empty unless a comment
can be without bytes. -/
theorem Scanned.within {o : Options} {bytes : List UInt8} {tag : Tag} {size : Nat}
    (h : Scanned o bytes tag size) (hu : bytes ≠ []) :
    (o.Moves → 0 < size) ∧ size ≤ bytes.length := by
  cases h with
  | layout hf =>
    obtain ⟨hsize, hle⟩ := layout?_within hf
    exact ⟨fun _ => hsize, hle⟩
  | lineComment _ hf =>
    obtain ⟨hopener, hle⟩ := lineComment?_within hf
    refine ⟨fun hm => ?_, hle⟩
    exact Nat.lt_of_lt_of_le (List.length_pos_iff.mpr hm.1) hopener
  | blockComment _ _ hf =>
    obtain ⟨hsize, hle⟩ := blockComment?_within hu hf
    exact ⟨fun hm => hsize hm.2, hle⟩
  | text _ _ _ hf =>
    obtain ⟨hsize, hle⟩ := string?_within hf
    exact ⟨fun _ => hsize, hle⟩
  | numeral _ _ _ _ hf =>
    obtain ⟨hsize, hle⟩ := number?_within hf
    exact ⟨fun _ => hsize, hle⟩
  | operator _ _ _ _ hf =>
    obtain ⟨hsize, hle⟩ := operator?_within hf
    exact ⟨fun _ => hsize, hle⟩
  | name _ _ _ _ hf =>
    obtain ⟨hsize, hle⟩ := identifier?_within hf
    exact ⟨fun _ => hsize, hle⟩
  | char => exact ⟨fun _ => Nat.one_pos, List.length_pos_iff.mpr hu⟩

/-- The token at the front of bytes lies within them, and it is not empty unless a comment can
be without bytes. -/
theorem scan_within (o : Options) {bytes : List UInt8} (hu : bytes ≠ []) :
    (o.Moves → 0 < (scan o bytes).2) ∧ (scan o bytes).2 ≤ bytes.length :=
  (scanned o bytes).within hu

end TextUnits.Lexer
