import TextUnits.Proofs.Lexer.Extent
import TextUnits.Proofs.Lexer.Numerals
import TextUnits.Lexer.Cursor

/-!
# Tokens that lie on one line

Numbers and operators consist of ASCII bytes none of which is part of a line break. So they add no
lines, they begin no line break either, and they end between two code points.
-/

namespace TextUnits.Lexer

/-- Whether a byte is an ASCII character that is no part of a line break. -/
def isInline (b : UInt8) : Bool := b.toNat < 0x80 && !Scalar.isNewline b.toNat

/-- Kinds of tokens whose bytes are searched for line ends, or are one. -/
def Kind.multiline : List Kind := [.newline, .comment, .stringDouble, .stringSingle]

/-- The first bytes are ASCII characters on one line. -/
def Inline (bytes : List UInt8) (size : Nat) : Prop := ∀ b ∈ bytes.take size, isInline b = true

/-- What was found has bytes and a kind that add no lines. -/
structure Found.OneLine (bytes : List UInt8) (found : Found) : Prop where
  /-- Its kind adds none. -/
  kind : found.kind ∉ Kind.multiline
  /-- Its bytes are ASCII characters on one line. -/
  bytes : Inline bytes found.size

variable {bytes : List UInt8} {kind : Kind}

theorem isInline_iff {b : UInt8} :
    isInline b = true ↔ b.toNat < 0x80 ∧ ¬ (0x0A ≤ b.toNat ∧ b.toNat ≤ 0x0D) := by
  have hb := b.toNat_lt
  simp only [isInline, Scalar.isNewline, Bool.and_eq_true, Bool.not_eq_true', decide_eq_true_eq,
    Bool.or_eq_false_iff, Bool.and_eq_false_imp, decide_eq_false_iff_not, beq_eq_false_iff_ne]
  omega

theorem isNewline_of_isInline {b : UInt8} (h : isInline b = true) :
    Scalar.isNewline b.toNat = false := by
  simp only [isInline, Bool.and_eq_true, Bool.not_eq_true'] at h
  exact h.2

theorem lineEnds_of_not_multiline (h : kind ∉ Kind.multiline) (bytes : List UInt8) :
    lineEnds (.named kind) bytes = 0 := by
  unfold lineEnds
  split
  · rename_i hk
    cases hk
    exact absurd (by decide) h
  · rename_i hk
    cases hk
    exact absurd (by decide) h
  · rename_i hk
    cases hk
    exact absurd (by decide) h
  · rename_i hk
    cases hk
    exact absurd (by decide) h
  · rfl

/-- A number literal consists of ASCII characters on one line. -/
theorem number?_oneLine {found : Found} (hf : number? bytes = some found) :
    found.OneLine bytes := by
  have hkinds : ∀ k ∈ Kind.numerals, k ∉ Kind.multiline := by decide
  have hbytes : ∀ b, isNumeral b = true → isInline b = true := forall_byte (by decide +kernel)
  have hnumeral := number?_numeral hf
  exact ⟨hkinds found.kind hnumeral.kind, fun b hb => hbytes b (hnumeral.bytes b hb)⟩

/-- An operator consists of ASCII characters on one line. -/
theorem operator?_oneLine {found : Found} (hf : operator? bytes = some found) :
    found.OneLine bytes := by
  obtain ⟨kind, hk, rfl⟩ := Option.map_eq_some_iff.mp hf
  have hkinds : ∀ k ∈ Kind.operators, k ∉ Kind.multiline := by decide
  have hnames : ∀ k ∈ Kind.operators,
      ∀ b ∈ k.name.toList.map fun c => UInt8.ofNat c.toNat, isInline b = true := by
    decide +kernel
  have hmem := List.mem_of_find?_eq_some hk
  have hbegins := List.find?_some hk
  obtain ⟨rest, hrest⟩ := Option.isSome_iff_exists.mp hbegins
  refine ⟨hkinds kind hmem, ?_⟩
  intro b hb
  have hlength : (kind.name.toList.map fun c => UInt8.ofNat c.toNat).length = kind.name.length := by
    rw [List.length_map, String.length_toList]
  rw [Sequence.eq_append_of_after? hrest, ← hlength, List.take_left] at hb
  exact hnames kind hmem b hb

end TextUnits.Lexer
