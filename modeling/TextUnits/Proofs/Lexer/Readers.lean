import TextUnits.Proofs.Lexer.Numerals

/-!
# Which reader finds the token at the front

The scan asks its readers in a fixed order and takes the first answer. `Scanned` tells its result
by the reader that gave it, so that statements on the token at the front are shown reader by reader.
The kinds that two readers can give are different ones, but for those of the two forms of comments;
the kind of a token therefore tells which reader found it.
-/

namespace TextUnits.Lexer

/-- What the scan gives, by the reader that finds it. Those asked before it find nothing. -/
inductive Scanned (o : Options) (bytes : List UInt8) : Tag → Nat → Prop where
  /-- White space or a line end. -/
  | layout {kind : Kind} {size : Nat} (hf : layout? bytes = some ⟨kind, size⟩) :
      Scanned o bytes (.named kind) size
  /-- A comment that ends with its line. -/
  | lineComment {kind : Kind} {size : Nat} (hlayout : layout? bytes = none)
      (hf : lineComment? o bytes = some ⟨kind, size⟩) : Scanned o bytes (.named kind) size
  /-- A comment that ends at its closer. -/
  | blockComment {kind : Kind} {size : Nat} (hlayout : layout? bytes = none)
      (hline : lineComment? o bytes = none) (hf : blockComment? o bytes = some ⟨kind, size⟩) :
      Scanned o bytes (.named kind) size
  /-- A text in quotes. -/
  | text {kind : Kind} {size : Nat} (hlayout : layout? bytes = none)
      (hline : lineComment? o bytes = none) (hblock : blockComment? o bytes = none)
      (hf : string? bytes = some ⟨kind, size⟩) : Scanned o bytes (.named kind) size
  /-- A number. -/
  | numeral {kind : Kind} {size : Nat} (hlayout : layout? bytes = none)
      (hline : lineComment? o bytes = none) (hblock : blockComment? o bytes = none)
      (htext : string? bytes = none) (hf : number? bytes = some ⟨kind, size⟩) :
      Scanned o bytes (.named kind) size
  /-- A compound operator. -/
  | operator {kind : Kind} {size : Nat} (hlayout : layout? bytes = none)
      (hline : lineComment? o bytes = none) (hblock : blockComment? o bytes = none)
      (htext : string? bytes = none) (hf : operator? bytes = some ⟨kind, size⟩) :
      Scanned o bytes (.named kind) size
  /-- A name. -/
  | name {kind : Kind} {size : Nat} (hlayout : layout? bytes = none)
      (hline : lineComment? o bytes = none) (hblock : blockComment? o bytes = none)
      (htext : string? bytes = none) (hf : identifier? o bytes = some ⟨kind, size⟩) :
      Scanned o bytes (.named kind) size
  /-- A character that stands for itself. -/
  | char {code : Nat} (hlayout : layout? bytes = none) (hline : lineComment? o bytes = none)
      (hblock : blockComment? o bytes = none) (htext : string? bytes = none)
      (hname : identifier? o bytes = none) : Scanned o bytes (.char code) 1

variable {o : Options} {bytes : List UInt8} {found : Found} {kind : Kind} {size : Nat}

/-- What the scan gives is found by one of the readers, or is a character that stands for itself. -/
theorem scanned (o : Options) (bytes : List UInt8) :
    Scanned o bytes (scan o bytes).1 (scan o bytes).2 := by
  unfold scan
  cases hs : scanNamed? o bytes with
  | none =>
    unfold scanNamed? at hs
    simp only [Option.orElse_eq_orElse, Option.orElse_eq_or, Option.or_eq_none_iff] at hs
    obtain ⟨hlayout, hline, hblock, htext, -, -, hname⟩ := hs
    exact .char hlayout hline hblock htext hname
  | some found =>
    unfold scanNamed? at hs
    simp only [Option.orElse_eq_orElse, Option.orElse_eq_or, Option.or_eq_some_iff] at hs
    rcases hs with hf | ⟨hlayout, hf | ⟨hline, hf | ⟨hblock, hf | ⟨htext, hf | ⟨-, hf | ⟨-, hf⟩⟩⟩⟩⟩⟩
    · exact .layout hf
    · exact .lineComment hlayout hf
    · exact .blockComment hlayout hline hf
    · exact .text hlayout hline hblock hf
    · exact .numeral hlayout hline hblock htext hf
    · exact .operator hlayout hline hblock htext hf
    · exact .name hlayout hline hblock htext hf

/-- White space and line ends are found as such. -/
theorem layout?_kind (h : layout? bytes = some found) :
    found.kind = .whitespace ∨ found.kind = .newline := by
  unfold layout? at h
  dsimp only at h
  split_ifs at h
  · cases h
    exact .inl rfl
  · cases h
    exact .inl rfl
  · cases h
    exact .inr rfl

theorem lineComment?_kind (h : lineComment? o bytes = some found) : found.kind = .comment := by
  obtain ⟨body, -, rfl⟩ := Option.map_eq_some_iff.mp h
  rfl

theorem blockComment?_kind (h : blockComment? o bytes = some found) : found.kind = .comment := by
  obtain ⟨body, -, rfl⟩ := Option.map_eq_some_iff.mp h
  cases Sequence.indexOf? o.blockCloser body <;> rfl

theorem string?_kind (h : string? bytes = some found) : found.kind = .stringDouble := by
  unfold string? at h
  split at h
  · cases h
  · split_ifs at h
    obtain ⟨size, -, rfl⟩ := Option.map_eq_some_iff.mp h
    rfl

theorem operator?_kind (h : operator? bytes = some found) : found.kind ∈ Kind.operators := by
  obtain ⟨kind, hkind, rfl⟩ := Option.map_eq_some_iff.mp h
  exact List.mem_of_find?_eq_some hkind

theorem identifier?_kind (h : identifier? o bytes = some found) : found.kind = .identifier := by
  unfold identifier? at h
  dsimp only at h
  split_ifs at h
  cases h
  rfl

/-- A comment is found by the reader of one of the two forms. -/
theorem Scanned.comment (h : Scanned o bytes (.named .comment) size) :
    lineComment? o bytes = some ⟨.comment, size⟩ ∨
      lineComment? o bytes = none ∧ blockComment? o bytes = some ⟨.comment, size⟩ := by
  cases h with
  | layout hf => rcases layout?_kind hf with hk | hk <;> cases hk
  | lineComment _ hf => exact .inl hf
  | blockComment _ hline hf => exact .inr ⟨hline, hf⟩
  | text _ _ _ hf => cases string?_kind hf
  | numeral _ _ _ _ hf =>
    have hk : Kind.comment ∈ Kind.numerals := (number?_numeral hf).kind
    exact absurd hk (by decide)
  | operator _ _ _ _ hf =>
    have hk : Kind.comment ∈ Kind.operators := operator?_kind hf
    exact absurd hk (by decide)
  | name _ _ _ _ hf => cases identifier?_kind hf

/-- A name is found by the reader of names, where no white space stands. -/
theorem Scanned.identifier (h : Scanned o bytes (.named .identifier) size) :
    layout? bytes = none ∧ identifier? o bytes = some ⟨.identifier, size⟩ := by
  cases h with
  | layout hf => rcases layout?_kind hf with hk | hk <;> cases hk
  | lineComment _ hf => cases lineComment?_kind hf
  | blockComment _ _ hf => cases blockComment?_kind hf
  | text _ _ _ hf => cases string?_kind hf
  | numeral _ _ _ _ hf =>
    have hk : Kind.identifier ∈ Kind.numerals := (number?_numeral hf).kind
    exact absurd hk (by decide)
  | operator _ _ _ _ hf =>
    have hk : Kind.identifier ∈ Kind.operators := operator?_kind hf
    exact absurd hk (by decide)
  | name hlayout _ _ _ hf => exact ⟨hlayout, hf⟩

end TextUnits.Lexer
