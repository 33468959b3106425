import TextUnits.Proofs.Lexer.Loops
import TextUnits.Proofs.Lexer.Names
import TextUnits.Proofs.Lexer.OneLine
import TextUnits.Proofs.Scan.Lines

/-!
# Lines of tokens

The lexer counts lines by the kind of a token: a line end adds one, comments and texts in quotes
are searched for line ends, and all others add none. On well-formed text this is the number of line
breaks in the token, no token is parted from the next one within a code point or a CR LF, and so
the line of a cursor is one more than the number of line breaks in front of it.
-/

namespace TextUnits.Lexer

open Encoding Scan

/-- Bytes of a text without line breaks. -/
def Unbroken (bytes : List UInt8) : Prop :=
  ∃ codes, bytes = utf8.encodeAll codes ∧
    ∀ code ∈ codes, Scalar.isScalar code = true ∧ code ∉ breakCodes

/-- Options whose markers are texts without line breaks. -/
structure Options.Unbroken (o : Options) : Prop where
  /-- What opens a comment that ends with its line. -/
  lineOpener : Lexer.Unbroken o.lineOpener
  /-- What opens a comment that ends at its closer. -/
  blockOpener : Lexer.Unbroken o.blockOpener
  /-- What closes such a comment. -/
  blockCloser : Lexer.Unbroken o.blockCloser

/-- A token of `size` bytes at the front of a text consists of whole code points, adds as many lines
as they have line breaks, and does not end within a CR LF. -/
def Reads (codes : List Nat) (tag : Tag) (size : Nat) : Prop :=
  ∃ taken later, codes = taken ++ later ∧ (utf8.encodeAll taken).length = size ∧
    lineEnds tag (utf8.encodeAll taken) = lineBreaks taken ∧ Apart taken later

variable {codes taken later : List Nat} {tag : Tag} {size : Nat} {found : Found} {o : Options}

/-- A token that is not searched for line ends adds none where it has none. -/
theorem reads_of_unbroken {kind : Kind} (hk : kind ∉ Kind.multiline)
    (hsplit : taken ++ later = codes) (hu : ∀ code ∈ taken, code ∉ breakCodes) :
    Reads codes (.named kind) (utf8.encodeAll taken).length :=
  ⟨taken, later, hsplit.symm, rfl,
    by rw [lineEnds_of_not_multiline hk, lineBreaks_eq_zero hu], apart_of_not_mem hu⟩

/-- A token that is searched for line ends adds those it has. -/
theorem reads_of_counted (h : Legible codes) {kind : Kind}
    (hk : kind = .comment ∨ kind = .stringDouble) (hsplit : taken ++ later = codes)
    (ha : Apart taken later) : Reads codes (.named kind) (utf8.encodeAll taken).length := by
  rw [← hsplit] at h
  have hcount := lineCount_encodeAll h.of_append.1
  refine ⟨taken, later, hsplit.symm, rfl, ?_, ha⟩
  rcases hk with rfl | rfl
  · exact hcount
  · exact hcount

/-- A stretch up to the next line break has none. -/
theorem not_mem_of_mem_takeWhile (codes : List Nat) :
    ∀ code ∈ codes.takeWhile fun code => decide (code ∉ breakCodes), code ∉ breakCodes := by
  intro code hc
  have hpass := List.mem_takeWhile_imp hc
  exact of_decide_eq_true hpass

/-- Blanks that start with a line break are one line end, of which CR LF is one. -/
theorem reads_newline {code : Nat} {rest : List Nat} (h : Legible (code :: rest))
    (hb : code ∈ breakCodes) :
    Reads (code :: rest) (.named .newline) (lineEnd (utf8.encodeAll (code :: rest))).next := by
  rw [lineEnd_encodeAll_cons h, if_pos hb]
  by_cases hpair : code = 0x0D ∧ rest.head? = some 0x0A
  · obtain ⟨rfl, hhead⟩ := hpair
    cases rest with
    | nil => cases hhead
    | cons second more =>
      cases hhead
      exact ⟨[0x0D, 0x0A], more, rfl, rfl, rfl, fun hlast => absurd hlast (by decide)⟩
  · have hone : lineBreaks [code] = 1 :=
      lineBreaks_of_mem hb fun hnil => absurd hnil.2.symm (Option.some_ne_none 0x0A)
    dsimp only
    rw [if_neg hpair]
    refine ⟨[code], rest, rfl, ?_, hone.symm, fun hlast hhead => hpair ⟨?_, hhead⟩⟩
    · rw [length_encodeAll_cons]
      rfl
    · exact Option.some.inj hlast

/-- White space ends in front of a line break, and a line end is one. -/
theorem layout?_reads (h : Legible codes) (hf : layout? (utf8.encodeAll codes) = some found) :
    Reads codes (.named found.kind) found.size := by
  have hwhite : Kind.whitespace ∉ Kind.multiline := by decide
  have hblank := leading_encodeAll h
  have hline := line_lineEnd_encodeAll h
  have hplain := not_mem_of_mem_takeWhile codes
  unfold layout? at hf
  dsimp only at hf
  split_ifs at hf with hnone hcut hrun
  · -- The blanks end before the line does, so they are part of it.
    cases hf
    rw [hblank, hline] at hcut
    have hpart : codes.takeWhile Scalar.isBlank <+:
        codes.takeWhile fun code => decide (code ∉ breakCodes) := by
      rcases List.prefix_or_prefix_of_prefix (List.takeWhile_prefix Scalar.isBlank)
        (List.takeWhile_prefix fun code => decide (code ∉ breakCodes)) with hle | ⟨more, hge⟩
      · exact hle
      · rw [← hge, encodeAll_append, List.length_append] at hcut
        omega
    rw [hblank]
    exact reads_of_unbroken hwhite List.takeWhile_append_dropWhile
      fun code hc => hplain code (hpart.subset hc)
  · cases hf
    rw [hline]
    exact reads_of_unbroken hwhite List.takeWhile_append_dropWhile hplain
  · cases hf
    cases codes with
    | nil => exact absurd (leading_of_stop (.inr rfl)) hnone
    | cons code rest =>
      by_cases hbreak : code ∈ breakCodes
      · exact reads_newline h hbreak
      · rw [lineEnd_encodeAll_cons h, if_neg hbreak] at hrun
        have hpos := utf8.width_pos code
        dsimp only at hrun
        omega

/-- A text that begins with a marker begins with the code points of the marker. -/
theorem exists_of_after? {marker body : List UInt8} (h : Legible codes) (hm : Unbroken marker)
    (hbody : Sequence.after? marker (utf8.encodeAll codes) = some body) :
    ∃ start behind, codes = start ++ behind ∧ marker = utf8.encodeAll start ∧
      body = utf8.encodeAll behind ∧ ∀ code ∈ start, code ∉ breakCodes := by
  obtain ⟨start, rfl, hstart⟩ := hm
  have happend := Sequence.eq_append_of_after? hbody
  obtain ⟨behind, rfl, hbehind⟩ :=
    exists_of_beginning h.isScalar (fun code hc => (hstart code hc).1) happend
  exact ⟨start, behind, rfl, rfl, hbehind.symm, fun code hc => (hstart code hc).2⟩

/-- A comment ends in front of a line break. -/
theorem lineComment?_reads (h : Legible codes) (ho : Unbroken o.lineOpener)
    (hf : lineComment? o (utf8.encodeAll codes) = some found) :
    Reads codes (.named found.kind) found.size := by
  obtain ⟨body, hbody, rfl⟩ := Option.map_eq_some_iff.mp hf
  obtain ⟨opener, behind, rfl, hopener, rfl, hplain⟩ := exists_of_after? h ho hbody
  have hsize : (utf8.encodeAll
      (opener ++ behind.takeWhile fun code => decide (code ∉ breakCodes))).length =
      o.lineOpener.length + (lineEnd (utf8.encodeAll behind)).line := by
    rw [encodeAll_append, List.length_append, ← hopener, line_lineEnd_encodeAll h.of_append.2]
  have hsplit : (opener ++ behind.takeWhile fun code => decide (code ∉ breakCodes)) ++
      behind.dropWhile (fun code => decide (code ∉ breakCodes)) = opener ++ behind := by
    rw [List.append_assoc, List.takeWhile_append_dropWhile]
  dsimp only
  rw [← hsize]
  refine reads_of_counted h (.inl rfl) hsplit (apart_of_not_mem ?_)
  intro code hc
  rcases List.mem_append.mp hc with hc | hc
  · exact hplain code hc
  · exact not_mem_of_mem_takeWhile behind code hc

/-- A comment between markers ends with the closer, or with the text. -/
theorem blockComment?_reads (h : Legible codes) (ho : Unbroken o.blockOpener)
    (hc : Unbroken o.blockCloser) (hf : blockComment? o (utf8.encodeAll codes) = some found) :
    Reads codes (.named found.kind) found.size := by
  obtain ⟨closer, hcloser, hends⟩ := hc
  obtain ⟨body, hbody, he⟩ := Option.map_eq_some_iff.mp hf
  obtain ⟨opener, behind, rfl, hopener, rfl, hplain⟩ := exists_of_after? h ho hbody
  cases hi : Sequence.indexOf? o.blockCloser (utf8.encodeAll behind) with
  | none =>
    rw [hi] at he
    cases he
    exact reads_of_counted h (.inl rfl) (List.append_nil _)
      fun _ => (Option.some_ne_none _).symm
  | some inside =>
    rw [hi] at he
    cases he
    have hoccurs := hi
    rw [hcloser] at hoccurs
    obtain ⟨before, later, rfl, rfl⟩ := exists_of_indexOf?_encodeAll h.of_append.2.isScalar
      (fun code hc => (hends code hc).1) (List.prefix_refl _) hoccurs
    have hsize : (utf8.encodeAll (opener ++ before ++ closer)).length =
        o.blockOpener.length + (utf8.encodeAll before).length + o.blockCloser.length := by
      rw [encodeAll_append, encodeAll_append, List.length_append, List.length_append, ← hopener,
        ← hcloser]
    have hsplit :
        (opener ++ before ++ closer) ++ later = opener ++ (before ++ (closer ++ later)) := by
      simp only [List.append_assoc]
    dsimp only
    rw [← hsize]
    refine reads_of_counted h (.inl rfl) hsplit ?_
    by_cases hempty : closer = []
    · -- A closer without bytes is found right behind the opener.
      rw [hempty, show utf8.encodeAll [] = [] from rfl, Sequence.indexOf?_nil] at hoccurs
      have hbefore := encodeAll_eq_nil_iff.mp
        (List.length_eq_zero_iff.mp (Option.some.inj hoccurs).symm)
      rw [hbefore, hempty, List.append_nil, List.append_nil]
      exact apart_of_not_mem hplain
    · exact apart_append hempty (apart_of_not_mem fun code hc => (hends code hc).2)

/-- A closing quote stands behind the bytes in front of it. -/
theorem exists_of_closing? {quote before : UInt8} {bytes : List UInt8}
    (h : closing? quote before bytes = some size) :
    ∃ front rest, bytes = front ++ quote :: rest ∧ front.length + 1 = size := by
  induction bytes generalizing before size with
  | nil => cases h
  | cons b rest ih =>
    unfold closing? at h
    split_ifs at h with hq
    · cases h
      obtain ⟨rfl, -⟩ := hq
      exact ⟨[], rest, rfl, rfl⟩
    · obtain ⟨n, hn, rfl⟩ := Option.map_eq_some_iff.mp h
      obtain ⟨front, behind, hrest, hfront⟩ := ih hn
      exact ⟨b :: front, behind, congrArg (b :: ·) hrest, congrArg (· + 1) hfront⟩

/-- A text in quotes ends with its quote. -/
theorem string?_reads (h : Legible codes) (hf : string? (utf8.encodeAll codes) = some found) :
    Reads codes (.named found.kind) found.size := by
  cases hbytes : utf8.encodeAll codes with
  | nil =>
    rw [hbytes] at hf
    cases hf
  | cons q tail =>
    rw [hbytes] at hf
    unfold string? at hf
    dsimp only at hf
    split_ifs at hf with hq
    obtain ⟨size, hs, rfl⟩ := Option.map_eq_some_iff.mp hf
    obtain ⟨front, rest, rfl, rfl⟩ := exists_of_closing? hs
    have hascii : q.toNat < 0x80 ∧ q.toNat ∉ breakCodes := by
      rcases hq with rfl | rfl <;> decide
    have hclosed : utf8.encodeAll codes = (q :: front) ++ q :: rest := hbytes
    obtain ⟨before, later, rfl, hbefore, -⟩ := exists_of_ascii_byte h.isScalar hclosed hascii.1
    have hsize : (utf8.encodeAll (before ++ [q.toNat])).length = 1 + (front.length + 1) := by
      rw [encodeAll_append, List.length_append, hbefore, encodeAll_cons, encode_ascii hascii.1,
        List.length_cons]
      exact Nat.add_comm _ _
    have hsplit : (before ++ [q.toNat]) ++ later = before ++ q.toNat :: later := by
      rw [List.append_assoc, List.singleton_append]
    rw [← hsize]
    refine reads_of_counted h (.inr rfl) hsplit
      (apart_append (List.cons_ne_nil _ _) (apart_of_not_mem ?_))
    simpa only [List.mem_singleton, forall_eq] using hascii.2

/-- ASCII characters on one line are a token that adds no lines. -/
theorem reads_of_oneLine (h : Legible codes) (hf : found.OneLine (utf8.encodeAll codes))
    (hle : found.size ≤ (utf8.encodeAll codes).length) :
    Reads codes (.named found.kind) found.size := by
  have hascii : ∀ b ∈ (utf8.encodeAll codes).take found.size, b.toNat < 0x80 :=
    fun b hb => (isInline_iff.mp (hf.bytes b hb)).1
  have hparts := (List.take_append_drop found.size (utf8.encodeAll codes)).symm
  obtain ⟨later, hsplit, hlater⟩ := exists_of_ascii h.isScalar hparts hascii
  have htaken : (utf8.encodeAll
      (((utf8.encodeAll codes).take found.size).map UInt8.toNat)).length = found.size := by
    have hlength := congrArg List.length (congrArg utf8.encodeAll hsplit)
    rw [encodeAll_append, List.length_append, hlater, List.length_drop] at hlength
    omega
  rw [← htaken]
  refine reads_of_unbroken hf.kind hsplit.symm ?_
  intro code hc
  obtain ⟨b, hb, rfl⟩ := List.mem_map.mp hc
  rw [← isNewline_iff, isNewline_of_isInline (hf.bytes b hb)]
  exact Bool.false_ne_true

/-- A text that starts with no blank has a first code point, which is none. -/
theorem isBlank_eq_false_of_leading {code : Nat} {rest : List Nat} (h : Legible (code :: rest))
    (hblank : leading (utf8.encodeAll (code :: rest)) = 0) : Scalar.isBlank code = false := by
  by_contra hne
  rw [Bool.not_eq_false] at hne
  rw [leading_encodeAll h, List.takeWhile_cons, if_pos hne, length_encodeAll_cons] at hblank
  have hpos := utf8.width_pos code
  omega

/-- A code point that is no blank breaks no line. -/
theorem not_mem_of_isBlank_eq_false {code : Nat} (h : Scalar.isBlank code = false) :
    code ∉ breakCodes := by
  intro hbreak
  have hwhite := Scalar.isWhitespace_of_isNewline (isNewline_iff.mpr hbreak)
  rw [Scalar.isBlank, hwhite, Bool.or_true] at h
  cases h

/-- A byte that cannot start a name is no part of a code point of several bytes. -/
theorem lt_of_startsName {b : UInt8} (h : startsName b = false) : b.toNat < 0x80 := by
  simp only [startsName, Bool.or_eq_false_iff, decide_eq_false_iff_not] at h
  exact UInt8.not_le.mp h.2

/-- A name is made of code points none of which is a blank. -/
theorem identifier?_reads (h : Legible codes) (hblank : leading (utf8.encodeAll codes) = 0)
    (hf : identifier? o (utf8.encodeAll codes) = some found) :
    Reads codes (.named found.kind) found.size := by
  have hbytes := (List.append_nil (utf8.encodeAll codes)).symm
  rw [hbytes] at hblank hf
  obtain ⟨-, name, behind, hname, -⟩ := identifier?_name h.isScalar (.inl rfl) hblank hf
  have hsize := hname.length_eq
  rw [ite_self, List.append_nil] at hsize
  rw [identifier?_kind hf, ← hsize]
  exact reads_of_unbroken (by decide) hname.parts fun code hc =>
    not_mem_of_isBlank_eq_false (isBlank_of_continuesIdentifier (hname.continues code hc))

/-- A character that stands for itself is an ASCII character and no blank. -/
theorem reads_char {code : Nat} {rest : List Nat} (h : Legible (code :: rest))
    (hblank : leading (utf8.encodeAll (code :: rest)) = 0)
    (hs : startsWith startsName (utf8.encodeAll (code :: rest)) = false) (character : Nat) :
    Reads (code :: rest) (.char character) 1 := by
  have hplain : ∀ c ∈ [code], c ∉ breakCodes := by
    rw [List.forall_mem_singleton]
    exact not_mem_of_isBlank_eq_false (isBlank_eq_false_of_leading h hblank)
  obtain ⟨lead, tail, hencode, -, -, hascii⟩ := exists_lead (h code List.mem_cons_self).1
  rw [encodeAll_cons, hencode] at hs
  obtain ⟨rfl, -⟩ := hascii (lt_of_startsName hs)
  refine ⟨[code], rest, rfl, ?_, (lineBreaks_eq_zero hplain).symm, apart_of_not_mem hplain⟩
  rw [encodeAll_cons, hencode]
  rfl

theorem leading_of_layout?_eq_none {bytes : List UInt8} (h : layout? bytes = none) :
    leading bytes = 0 := by
  unfold layout? at h
  dsimp only at h
  split_ifs at h with hnone
  exact hnone

/-- Whatever stands at the front of a text is read in whole code points, adds its line breaks and
does not end within a CR LF. -/
theorem scan_reads (ho : o.Unbroken) (h : Legible codes) (hne : codes ≠ []) :
    Reads codes (scan o (utf8.encodeAll codes)).1 (scan o (utf8.encodeAll codes)).2 := by
  have hbytes : utf8.encodeAll codes ≠ [] := fun hnil => hne (encodeAll_eq_nil_iff.mp hnil)
  have hle := (scan_within o hbytes).2
  have hfound := scanned o (utf8.encodeAll codes)
  generalize (scan o (utf8.encodeAll codes)).1 = tag at hfound ⊢
  generalize (scan o (utf8.encodeAll codes)).2 = size at hfound hle ⊢
  cases hfound with
  | layout hf => exact layout?_reads h hf
  | lineComment _ hf => exact lineComment?_reads h ho.lineOpener hf
  | blockComment _ _ hf => exact blockComment?_reads h ho.blockOpener ho.blockCloser hf
  | text _ _ _ hf => exact string?_reads h hf
  | numeral _ _ _ _ hf => exact reads_of_oneLine h (number?_oneLine hf) hle
  | operator _ _ _ _ hf => exact reads_of_oneLine h (operator?_oneLine hf) hle
  | name hlayout _ _ _ hf => exact identifier?_reads h (leading_of_layout?_eq_none hlayout) hf
  | char hlayout _ _ _ hname =>
    unfold identifier? at hname
    dsimp only at hname
    split_ifs at hname with hstart
    cases codes with
    | nil => exact absurd rfl hne
    | cons code rest =>
      exact reads_char h (leading_of_layout?_eq_none hlayout) (Bool.not_eq_true _ ▸ hstart) _

end TextUnits.Lexer
