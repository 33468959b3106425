import TextUnits.Proofs.Lexer.Lines
import TextUnits.Proofs.Lexer.Pieces
import TextUnits.Proofs.Text.WellFormed

/-!
# Tokens end between code points

The scan looks at bytes, but where it stops lies between two code points: it stops behind a whole
code point, behind a marker, which is a text itself, or in front of a byte that continues nothing.
Where the text is cut it may stop at its end as well, also within a code point. So a token of
well-formed text is well-formed text, whatever the markers are, and the texts of the tokens in a row
are the text of the source.
-/

namespace TextUnits.Lexer

open Encoding Scan

/-- A number of bytes at the front of a text that are whole code points. -/
def Whole (codes : List Nat) (size : Nat) : Prop :=
  ∃ taken later, codes = taken ++ later ∧ (utf8.encodeAll taken).length = size

/-- A place in a text that may be cut: it lies between two code points, or it is the end. -/
def Ends (codes : List Nat) (bytes : List UInt8) (size : Nat) : Prop :=
  Whole codes size ∨ size = bytes.length

/-- Bytes that encode scalar values. -/
def Encoded (bytes : List UInt8) : Prop :=
  ∃ codes, bytes = utf8.encodeAll codes ∧ ∀ code ∈ codes, Scalar.isScalar code = true

/-- Options whose markers are texts. -/
structure Options.Encoded (o : Options) : Prop where
  /-- What opens a comment that ends with its line. -/
  lineOpener : Lexer.Encoded o.lineOpener
  /-- What opens a comment that ends at its closer. -/
  blockOpener : Lexer.Encoded o.blockOpener
  /-- What closes such a comment. -/
  blockCloser : Lexer.Encoded o.blockCloser

variable {codes : List Nat} {bytes : List UInt8} {o : Options} {found : Found} {size : Nat}

theorem whole_zero (codes : List Nat) : Whole codes 0 := ⟨[], codes, rfl, rfl⟩

theorem whole_length (codes : List Nat) : Whole codes (utf8.encodeAll codes).length :=
  ⟨codes, [], (List.append_nil codes).symm, rfl⟩

/-- Whole code points stay so behind other whole code points. -/
theorem Whole.append {later : List Nat} (h : Whole later size) (before : List Nat) :
    Whole (before ++ later) ((utf8.encodeAll before).length + size) := by
  obtain ⟨taken, behind, rfl, rfl⟩ := h
  refine ⟨before ++ taken, behind, (List.append_assoc _ _ _).symm, ?_⟩
  rw [encodeAll_append, List.length_append]

theorem Whole.cons {rest : List Nat} (h : Whole rest size) (code : Nat) :
    Whole (code :: rest) (utf8.width code + size) := by
  have happend := h.append [code]
  rw [length_encodeAll_cons] at happend
  exact happend

/-- ASCII bytes at the front of a text are whole code points. -/
theorem whole_of_ascii (h : ∀ code ∈ codes, Scalar.isScalar code = true)
    (hp : bytes <+: utf8.encodeAll codes) (hle : size ≤ bytes.length)
    (ha : ∀ b ∈ bytes.take size, b.toNat < 0x80) : Whole codes size := by
  obtain ⟨lost, hlost⟩ := hp
  have hparts : utf8.encodeAll codes = bytes.take size ++ (bytes.drop size ++ lost) := by
    rw [← List.append_assoc, List.take_append_drop, hlost]
  obtain ⟨later, hsplit, hlater⟩ := exists_of_ascii h hparts ha
  refine ⟨_, later, hsplit, ?_⟩
  rw [hsplit, encodeAll_append, hlater] at hparts
  rw [List.append_cancel_right hparts, List.length_take, Nat.min_eq_left hle]

/-- A leading run of blanks is made of whole code points, which are blanks. -/
theorem exists_of_leading (h : ∀ code ∈ codes, Scalar.isScalar code = true)
    (hp : bytes <+: utf8.encodeAll codes) :
    ∃ taken later, codes = taken ++ later ∧ (∀ code ∈ taken, Scalar.isBlank code = true) ∧
      (utf8.encodeAll taken).length = leading bytes := by
  induction codes generalizing bytes with
  | nil =>
    obtain rfl := List.prefix_nil.mp hp
    rw [leading_of_stop (.inr rfl)]
    exact ⟨[], [], rfl, fun code hc => absurd hc List.not_mem_nil, rfl⟩
  | cons code rest ih =>
    obtain ⟨hscalar, hrest⟩ := List.forall_mem_cons.mp h
    have hstop : ∃ taken later, code :: rest = taken ++ later ∧
        (∀ code ∈ taken, Scalar.isBlank code = true) ∧ (utf8.encodeAll taken).length = 0 :=
      ⟨[], code :: rest, rfl, fun code hc => absurd hc List.not_mem_nil, rfl⟩
    by_cases hzero : bytes.head? = some 0
    · rw [leading_of_stop (.inl hzero)]
      exact hstop
    · rcases exists_front hp with ⟨more, rfl, hmore⟩ | ⟨lost, hlost, hcode⟩
      · rw [leading_of_next? hzero (next?_encode hscalar more)]
        split_ifs with hblank
        · obtain ⟨taken, later, rfl, htaken, hsize⟩ := ih hrest hmore
          refine ⟨code :: taken, later, rfl, List.forall_mem_cons.mpr ⟨hblank, htaken⟩, ?_⟩
          rw [length_encodeAll_cons, hsize]
        · exact hstop
      · rw [leading_of_stop (.inr (next?_of_lacking hscalar hlost hcode))]
        exact hstop

theorem leading_whole (h : ∀ code ∈ codes, Scalar.isScalar code = true)
    (hp : bytes <+: utf8.encodeAll codes) : Whole codes (leading bytes) := by
  obtain ⟨taken, later, hsplit, -, hsize⟩ := exists_of_leading h hp
  exact ⟨taken, later, hsplit, hsize⟩

/-- A line, and a line with its line end, are made of whole code points. -/
theorem lineEnd_whole (h : ∀ code ∈ codes, Scalar.isScalar code = true)
    (hp : bytes <+: utf8.encodeAll codes) :
    Whole codes (lineEnd bytes).line ∧ Whole codes (lineEnd bytes).next := by
  induction codes generalizing bytes with
  | nil =>
    obtain rfl := List.prefix_nil.mp hp
    rw [lineEnd_of_stop (.inr rfl)]
    exact ⟨whole_zero [], whole_zero []⟩
  | cons code rest ih =>
    obtain ⟨hscalar, hrest⟩ := List.forall_mem_cons.mp h
    by_cases hzero : bytes.head? = some 0
    · rw [lineEnd_of_stop (.inl hzero)]
      exact ⟨whole_zero _, whole_zero _⟩
    · rcases exists_front hp with ⟨more, rfl, hmore⟩ | ⟨lost, hlost, hcode⟩
      · rw [lineEnd_of_next? hzero (next?_encode hscalar more)]
        split_ifs with hbreak hpair
        · -- A CR LF takes the line feed as well.
          have hhead : (utf8.encodeAll rest).head? = some 0x0A := by
            obtain ⟨lost, hlost⟩ := hmore
            rw [← hlost, List.head?_append, hpair.2]
            rfl
          have hsecond := (head?_encodeAll hrest (b := 0x0A) (by decide)).mp hhead
          cases rest with
          | nil => cases hsecond
          | cons second others =>
            cases hsecond
            exact ⟨whole_zero _, ((whole_zero others).cons 0x0A).cons code⟩
        · exact ⟨whole_zero _, (whole_zero rest).cons code⟩
        · exact ⟨(ih hrest hmore).1.cons code, (ih hrest hmore).2.cons code⟩
      · rw [lineEnd_of_stop (.inr (next?_of_lacking hscalar hlost hcode))]
        exact ⟨whole_zero _, whole_zero _⟩

theorem layout?_whole (h : ∀ code ∈ codes, Scalar.isScalar code = true)
    (hp : bytes <+: utf8.encodeAll codes) (hf : layout? bytes = some found) :
    Whole codes found.size := by
  have hblank := leading_whole h hp
  obtain ⟨hline, hnext⟩ := lineEnd_whole h hp
  unfold layout? at hf
  dsimp only at hf
  split_ifs at hf
  · cases hf
    exact hblank
  · cases hf
    exact hline
  · cases hf
    exact hnext

/-- A text that begins with a marker begins with the code points of the marker, and what stands
behind the marker is cut where the text is. -/
theorem exists_of_marker {marker body : List UInt8}
    (h : ∀ code ∈ codes, Scalar.isScalar code = true) (hp : bytes <+: utf8.encodeAll codes)
    (hm : Encoded marker) (hbody : Sequence.after? marker bytes = some body) :
    ∃ start behind, codes = start ++ behind ∧ marker = utf8.encodeAll start ∧
      body <+: utf8.encodeAll behind ∧ ∀ code ∈ behind, Scalar.isScalar code = true := by
  obtain ⟨start, rfl, hstart⟩ := hm
  obtain ⟨lost, hlost⟩ := hp
  have happend : utf8.encodeAll codes = utf8.encodeAll start ++ (body ++ lost) := by
    rw [← hlost, Sequence.eq_append_of_after? hbody, List.append_assoc]
  obtain ⟨behind, rfl, hbehind⟩ := exists_of_beginning h hstart happend
  exact ⟨start, behind, rfl, rfl, ⟨lost, hbehind.symm⟩,
    fun c hc => h c (List.mem_append_right _ hc)⟩

theorem lineComment?_whole (h : ∀ code ∈ codes, Scalar.isScalar code = true)
    (hp : bytes <+: utf8.encodeAll codes) (ho : Encoded o.lineOpener)
    (hf : lineComment? o bytes = some found) : Whole codes found.size := by
  obtain ⟨body, hbody, rfl⟩ := Option.map_eq_some_iff.mp hf
  obtain ⟨opener, behind, rfl, hopener, hcut, hbehind⟩ := exists_of_marker h hp ho hbody
  have hline := (lineEnd_whole hbehind hcut).1.append opener
  rwa [← hopener] at hline

/-- A comment between markers ends with its closer, or where the text is cut. -/
theorem blockComment?_ends (h : ∀ code ∈ codes, Scalar.isScalar code = true)
    (hp : bytes <+: utf8.encodeAll codes) (ho : Encoded o.blockOpener) (hc : Encoded o.blockCloser)
    (hf : blockComment? o bytes = some found) : Ends codes bytes found.size := by
  obtain ⟨closer, hcloser, hends⟩ := hc
  obtain ⟨body, hbody, he⟩ := Option.map_eq_some_iff.mp hf
  obtain ⟨opener, behind, rfl, hopener, hcut, hbehind⟩ := exists_of_marker h hp ho hbody
  cases hi : Sequence.indexOf? o.blockCloser body with
  | none =>
    rw [hi] at he
    cases he
    exact .inr rfl
  | some inside =>
    rw [hi] at he
    cases he
    rw [hcloser] at hi
    obtain ⟨before, later, rfl, rfl⟩ := exists_of_indexOf?_encodeAll hbehind hends hcut hi
    have hwhole := ((((whole_zero later).append closer).append before).append opener)
    rw [← hopener, ← hcloser, Nat.add_zero, ← Nat.add_assoc] at hwhole
    exact .inl hwhole

/-- A text in quotes ends with a quote, which is a code point. -/
theorem string?_whole (h : ∀ code ∈ codes, Scalar.isScalar code = true)
    (hp : bytes <+: utf8.encodeAll codes) (hf : string? bytes = some found) :
    Whole codes found.size := by
  obtain ⟨lost, hlost⟩ := hp
  cases bytes with
  | nil => cases hf
  | cons q tail =>
    unfold string? at hf
    dsimp only at hf
    split_ifs at hf with hq
    obtain ⟨size, hs, rfl⟩ := Option.map_eq_some_iff.mp hf
    obtain ⟨front, rest, rfl, rfl⟩ := exists_of_closing? hs
    have hascii : q.toNat < 0x80 := by
      rcases hq with rfl | rfl <;> decide
    have hclosed : utf8.encodeAll codes = (q :: front) ++ q :: (rest ++ lost) := by
      rw [← hlost, List.cons_append, List.append_assoc]
      rfl
    obtain ⟨before, later, rfl, hbefore, -⟩ := exists_of_ascii_byte h hclosed hascii
    have hone : utf8.width q.toNat = 1 := by
      rw [← length_encode, encode_ascii hascii]
      rfl
    have hwhole := ((whole_zero later).cons q.toNat).append before
    rw [hbefore, hone, List.length_cons, Nat.add_zero] at hwhole
    rwa [Nat.add_comm 1 (front.length + 1)]

theorem whole_of_oneLine (h : ∀ code ∈ codes, Scalar.isScalar code = true)
    (hp : bytes <+: utf8.encodeAll codes) (hf : found.OneLine bytes)
    (hle : found.size ≤ bytes.length) : Whole codes found.size :=
  whole_of_ascii h hp hle fun b hb => (isInline_iff.mp (hf.bytes b hb)).1

/-- A name ends with a code point, or where the text is cut. -/
theorem identifier?_ends (h : ∀ code ∈ codes, Scalar.isScalar code = true)
    (hp : bytes <+: utf8.encodeAll codes) (hblank : leading bytes = 0)
    (hf : identifier? o bytes = some found) : Ends codes bytes found.size := by
  obtain ⟨seen, stub, ⟨unseen, rfl⟩, rfl, hstub⟩ := exists_remnant h hp
  obtain ⟨-, name, behind, hname, -⟩ :=
    identifier?_name (fun c hc => h c (List.mem_append_left unseen hc)) hstub hblank hf
  have hsize := hname.length_eq
  have hparts := hname.parts
  by_cases hlast : behind = []
  · rw [if_pos hlast] at hsize
    rw [hlast, List.append_nil] at hparts
    exact .inr (hparts ▸ hsize.symm)
  · rw [if_neg hlast, List.append_nil] at hsize
    refine .inl ⟨name, behind ++ unseen, ?_, hsize⟩
    rw [← List.append_assoc, hparts]

/-- Whatever stands at the front of a text ends between two code points, or where the text is
cut. -/
theorem scan_ends (ho : o.Encoded) (h : ∀ code ∈ codes, Scalar.isScalar code = true)
    (hp : bytes <+: utf8.encodeAll codes) (hne : bytes ≠ []) :
    Ends codes bytes (scan o bytes).2 := by
  have hle := (scan_within o hne).2
  have hfound := scanned o bytes
  generalize (scan o bytes).1 = tag at hfound
  generalize (scan o bytes).2 = size at hfound hle ⊢
  cases hfound with
  | layout hf => exact .inl (layout?_whole h hp hf)
  | lineComment _ hf => exact .inl (lineComment?_whole h hp ho.lineOpener hf)
  | blockComment _ _ hf => exact blockComment?_ends h hp ho.blockOpener ho.blockCloser hf
  | text _ _ _ hf => exact .inl (string?_whole h hp hf)
  | numeral _ _ _ _ hf => exact .inl (whole_of_oneLine h hp (number?_oneLine hf) hle)
  | operator _ _ _ _ hf => exact .inl (whole_of_oneLine h hp (operator?_oneLine hf) hle)
  | name hlayout _ _ _ hf => exact identifier?_ends h hp (leading_of_layout?_eq_none hlayout) hf
  | char _ _ _ _ hname =>
    unfold identifier? at hname
    dsimp only at hname
    split_ifs at hname with hstart
    refine .inl (whole_of_ascii h hp hle fun b hb => ?_)
    cases bytes with
    | nil => exact absurd rfl hne
    | cons first tail =>
      obtain rfl := List.mem_singleton.mp hb
      exact lt_of_startsName (Bool.not_eq_true _ ▸ hstart)

/-- Whatever stands at the front of a text that is not cut is made of whole code points. -/
theorem scan_whole (ho : o.Encoded) (h : ∀ code ∈ codes, Scalar.isScalar code = true)
    (hne : codes ≠ []) : Whole codes (scan o (utf8.encodeAll codes)).2 := by
  have hbytes : utf8.encodeAll codes ≠ [] := fun hnil => hne (encodeAll_eq_nil_iff.mp hnil)
  rcases scan_ends ho h (List.prefix_refl _) hbytes with hwhole | hlength
  · exact hwhole
  · rw [hlength]
    exact whole_length codes

/-- Whole code points at the front of a text, and those behind them. -/
theorem Whole.exists_parts (h : Whole codes size) :
    ∃ taken later, taken ++ later = codes ∧ (utf8.encodeAll taken).length = size ∧
      (utf8.encodeAll codes).take size = utf8.encodeAll taken ∧
      (utf8.encodeAll codes).drop size = utf8.encodeAll later := by
  obtain ⟨taken, later, rfl, rfl⟩ := h
  rw [encodeAll_append]
  exact ⟨taken, later, rfl, rfl, List.take_left, List.drop_left⟩

/-- A piece at the front of a text is a text, and so is what stands behind it. -/
theorem Encoded.scan (hb : Encoded bytes) (ho : o.Encoded) (hne : bytes ≠ []) :
    Encoded (bytes.take (scan o bytes).2) ∧ Encoded (bytes.drop (scan o bytes).2) := by
  obtain ⟨codes, rfl, hcodes⟩ := hb
  have hnil : codes ≠ [] := fun hnil => hne (encodeAll_eq_nil_iff.mpr hnil)
  obtain ⟨taken, later, rfl, -, htake, hdrop⟩ := (scan_whole ho hcodes hnil).exists_parts
  exact ⟨⟨taken, htake, fun c hc => hcodes c (List.mem_append_left later hc)⟩,
    ⟨later, hdrop, fun c hc => hcodes c (List.mem_append_right taken hc)⟩⟩

/-- The pieces of a text are texts. -/
theorem Cuts.encoded {pieces : List Piece} (h : Cuts o bytes pieces)
    (ho : o.Encoded) (hb : Encoded bytes) : ∀ p ∈ pieces, Encoded p.2 := by
  induction h with
  | nil => exact fun p hp => absurd hp List.not_mem_nil
  | cons hne h ih =>
    obtain ⟨hfirst, hlater⟩ := hb.scan ho hne
    exact List.forall_mem_cons.mpr ⟨hfirst, ih hlater⟩

/-- Tokens that are texts make up a text together, with its bytes and its units. -/
theorem exists_codes_of_encoded {tokens : List Token} (h : ∀ t ∈ tokens, Encoded t.bytes) :
    ∃ whole, (∀ code ∈ whole, Scalar.isScalar code = true) ∧
      tokens.flatMap Token.bytes = utf8.encodeAll whole ∧
      tokens.flatMap Token.text = utf16.encodeAll whole := by
  induction tokens with
  | nil => exact ⟨[], fun code hc => absurd hc List.not_mem_nil, rfl, rfl⟩
  | cons t rest ih =>
    rw [List.forall_mem_cons] at h
    obtain ⟨inside, hinside, hcodes⟩ := h.1
    obtain ⟨whole, hwhole, hbytes, htext⟩ := ih h.2
    have hfirst : t.text = utf16.encodeAll inside := by
      rw [Token.text, hinside]
      exact Text.ofBytes_encodeAll hcodes
    refine ⟨inside ++ whole, ?_, ?_, ?_⟩
    · intro code hc
      rcases List.mem_append.mp hc with hc | hc
      · exact hcodes code hc
      · exact hwhole code hc
    · rw [List.flatMap_cons, hinside, hbytes, encodeAll_append]
    · rw [List.flatMap_cons, hfirst, htext, encodeAll_append]

/-- A token that is a part of a text. -/
def Token.Spells (codes : List Nat) (t : Token) : Prop :=
  ∃ before inside after, before ++ inside ++ after = codes ∧
    t.offset = (utf8.encodeAll before).length ∧ t.bytes = utf8.encodeAll inside

namespace Cursor

variable {c : Cursor}

/-- A cursor between two parts of a text, with the second part not read yet. -/
def Between (codes : List Nat) (c : Cursor) : Prop :=
  ∃ before later, before ++ later = codes ∧ c.rest = utf8.encodeAll later ∧
    c.offset = (utf8.encodeAll before).length

theorem start_between (codes : List Nat) : (start (utf8.encodeAll codes)).Between codes :=
  ⟨[], codes, rfl, rfl, rfl⟩

/-- A token that is made of whole code points is a part of the text, and leaves the cursor behind
it. -/
theorem Between.take {before later : List Nat} {tag : Tag}
    (hrest : c.rest = utf8.encodeAll later) (hplace : c.offset = (utf8.encodeAll before).length)
    (hw : Whole later size) :
    (c.take tag size).Between (before ++ later) ∧
      (c.take tag size).token.Spells (before ++ later) := by
  obtain ⟨taken, behind, rfl, hsize, htake, hdrop⟩ := hw.exists_parts
  refine ⟨⟨before ++ taken, behind, List.append_assoc _ _ _, ?_, ?_⟩,
    ⟨before, taken, behind, List.append_assoc _ _ _, hplace, ?_⟩⟩
  · rw [Cursor.take, hrest]
    exact hdrop
  · rw [Cursor.take, hplace, encodeAll_append, List.length_append, hsize]
  · rw [Cursor.take, hrest]
    exact htake

/-- One token leaves the cursor between two parts of the text, and is itself a part. -/
theorem Between.step (ho : o.Encoded) (h : ∀ code ∈ codes, Scalar.isScalar code = true)
    (hc : c.Between codes) : (c.step o).Between codes ∧ (c.step o).token.Spells codes := by
  obtain ⟨before, later, rfl, hrest, hplace⟩ := hc
  by_cases hend : c.rest = []
  · rw [step_of_end hend]
    exact Between.take hrest hplace (whole_zero later)
  · have hlater : later ≠ [] := by
      rintro rfl
      exact hend hrest
    rw [step_of_scan hend]
    refine Between.take hrest hplace ?_
    rw [hrest]
    exact scan_whole ho (fun c hc => h c (List.mem_append_right before hc)) hlater

/-- All tokens of a number of runs are parts of the text, those passed over included. -/
theorem Between.runs (ho : o.Encoded) (h : ∀ code ∈ codes, Scalar.isScalar code = true)
    (hc : c.Between codes) (further : Nat) :
    ∀ t ∈ (c.runs o further).flatMap (·.read), t.Spells codes := by
  intro t ht
  obtain ⟨d, hd, rfl⟩ := exists_of_mem_runs (fun d hd => (hd.step ho h).1) hc further t ht
  exact (hd.step ho h).2

end Cursor

/-- A marker that is accepted is a text. -/
theorem Settings.encoded_of_marker {name : String} {t : Text} {bytes : List UInt8}
    (h : marker name t = .ok bytes) : Encoded bytes := by
  unfold marker at h
  split_ifs at h
  obtain ⟨codes, rfl, hcodes⟩ := Text.exists_codes_of_toUtf8 h
  exact ⟨codes, rfl, fun code hc => (hcodes code hc).1⟩

theorem Settings.encoded_of_resolve {s : Settings} (h : s.resolve = .ok o) : o.Encoded := by
  obtain ⟨hline, hopener, hcloser⟩ := resolve_markers h
  exact ⟨encoded_of_marker hline, encoded_of_marker hopener, encoded_of_marker hcloser⟩

/-- A text is opened as its bytes. -/
theorem opened_of_openText {source : Text} {s : Settings} {r : Reader}
    (h : openText source s = .ok r) :
    ∃ bytes, Text.toUtf8 source .default = .ok bytes ∧ openBytes bytes s = .ok r := by
  unfold openText at h
  cases hb : Text.toUtf8 source .default with
  | error fault =>
    rw [hb] at h
    cases h
  | ok bytes =>
    rw [hb] at h
    exact ⟨bytes, rfl, h⟩

/-- The texts of the tokens of a text in a row are the text, when no tokens are passed over. -/
theorem Reader.flatMap_text {r : Reader} {tokens : List Token} (ho : r.options.Encoded)
    (hk : r.options.KeepsAll) (h : ∀ code ∈ codes, Scalar.isScalar code = true)
    (hrest : r.cursor.rest = utf8.encodeAll codes) (ht : r.tokens = .ok tokens) :
    tokens.flatMap Token.text = utf16.encodeAll codes := by
  have hcuts := cuts_of_tokens hk ht
  rw [hrest] at hcuts
  have hencoded : ∀ t ∈ tokens, Lexer.Encoded t.bytes := fun t ht =>
    hcuts.encoded ho ⟨codes, rfl, h⟩ t.piece (List.mem_map_of_mem ht)
  obtain ⟨whole, hwhole, hjoined, htext⟩ := exists_codes_of_encoded hencoded
  have hflat := hcuts.flatten
  rw [List.flatMap_map] at hflat
  -- Both texts have the same bytes, and each is what is read from its bytes.
  have hsame : utf8.encodeAll whole = utf8.encodeAll codes := hjoined.symm.trans hflat
  rw [htext, ← Text.ofBytes_encodeAll hwhole, hsame, Text.ofBytes_encodeAll h]

/-- Characters whose code points are two texts in a row are two texts in a row. -/
theorem exists_chars_of_append {chars : List Char} {before after : List Nat}
    (h : before ++ after = chars.map Char.toNat) :
    ∃ front back, front ++ back = chars ∧ before = front.map Char.toNat ∧
      after = back.map Char.toNat := by
  obtain ⟨front, back, rfl, rfl, rfl⟩ := List.map_eq_append_iff.mp h.symm
  exact ⟨front, back, rfl, rfl, rfl⟩

/-- Every token of a text of characters, read under any settings that are accepted, begins and ends
between two characters, and its text is the characters between, which are encoded as its bytes. When
no tokens are passed over and the text is read to its end, the texts of the tokens in a row are the
text. -/
theorem openText_boundaries {chars : List Char} {s : Settings} {r : Reader}
    (hmark : chars.head? ≠ some '\uFEFF') (hswapped : chars.head? ≠ some '\uFFFE')
    (h : openText (chars.flatMap Text.unitsOfChar) { s with length := none } = .ok r) :
    (∀ further, ∀ t ∈ (r.cursor.runs r.options further).flatMap (·.read),
      ∃ before inside after, before ++ inside ++ after = chars ∧
        t.offset = (before.flatMap String.utf8EncodeChar).length ∧
        t.bytes = inside.flatMap String.utf8EncodeChar ∧
        t.text = inside.flatMap Text.unitsOfChar ∧
        (inside.head? ≠ some '\uFEFF' → inside.head? ≠ some '\uFFFE' →
          Text.toUtf8 t.text .default = .ok t.bytes)) ∧
    (r.options.KeepsAll → ∀ tokens, r.tokens = .ok tokens →
      tokens.flatMap Token.text = chars.flatMap Text.unitsOfChar) := by
  have hscalar : ∀ code ∈ chars.map Char.toNat, Scalar.isScalar code = true :=
    fun _ => isScalar_of_mem_map
  have hbytes := Text.toUtf8_encodeAll hscalar (head?_map_toNat_ne hmark)
    (head?_map_toNat_ne hswapped)
  rw [Text.encodeAll_utf16_toNat] at hbytes
  obtain ⟨bytes, hutf8, hopen⟩ := opened_of_openText h
  rw [hbytes, Except.ok.injEq] at hutf8
  subst hutf8
  obtain ⟨readable, hreadable, hstart, hresolve⟩ := opened_of_openBytes hopen
  obtain rfl : utf8.encodeAll (chars.map Char.toNat) = readable := Except.ok.inj hreadable
  have ho := Settings.encoded_of_resolve hresolve
  have hbetween : r.cursor.Between (chars.map Char.toNat) := by
    rw [hstart]
    exact Cursor.start_between _
  have hspells := hbetween.runs ho hscalar
  refine ⟨?_, ?_⟩
  · intro further t ht
    obtain ⟨front, part, back, hsplit, hoffset, htoken⟩ := hspells further t ht
    obtain ⟨both, after, hboth, hfirst, rfl⟩ := exists_chars_of_append hsplit
    obtain ⟨before, inside, rfl, rfl, rfl⟩ := exists_chars_of_append hfirst
    have htext : t.text = utf16.encodeAll (inside.map Char.toNat) := by
      rw [Token.text, htoken]
      exact Text.ofBytes_encodeAll fun _ => isScalar_of_mem_map
    refine ⟨before, inside, after, hboth, ?_, ?_, ?_, ?_⟩
    · rw [hoffset, Text.encodeAll_utf8_toNat]
    · rw [htoken, Text.encodeAll_utf8_toNat]
    · rw [htext, Text.encodeAll_utf16_toNat]
    · intro hfeff hfffe
      rw [htext, htoken]
      exact Text.toUtf8_encodeAll (fun _ => isScalar_of_mem_map) (head?_map_toNat_ne hfeff)
        (head?_map_toNat_ne hfffe)
  · intro hk tokens htokens
    have hrest : r.cursor.rest = utf8.encodeAll (chars.map Char.toNat) := by
      rw [hstart]
      rfl
    rw [Reader.flatMap_text ho hk hscalar hrest htokens, Text.encodeAll_utf16_toNat]

/-- Markers beyond ASCII around a character of three bytes, between characters of two and of four
bytes. -/
theorem openText_boundaries_markers :
    ∃ (r : Reader) (tokens : List Token),
      openText (['é', ' ', '«', '€', '»', '😀'].flatMap Text.unitsOfChar)
        ⟨none, none, none, none, some [0xA7], some [0xAB], some [0xBB], none⟩ = .ok r ∧
      r.tokens = .ok tokens ∧
      tokens.map Token.length = [2, 1, 7, 4] ∧
      tokens.flatMap Token.text = ['é', ' ', '«', '€', '»', '😀'].flatMap Text.unitsOfChar := by
  have hopen : openText (['é', ' ', '«', '€', '»', '😀'].flatMap Text.unitsOfChar)
      { (⟨none, none, none, none, some [0xA7], some [0xAB], some [0xBB], none⟩ : Settings) with
        length := none } =
      .ok ⟨⟨false, false, false, false, [0xC2, 0xA7], [0xC2, 0xAB], [0xC2, 0xBB]⟩,
        .start (['é', ' ', '«', '€', '»', '😀'].flatMap String.utf8EncodeChar)⟩ := by
    with_unfolding_all rfl
  have htexts := (openText_boundaries (by decide) (by decide) hopen).2 ⟨rfl, rfl, rfl⟩
  cases htokens : Reader.tokens ⟨⟨false, false, false, false, [0xC2, 0xA7], [0xC2, 0xAB],
      [0xC2, 0xBB]⟩, .start (['é', ' ', '«', '€', '»', '😀'].flatMap String.utf8EncodeChar)⟩ with
  | error fault =>
    have hok : (Reader.tokens ⟨⟨false, false, false, false, [0xC2, 0xA7], [0xC2, 0xAB],
        [0xC2, 0xBB]⟩, .start (['é', ' ', '«', '€', '»', '😀'].flatMap
          String.utf8EncodeChar)⟩).toBool = true := by
      decide +kernel
    rw [htokens] at hok
    cases hok
  | ok tokens =>
    refine ⟨_, tokens, hopen, htokens, ?_, htexts tokens htokens⟩
    have hlengths : (Reader.tokens ⟨⟨false, false, false, false, [0xC2, 0xA7], [0xC2, 0xAB],
        [0xC2, 0xBB]⟩, .start (['é', ' ', '«', '€', '»', '😀'].flatMap
          String.utf8EncodeChar)⟩).toOption.map (List.map Token.length) = some [2, 1, 7, 4] := by
      decide +kernel
    rw [htokens] at hlengths
    exact Option.some.inj hlengths

end TextUnits.Lexer
