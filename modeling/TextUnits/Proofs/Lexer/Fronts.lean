import TextUnits.Proofs.Lexer.Boundaries

/-!
# What the scan finds in front of comments and texts

With the usual markers a comment begins with a slash, and a text in quotes with a quote. All that
the scan finds besides has neither behind its first byte, so a comment or a text cannot begin within
it. Where a comment ends, no quote stands behind it that a backslash of the comment would guard.
-/

namespace TextUnits.Lexer

open Encoding Scan

/-- The usual markers: `//`, and `/*` with `*/`. -/
structure Options.Usual (o : Options) : Prop where
  /-- What opens a comment that ends with its line. -/
  lineOpener : o.lineOpener = [0x2F, 0x2F]
  /-- What opens a comment that ends at its closer. -/
  blockOpener : o.blockOpener = [0x2F, 0x2A]
  /-- What closes such a comment. -/
  blockCloser : o.blockCloser = [0x2A, 0x2F]

/-- Bytes that begin with the opener of a comment. -/
def StartsComment (bytes : List UInt8) : Prop := [0x2F, 0x2F] <+: bytes ∨ [0x2F, 0x2A] <+: bytes

/-- Whether a byte is neither a quote nor a slash. -/
def isPlain (b : UInt8) : Bool := b != 0x22 && b != 0x27 && b != 0x2F

/-- What stands at the front of bytes, as far as comments and texts are concerned. -/
inductive Front (bytes : List UInt8) : Tag → Nat → Prop where
  /-- A comment. It does not end with a backslash, or else no quote or slash stands behind it. -/
  | comment {size : Nat} (ho : StartsComment bytes)
      (hends : (∀ before, (bytes.take size).getLastD before ≠ 0x5C) ∨
        ∀ b ∈ (bytes.drop size).head?, isPlain b = true) :
      Front bytes (.named .comment) size
  /-- A text in quotes. -/
  | text {found : Found} (hs : string? bytes = some found) :
      Front bytes (.named .stringDouble) found.size
  /-- Neither; behind the first byte stands no quote and no slash. -/
  | plain {tag : Tag} {size : Nat} (ht : tag ≠ .named .comment) (ho : ¬ StartsComment bytes)
      (hs : string? bytes = none) (hp : ∀ b ∈ (bytes.take size).drop 1, isPlain b = true) :
      Front bytes tag size

variable {bytes : List UInt8} {codes : List Nat} {o : Options} {found : Found} {size : Nat}

theorem Options.Usual.encoded (ho : o.Usual) : o.Encoded :=
  ⟨⟨[0x2F, 0x2F], ho.lineOpener, by decide⟩, ⟨[0x2F, 0x2A], ho.blockOpener, by decide⟩,
    ⟨[0x2A, 0x2F], ho.blockCloser, by decide⟩⟩

theorem Options.Usual.moves (ho : o.Usual) : o.Moves := by
  rw [Options.Moves, ho.lineOpener, ho.blockOpener]
  exact ⟨List.cons_ne_nil _ _, .inl (List.cons_ne_nil _ _)⟩

/-- Settings with the default markers stand for options with the usual ones. -/
theorem Settings.exists_resolve_usual {s : Settings}
    (h : s.markers = Settings.default.markers) : ∃ o, s.resolve = .ok o ∧ o.Usual := by
  obtain ⟨hline, hrest⟩ := List.cons.inj h
  obtain ⟨hopener, hrest⟩ := List.cons.inj hrest
  obtain ⟨hcloser, -⟩ := List.cons.inj hrest
  have hdefault : marker "lineCommentOpener" (Settings.default.lineOpener.getD defaultLineOpener) =
        .ok [0x2F, 0x2F] ∧
      marker "blockCommentOpener" (Settings.default.blockOpener.getD defaultBlockOpener) =
        .ok [0x2F, 0x2A] ∧
      marker "blockCommentCloser" (Settings.default.blockCloser.getD defaultBlockCloser) =
        .ok [0x2A, 0x2F] := by
    with_unfolding_all exact ⟨rfl, rfl, rfl⟩
  unfold resolve
  rw [hline, hopener, hcloser, hdefault.1, hdefault.2.1, hdefault.2.2]
  exact ⟨_, rfl, rfl, rfl, rfl⟩

theorem isPlain_of_continuation :
    ∀ b : UInt8, Scalar.isContinuation b.toNat = true → isPlain b = true :=
  forall_byte (by decide +kernel)

/-- The bytes of a code point that is no quote and no slash are none. -/
theorem isPlain_of_mem_encode {code : Nat} (h : Scalar.isScalar code = true)
    (hc : code ≠ 0x22 ∧ code ≠ 0x27 ∧ code ≠ 0x2F) : ∀ b ∈ utf8.encode code, isPlain b = true := by
  obtain ⟨lead, tail, hencode, -, htail, hascii⟩ := exists_lead h
  have hlead : isPlain lead = true := by
    by_contra hne
    have hvalue : ∀ b : UInt8, ¬ isPlain b = true →
        b.toNat < 0x80 ∧ (b.toNat = 0x22 ∨ b.toNat = 0x27 ∨ b.toNat = 0x2F) :=
      forall_byte (by decide +kernel)
    obtain ⟨hlow, hquote⟩ := hvalue lead hne
    obtain ⟨-, rfl⟩ := hascii hlow
    omega
  rw [hencode, List.forall_mem_cons]
  exact ⟨hlead, fun b hb => isPlain_of_continuation b (htail b hb)⟩

theorem not_startsComment_nil : ¬ StartsComment [] := by
  rintro (⟨t, ht⟩ | ⟨t, ht⟩) <;> cases ht

/-- A comment begins with a slash and a slash or an asterisk. -/
theorem startsComment_cons {b : UInt8} {rest : List UInt8} :
    StartsComment (b :: rest) ↔
      b = 0x2F ∧ (rest.head? = some 0x2F ∨ rest.head? = some 0x2A) := by
  simp only [StartsComment, List.cons_prefix_cons, List.singleton_prefix_iff_head?_eq_some]
  constructor
  · rintro (⟨rfl, hnext⟩ | ⟨rfl, hnext⟩)
    · exact ⟨rfl, .inl hnext⟩
    · exact ⟨rfl, .inr hnext⟩
  · rintro ⟨rfl, hnext | hnext⟩
    · exact .inl ⟨rfl, hnext⟩
    · exact .inr ⟨rfl, hnext⟩

/-- Bytes that start with a plain byte open no comment and no text. -/
theorem of_isPlain_head {b : UInt8} (h : isPlain b = true) (rest : List UInt8) :
    ¬ StartsComment (b :: rest) ∧ string? (b :: rest) = none := by
  simp only [isPlain, Bool.and_eq_true, bne_iff_ne] at h
  obtain ⟨⟨hdouble, hsingle⟩, hslash⟩ := h
  constructor
  · rw [startsComment_cons]
    exact fun hstart => hslash hstart.1
  · rw [string?, if_neg (not_or.mpr ⟨hdouble, hsingle⟩)]

/-- A text in quotes begins with a quote and ends with the one that closes it. -/
theorem exists_of_string? (h : string? bytes = some found) :
    ∃ q rest size, bytes = q :: rest ∧ (q = 0x22 ∨ q = 0x27) ∧
      closing? q q rest = some size ∧ found = ⟨.stringDouble, 1 + size⟩ := by
  cases bytes with
  | nil => cases h
  | cons q rest =>
    unfold string? at h
    dsimp only at h
    split_ifs at h with hq
    obtain ⟨size, hs, rfl⟩ := Option.map_eq_some_iff.mp h
    exact ⟨q, rest, size, rfl, hq, hs, rfl⟩

/-- No text begins where a comment begins. -/
theorem string?_of_startsComment (h : StartsComment bytes) : string? bytes = none := by
  cases hs : string? bytes with
  | none => rfl
  | some found =>
    obtain ⟨q, rest, size, rfl, hq, -⟩ := exists_of_string? hs
    rw [(startsComment_cons.mp h).1] at hq
    exact absurd hq (by decide)

/-- A line end at the front of a text is a part of the leading run of blanks. -/
theorem leading_of_isNewline {code : Nat} (hzero : (utf8.encodeAll (code :: codes)).head? ≠ some 0)
    (h : Scalar.isScalar code = true) (hbreak : Scalar.isNewline code = true) :
    leading (utf8.encodeAll (code :: codes)) =
      utf8.width code + leading (utf8.encodeAll codes) := by
  have hblank : Scalar.isBlank code = true := by
    rw [Scalar.isBlank, Scalar.isWhitespace_of_isNewline hbreak, Bool.or_true]
  rw [leading_of_next? hzero (next?_encodeAll h codes), if_pos hblank]

/-- A line end lies in the leading run of blanks when nothing stands in front of it. -/
theorem next_le_leading (h : ∀ code ∈ codes, Scalar.isScalar code = true)
    (hl : (lineEnd (utf8.encodeAll codes)).line = 0) :
    (lineEnd (utf8.encodeAll codes)).next ≤ leading (utf8.encodeAll codes) := by
  cases codes with
  | nil =>
    rw [lineEnd_of_stop (.inr rfl)]
    exact Nat.zero_le _
  | cons code rest =>
    rw [List.forall_mem_cons] at h
    have hpos := utf8.width_pos code
    by_cases hzero : (utf8.encodeAll (code :: rest)).head? = some 0
    · rw [lineEnd_of_stop (.inl hzero)]
      exact Nat.zero_le _
    · rw [lineEnd_of_next? hzero (next?_encodeAll h.1 rest)] at hl ⊢
      split_ifs at hl ⊢ with hbreak hpair
      · -- A CR LF takes the line feed as well, which is a line end itself.
        have hsecond := (head?_encodeAll h.2 (b := 0x0A) (by decide)).mp hpair.2
        rw [leading_of_isNewline hzero h.1 hbreak]
        cases rest with
        | nil => cases hsecond
        | cons second more =>
          cases hsecond
          have hnonzero : (utf8.encodeAll (0x0A :: more)).head? ≠ some 0 := by
            change some (0x0A : UInt8) ≠ some 0
            decide
          have hfeed : leading (utf8.encodeAll (0x0A :: more)) =
              1 + leading (utf8.encodeAll more) :=
            leading_of_isNewline hnonzero (by decide) (by decide)
          change utf8.width code + 1 ≤ utf8.width code + leading (utf8.encodeAll (0x0A :: more))
          omega
      · rw [leading_of_isNewline hzero h.1 hbreak]
        exact Nat.le_add_right _ _
      · dsimp only at hl
        omega

/-- White space and line ends are plain. -/
theorem layout?_plain (h : ∀ code ∈ codes, Scalar.isScalar code = true)
    (hf : layout? (utf8.encodeAll codes) = some found) :
    found.kind ≠ .comment ∧ ∀ b ∈ (utf8.encodeAll codes).take found.size, isPlain b = true := by
  have hle : found.size ≤ leading (utf8.encodeAll codes) ∧ found.kind ≠ .comment := by
    unfold layout? at hf
    dsimp only at hf
    split_ifs at hf with hnone hcut hrun
    · cases hf
      exact ⟨Nat.le_refl _, Kind.noConfusion⟩
    · cases hf
      exact ⟨Nat.le_of_not_lt hcut, Kind.noConfusion⟩
    · cases hf
      exact ⟨next_le_leading h (Nat.eq_zero_of_not_pos hrun), Kind.noConfusion⟩
  refine ⟨hle.2, ?_⟩
  obtain ⟨taken, later, rfl, hblank, hsize⟩ := exists_of_leading h (List.prefix_refl _)
  intro b hb
  rw [← hsize] at hle
  rw [encodeAll_append, List.take_append_of_le_length hle.1] at hb
  obtain ⟨code, hcode, hbyte⟩ := List.mem_flatMap.mp (List.mem_of_mem_take hb)
  refine isPlain_of_mem_encode (h code (List.mem_append_left later hcode)) ?_ b hbyte
  have hall := hblank code hcode
  refine ⟨?_, ?_, ?_⟩ <;> rintro rfl <;> exact absurd hall (by decide)

/-- Numbers are plain. -/
theorem number?_plain (hf : number? bytes = some found) :
    found.kind ≠ .comment ∧ ∀ b ∈ bytes.take found.size, isPlain b = true := by
  have hbytes : ∀ b, isNumeral b = true → isPlain b = true := forall_byte (by decide +kernel)
  have hkinds : ∀ k ∈ Kind.numerals, k ≠ .comment := by decide
  have hnumeral := number?_numeral hf
  exact ⟨hkinds _ hnumeral.kind, fun b hb => hbytes b (hnumeral.bytes b hb)⟩

/-- Operators are plain behind their first character. -/
theorem operator?_plain (hf : operator? bytes = some found) :
    found.kind ≠ .comment ∧ ∀ b ∈ (bytes.take found.size).drop 1, isPlain b = true := by
  obtain ⟨kind, hk, rfl⟩ := Option.map_eq_some_iff.mp hf
  have hkinds : ∀ k ∈ Kind.operators, k ≠ .comment := by decide
  have hnames : ∀ k ∈ Kind.operators,
      ∀ b ∈ (k.name.toList.map fun c => UInt8.ofNat c.toNat).drop 1, isPlain b = true := by
    decide +kernel
  have hmem := List.mem_of_find?_eq_some hk
  have hbegins := List.find?_some hk
  obtain ⟨rest, hrest⟩ := Option.isSome_iff_exists.mp hbegins
  have hlength : (kind.name.toList.map fun c => UInt8.ofNat c.toNat).length = kind.name.length := by
    rw [List.length_map, String.length_toList]
  refine ⟨hkinds kind hmem, ?_⟩
  rw [Sequence.eq_append_of_after? hrest, ← hlength, List.take_left]
  exact hnames kind hmem

theorem isPlain_of_continuesName : ∀ b, continuesName o b = true → isPlain b = true := by
  have hall : ∀ dashes : Bool, ∀ b,
      (startsName b || isDigit b || (dashes && b == 0x2D)) = true → isPlain b = true := by
    rintro (_ | _)
    · exact forall_byte (by decide +kernel)
    · exact forall_byte (by decide +kernel)
  exact hall o.allowDashes

/-- Names are plain behind their first byte. -/
theorem identifier?_plain (hf : identifier? o bytes = some found) :
    found.kind ≠ .comment ∧ ∀ b ∈ (bytes.take found.size).drop 1, isPlain b = true := by
  unfold identifier? at hf
  dsimp only at hf
  split_ifs at hf
  cases hf
  refine ⟨Kind.noConfusion, ?_⟩
  intro b hb
  dsimp only at hb
  generalize (blank? bytes).getD bytes.length = limit at hb
  -- What a name takes behind its first byte goes on with it.
  have hpart : (bytes.take limit).drop 1 <+: bytes.drop 1 := by
    rw [List.drop_take]
    exact List.take_prefix _ _
  have hrun := List.prefix_iff_eq_take.mp
    ((List.takeWhile_prefix (continuesName o)).trans hpart)
  rw [Nat.add_comm, List.drop_take, Nat.add_sub_cancel, Sequence.run, ← hrun] at hb
  exact isPlain_of_continuesName b (List.mem_takeWhile_imp hb)

/-- A comment that ends with its line has a line end or a zero byte behind it, if anything. -/
theorem exists_of_line (h : ∀ code ∈ codes, Scalar.isScalar code = true) :
    ∃ taken later, codes = taken ++ later ∧
      (utf8.encodeAll taken).length = (lineEnd (utf8.encodeAll codes)).line ∧
      ∀ code ∈ later.head?, code = 0 ∨ code ∈ breakCodes := by
  induction codes with
  | nil =>
    rw [lineEnd_of_stop (.inr rfl)]
    exact ⟨[], [], rfl, rfl, fun code hc => by cases hc⟩
  | cons code rest ih =>
    have hstop : code = 0 ∨ code ∈ breakCodes → ∃ taken later, code :: rest = taken ++ later ∧
        (utf8.encodeAll taken).length = 0 ∧ ∀ c ∈ later.head?, c = 0 ∨ c ∈ breakCodes := by
      intro hc
      refine ⟨[], code :: rest, rfl, rfl, ?_⟩
      rintro _ ⟨⟩
      exact hc
    by_cases hzero : (utf8.encodeAll (code :: rest)).head? = some 0
    · rw [lineEnd_of_stop (.inl hzero)]
      rw [head?_encodeAll h (by decide)] at hzero
      exact hstop (.inl (Option.some.inj hzero))
    · rw [lineEnd_of_next? hzero (next?_encodeAll (h code List.mem_cons_self) rest)]
      split_ifs with hbreak hpair
      · exact hstop (.inr (isNewline_iff.mp hbreak))
      · exact hstop (.inr (isNewline_iff.mp hbreak))
      · obtain ⟨taken, later, rfl, hsize, hlater⟩ :=
          ih fun c hc => h c (List.mem_cons_of_mem code hc)
        refine ⟨code :: taken, later, rfl, ?_, hlater⟩
        rw [length_encodeAll_cons, hsize]

/-- Behind a comment that ends with its line stands nothing, or a plain byte. -/
theorem front_of_lineComment? (ho : o.Usual) (hb : Encoded bytes)
    (hf : lineComment? o bytes = some found) :
    Front bytes (.named found.kind) found.size := by
  obtain ⟨codes, rfl, hcodes⟩ := hb
  obtain ⟨body, hbody, rfl⟩ := Option.map_eq_some_iff.mp hf
  have hstart := Sequence.eq_append_of_after? hbody
  have hopens : StartsComment (utf8.encodeAll codes) := by
    rw [ho.lineOpener] at hstart
    exact .inl ⟨body, hstart.symm⟩
  obtain ⟨opener, hopener, hscalars⟩ := ho.encoded.lineOpener
  obtain ⟨behind, rfl, rfl⟩ := exists_of_beginning hcodes hscalars (hopener ▸ hstart)
  have hbehind : ∀ code ∈ behind, Scalar.isScalar code = true :=
    fun code hc => hcodes code (List.mem_append_right opener hc)
  obtain ⟨taken, later, rfl, hsize, hlater⟩ := exists_of_line hbehind
  refine .comment hopens (.inr ?_)
  dsimp only
  rw [← hsize, hstart, ← List.drop_drop, List.drop_left, encodeAll_append, List.drop_left]
  cases later with
  | nil =>
    intro b hb
    cases hb
  | cons code rest =>
    have hplain : ∀ c ∈ 0 :: breakCodes, ∀ b ∈ (utf8.encode c).head?, isPlain b = true := by
      decide +kernel
    have hfirst := hlater code rfl
    have hscalar := hbehind code (List.mem_append_right taken List.mem_cons_self)
    obtain ⟨lead, tail, hencode, -⟩ := exists_lead hscalar
    intro b hb
    rw [encodeAll_cons, hencode] at hb
    refine hplain code (List.mem_cons.mpr hfirst) b ?_
    rw [hencode]
    exact hb

/-- A comment between markers does not end with a backslash, unless the source ends with it. -/
theorem front_of_blockComment? (ho : o.Usual) (hf : blockComment? o bytes = some found) :
    Front bytes (.named found.kind) found.size := by
  obtain ⟨body, hbody, he⟩ := Option.map_eq_some_iff.mp hf
  have hstart := Sequence.eq_append_of_after? hbody
  have hopens : StartsComment bytes := by
    rw [ho.blockOpener] at hstart
    exact .inr ⟨body, hstart.symm⟩
  cases hi : Sequence.indexOf? o.blockCloser body with
  | none =>
    rw [hi] at he
    cases he
    refine .comment hopens (.inr ?_)
    dsimp only
    rw [List.drop_length]
    intro b hb
    cases hb
  | some inside =>
    rw [hi] at he
    cases he
    obtain ⟨front, rest, rfl, rfl⟩ := Sequence.exists_of_indexOf? hi
    refine .comment hopens (.inl ?_)
    intro before
    have htake : bytes.take (o.blockOpener.length + front.length + o.blockCloser.length) =
        o.blockOpener ++ front ++ o.blockCloser := by
      rw [hstart, ← List.append_assoc, ← List.append_assoc, ← List.length_append,
        ← List.length_append, List.take_left]
    dsimp only
    rw [htake, ho.blockCloser, List.getLastD_eq_getLast?, List.getLast?_append]
    change (0x2F : UInt8) ≠ 0x5C
    decide

/-- Bytes at whose front no comment is found start with no opener. -/
theorem not_startsComment (ho : o.Usual) (hl : lineComment? o bytes = none)
    (hb : blockComment? o bytes = none) : ¬ StartsComment bytes := by
  rintro (⟨body, rfl⟩ | ⟨body, rfl⟩)
  · rw [lineComment?, ho.lineOpener, Sequence.after?_append] at hl
    cases hl
  · rw [blockComment?, ho.blockOpener, Sequence.after?_append] at hb
    cases hb

/-- White space and line ends open no comment and no text. -/
theorem front_of_layout? (hb : Encoded bytes) (hf : layout? bytes = some found) :
    Front bytes (.named found.kind) found.size := by
  obtain ⟨codes, rfl, hcodes⟩ := hb
  obtain ⟨hne, hplain⟩ := layout?_plain hcodes hf
  obtain ⟨hpos, hle⟩ := layout?_within hf
  cases hbytes : utf8.encodeAll codes with
  | nil =>
    rw [hbytes, List.length_nil] at hle
    omega
  | cons b rest =>
    rw [hbytes] at hplain
    have hfirst : isPlain b = true := by
      apply hplain
      rw [← Nat.succ_pred_eq_of_pos hpos]
      exact List.mem_cons_self
    obtain ⟨hopens, hstring⟩ := of_isPlain_head hfirst rest
    exact .plain (fun h => hne (Tag.named.inj h)) hopens hstring fun c hc =>
      hplain c (List.mem_of_mem_drop hc)

/-- What the scan finds at the front of a text, with the usual markers. -/
theorem scan_front (ho : o.Usual) (hb : Encoded bytes) :
    Front bytes (scan o bytes).1 (scan o bytes).2 := by
  have hfound := scanned o bytes
  generalize (scan o bytes).1 = tag at hfound ⊢
  generalize (scan o bytes).2 = size at hfound ⊢
  -- Numbers, operators and names are alike: no comment, and plain behind the first byte.
  have hplain : ∀ kind, lineComment? o bytes = none → blockComment? o bytes = none →
      string? bytes = none → (kind ≠ .comment ∧ ∀ b ∈ (bytes.take size).drop 1, isPlain b = true) →
      Front bytes (.named kind) size := fun kind hline hblock hstring hfound =>
    .plain (fun h => hfound.1 (Tag.named.inj h)) (not_startsComment ho hline hblock) hstring hfound.2
  cases hfound with
  | layout hf => exact front_of_layout? hb hf
  | lineComment _ hf => exact front_of_lineComment? ho hb hf
  | blockComment _ _ hf => exact front_of_blockComment? ho hf
  | text _ _ _ hf =>
    obtain ⟨q, rest, size, -, -, -, heq⟩ := exists_of_string? hf
    cases heq
    exact .text hf
  | numeral _ hline hblock hstring hf =>
    obtain ⟨hne, hbytes⟩ := number?_plain hf
    exact hplain _ hline hblock hstring ⟨hne, fun c hc => hbytes c (List.mem_of_mem_drop hc)⟩
  | operator _ hline hblock hstring hf =>
    exact hplain _ hline hblock hstring (operator?_plain hf)
  | name _ hline hblock hstring hf =>
    exact hplain _ hline hblock hstring (identifier?_plain hf)
  | char _ hline hblock hstring =>
    refine .plain Tag.noConfusion (not_startsComment ho hline hblock) hstring ?_
    intro b hb
    rw [List.drop_take, Nat.sub_self, List.take_zero] at hb
    cases hb

/-- Where a text in quotes begins the scan finds it, whatever stands behind its first byte. -/
theorem scan_of_string? (ho : o.Usual) (h : string? bytes = some found) :
    scan o bytes = (.named found.kind, found.size) := by
  obtain ⟨q, rest, size, rfl, hq, -⟩ := exists_of_string? h
  have hslash : q ≠ 0x2F := by
    rcases hq with rfl | rfl <;> decide
  have hlayout : layout? (q :: rest) = none := by
    have hascii : ∀ q : UInt8, q = 0x22 ∨ q = 0x27 → [q] = utf8.encode q.toNat ∧
        Scalar.isScalar q.toNat = true ∧ Scalar.isBlank q.toNat = false ∧ q ≠ 0 := by
      rintro q (rfl | rfl) <;> decide
    obtain ⟨hencode, hscalar, hblank, hzero⟩ := hascii q hq
    have hnext := next?_encode hscalar rest
    rw [← hencode] at hnext
    have hhead : (q :: rest).head? ≠ some 0 := fun hz => hzero (Option.some.inj hz)
    have hleading := leading_of_next? hhead hnext
    rw [hblank, if_neg Bool.false_ne_true] at hleading
    exact if_pos hleading
  have hafter : ∀ marker : List UInt8, marker.head? = some 0x2F →
      Sequence.after? marker (q :: rest) = none := by
    intro marker hm
    cases hbody : Sequence.after? marker (q :: rest) with
    | none => rfl
    | some body =>
      obtain ⟨more, rfl⟩ := List.head?_eq_some_iff.mp hm
      exact absurd (List.cons.inj (Sequence.eq_append_of_after? hbody)).1 hslash
  have hline : lineComment? o (q :: rest) = none := by
    rw [lineComment?, hafter _ (by rw [ho.lineOpener]; rfl), Option.map_none]
  have hblock : blockComment? o (q :: rest) = none := by
    rw [blockComment?, hafter _ (by rw [ho.blockOpener]; rfl), Option.map_none]
  have hnamed : scanNamed? o (q :: rest) = some found := by
    rw [scanNamed?, hlayout, hline, hblock, h]
    rfl
  rw [scan, hnamed]

end TextUnits.Lexer
