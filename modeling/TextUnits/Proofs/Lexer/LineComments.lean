import TextUnits.Proofs.Lexer.CommentFree

/-!
# Comments that end with their line

A comment opened by `//` is to be the rest of its line, up to a line break or the end of the source.
The search for the end of a line has two more places to stop: a zero, and a code point that lacks
its last bytes since the length cuts it off. On well-formed text it has no others. So the comment is
the rest of its line unless one of the two stands behind it; then what the line has behind the stop
is read as tokens, and is left when comments are taken out.
-/

namespace TextUnits.Lexer

open Encoding Scan

/-- Bytes in front of which a line ends: there are none, or they begin with a line break. -/
def EndsLine (bytes : List UInt8) : Prop :=
  bytes = [] ∨ ∃ code ∈ breakCodes, utf8.encode code <+: bytes

/-- The opener and text that lies on one line and has no zero. -/
def HoldsLine (bytes : List UInt8) : Prop :=
  ∃ line, bytes = [0x2F, 0x2F] ++ utf8.encodeAll line ∧
    ∀ code ∈ line, Scalar.isScalar code = true ∧ code ≠ 0 ∧ code ∉ breakCodes

/-- A comment that is opened by `//`. -/
def Token.IsLineComment (t : Token) : Prop :=
  t.tag = .named .comment ∧ [0x2F, 0x2F] <+: t.bytes

variable {bytes behind : List UInt8} {codes : List Nat} {o : Options} {pieces : List Piece}

/-- Where a line ends stands no zero, and no code point is cut off. -/
theorem EndsLine.not_stopped (h : EndsLine bytes) :
    bytes.head? ≠ some 0 ∧ ¬ CutOff bytes := by
  rcases h with rfl | ⟨code, hcode, more, rfl⟩
  · exact ⟨(Option.some_ne_none _).symm, fun hcut => hcut.1 rfl⟩
  · have hbreaks : ∀ c ∈ breakCodes, Scalar.isScalar c = true ∧ c ≠ 0 := by decide
    obtain ⟨hscalar, hne⟩ := hbreaks code hcode
    obtain ⟨lead, tail, hencode, -, -, hascii⟩ := exists_lead hscalar
    constructor
    · rw [hencode]
      intro hzero
      obtain rfl : lead = 0 := Option.some.inj hzero
      exact hne (hascii (by decide)).2.symm
    · intro hcut
      have hnone := next?_of_cutOff hcut
      rw [next?_encode hscalar] at hnone
      cases hnone

/-- A line of text that is cut somewhere: it is found up to where it ends, or up to a zero or a code
point that is cut off. -/
theorem exists_line (hc : ∀ code ∈ codes, Scalar.isScalar code = true)
    (h : bytes <+: utf8.encodeAll codes) :
    ∃ line behind, bytes = utf8.encodeAll line ++ behind ∧
      (utf8.encodeAll line).length = (lineEnd bytes).line ∧
      (∀ code ∈ line, Scalar.isScalar code = true ∧ code ≠ 0 ∧ code ∉ breakCodes) ∧
      (EndsLine behind ∨ behind.head? = some 0 ∨ CutOff behind) := by
  have hstop : ∀ {bytes : List UInt8}, (lineEnd bytes).line = 0 →
      (EndsLine bytes ∨ bytes.head? = some 0 ∨ CutOff bytes) →
      ∃ line behind, bytes = utf8.encodeAll line ++ behind ∧
        (utf8.encodeAll line).length = (lineEnd bytes).line ∧
        (∀ code ∈ line, Scalar.isScalar code = true ∧ code ≠ 0 ∧ code ∉ breakCodes) ∧
        (EndsLine behind ∨ behind.head? = some 0 ∨ CutOff behind) := by
    intro bytes hzero hend
    refine ⟨[], bytes, rfl, hzero.symm, ?_, hend⟩
    intro code hcode
    cases hcode
  induction codes generalizing bytes with
  | nil =>
    obtain rfl := List.prefix_nil.mp h
    exact hstop (by rw [lineEnd_of_stop (.inr rfl)]) (.inl (.inl rfl))
  | cons code rest ih =>
    have hscalar := hc code List.mem_cons_self
    rcases exists_front h with ⟨more, rfl, hmore⟩ | ⟨lost, hlost, hencode⟩
    · by_cases hzero : (utf8.encode code ++ more).head? = some 0
      · exact hstop (by rw [lineEnd_of_stop (.inl hzero)]) (.inr (.inl hzero))
      · have hend := lineEnd_of_next? hzero (next?_encode hscalar more)
        by_cases hbreak : Scalar.isNewline code = true
        · rw [if_pos hbreak] at hend
          refine hstop (by rw [hend]) (.inl (.inr ⟨code, isNewline_iff.mp hbreak, ?_⟩))
          exact List.prefix_append _ _
        · obtain ⟨line, behind, rfl, hlength, hline, hstops⟩ :=
            ih (fun c hmem => hc c (List.mem_cons_of_mem code hmem)) hmore
          have hne : code ≠ 0 := by
            rintro rfl
            exact hzero rfl
          rw [if_neg hbreak] at hend
          refine ⟨code :: line, behind, ?_, ?_, ?_, hstops⟩
          · rw [encodeAll_cons, List.append_assoc]
          · rw [length_encodeAll_cons, hlength, hend]
          · rw [List.forall_mem_cons]
            exact ⟨⟨hscalar, hne, fun hmem => hbreak (isNewline_iff.mpr hmem)⟩, hline⟩
    · -- The bytes end within the code point, or in front of it.
      by_cases hempty : bytes = []
      · rw [hempty]
        exact hstop (by rw [lineEnd_of_stop (.inr rfl)]) (.inl (.inl rfl))
      · have hcut : CutOff bytes := ⟨hempty, code, lost, hscalar, hlost, hencode⟩
        exact hstop (by rw [lineEnd_of_stop (.inr (next?_of_cutOff hcut))]) (.inr (.inr hcut))

/-- What the scan finds as a comment where `//` stands ends with its line. -/
theorem scan_lineComment {body : List UInt8} (ho : o.Usual)
    (h : (scan o ([0x2F, 0x2F] ++ body)).1 = .named .comment) :
    (scan o ([0x2F, 0x2F] ++ body)).2 = 2 + (lineEnd body).line := by
  have hline : lineComment? o ([0x2F, 0x2F] ++ body) =
      some ⟨.comment, 2 + (lineEnd body).line⟩ := by
    rw [lineComment?, ho.lineOpener, Sequence.after?_append]
    rfl
  have hlayout : layout? ([0x2F, 0x2F] ++ body) = none := by
    cases hf : layout? ([0x2F, 0x2F] ++ body) with
    | none => rfl
    | some found =>
      have hkind := layout?_kind hf
      have hnamed : scanNamed? o ([0x2F, 0x2F] ++ body) = some found := by
        rw [scanNamed?, hf]
        rfl
      rw [scan, hnamed] at h
      have hcomment : found.kind = .comment := Tag.named.inj h
      rw [hcomment] at hkind
      rcases hkind with hkind | hkind <;> cases hkind
  have hnamed : scanNamed? o ([0x2F, 0x2F] ++ body) =
      some ⟨.comment, 2 + (lineEnd body).line⟩ := by
    rw [scanNamed?, hlayout, hline]
    rfl
  rw [scan, hnamed]

/-- A comment that the scan finds in text that is cut somewhere holds a stretch of its line, and all
that is left of the line unless a zero or a code point that is cut off stands behind it. -/
theorem holdsLine_of_scan {front : List UInt8} (ho : o.Usual)
    (hc : ∀ code ∈ codes, Scalar.isScalar code = true)
    (hs : front ++ (bytes ++ behind) <+: utf8.encodeAll codes) (hopens : [0x2F, 0x2F] <+: bytes)
    (hscan : scan o (bytes ++ behind) = (.named .comment, bytes.length)) :
    HoldsLine bytes ∧ (EndsLine behind ↔ behind.head? ≠ some 0 ∧ ¬ CutOff behind) := by
  obtain ⟨inside, rfl⟩ := hopens
  obtain ⟨more, hmore⟩ := hs
  rw [List.append_assoc] at hmore
  -- Where a comment begins a code point begins, so its body is text as well.
  obtain ⟨before, later, rfl, -, hlater⟩ := exists_split hc hmore.symm (by
    rintro b ⟨⟩
    decide)
  rw [List.append_assoc, List.append_assoc] at hlater
  have hascii : ∀ b ∈ ([0x2F, 0x2F] : List UInt8), b.toNat < 0x80 := by
    simp only [List.mem_cons, List.not_mem_nil, or_false, or_self, forall_eq]
    decide
  obtain ⟨text, rfl, htext⟩ := exists_of_ascii
    (fun code hcode => hc code (List.mem_append_right _ hcode)) hlater hascii
  have hscalar : ∀ code ∈ text, Scalar.isScalar code = true := fun code hcode =>
    hc code (List.mem_append_right _ (List.mem_append_right _ hcode))
  have hbody : inside ++ behind <+: utf8.encodeAll text := by
    rw [htext, ← List.append_assoc]
    exact List.prefix_append _ _
  rw [List.append_assoc] at hscan
  have hsize := scan_lineComment ho (congrArg Prod.fst hscan)
  rw [hscan] at hsize
  obtain ⟨line, stop, hparts, hlength, hline, hstops⟩ := exists_line hscalar hbody
  have hlengths : inside.length = (utf8.encodeAll line).length := by
    dsimp only at hsize
    rw [List.length_append] at hsize
    change 2 + inside.length = _ at hsize
    omega
  obtain ⟨rfl, rfl⟩ := List.append_inj hparts hlengths
  refine ⟨⟨line, rfl, hline⟩, EndsLine.not_stopped, fun hnone => ?_⟩
  rcases hstops with hends | hzero | hcut
  · exact hends
  · exact absurd hzero hnone.1
  · exact absurd hcut hnone.2

/-- A piece of a source, with the pieces in front of it and behind it. -/
theorem Cuts.scan_of_append {front later : List Piece} {p : Piece}
    (h : Cuts o bytes (front ++ p :: later)) :
    bytes = front.flatMap Prod.snd ++ (p.2 ++ later.flatMap Prod.snd) ∧
      scan o (p.2 ++ later.flatMap Prod.snd) = (p.1, p.2.length) := by
  refine ⟨?_, ?_⟩
  · rw [← h.flatten, List.flatMap_append, List.flatMap_cons]
  · induction front generalizing bytes with
    | nil =>
      have hflat := h.flatten
      rw [List.nil_append, List.flatMap_cons] at hflat
      rw [hflat]
      cases h with
      | cons hne h =>
        rw [List.length_take, Nat.min_eq_left (scan_within o hne).2]
    | cons first more ih =>
      cases h with
      | cons hne h => exact ih h

theorem keptBytes_append (front later : List Token) :
    keptBytes (front ++ later) = keptBytes front ++ keptBytes later := by
  rw [keptBytes, List.filter_append, List.flatMap_append]
  rfl

theorem keptBytes_comment {t : Token} (h : t.tag = .named .comment) (later : List Token) :
    keptBytes (t :: later) = keptBytes later := by
  rw [keptBytes_eq, keptBytes_eq, List.map_cons, Token.piece, h, kept_comment]

/-- Every comment opened by `//` that is read from well-formed text, under all settings with the
default markers, holds a stretch of its line, and all that is left of the line, up to a line break
or the end of what is read, exactly when behind it stands no zero and no code point that is cut off.
The tokens in front of it and behind it have none of its bytes, and taking comments out leaves
none of them. -/
theorem openBytes_lineComment {s : Settings} {r : Reader}
    (hc : ∀ code ∈ codes, Scalar.isScalar code = true)
    (hm : s.markers = Settings.default.markers)
    (h : openBytes (utf8.encodeAll codes) s = .ok r) :
    (∀ further front t later,
      (r.cursor.runs r.options further).flatMap (·.read) = front ++ t :: later →
      t.IsLineComment →
        ∃ behind, r.cursor.rest = front.flatMap (·.bytes) ++ (t.bytes ++ behind) ∧
          t.offset = (front.flatMap (·.bytes)).length ∧ later.flatMap (·.bytes) <+: behind ∧
          HoldsLine t.bytes ∧ (EndsLine behind ↔ behind.head? ≠ some 0 ∧ ¬ CutOff behind)) ∧
    (r.options.KeepsAll → ∀ front t later, r.tokens = .ok (front ++ t :: later) →
      t.IsLineComment →
        ∃ behind, later.flatMap (·.bytes) = behind ∧
          r.cursor.rest = front.flatMap (·.bytes) ++ (t.bytes ++ behind) ∧
          keptBytes (front ++ t :: later) = keptBytes front ++ keptBytes later ∧
          HoldsLine t.bytes ∧ (EndsLine behind ↔ behind.head? ≠ some 0 ∧ ¬ CutOff behind)) := by
  obtain ⟨readable, hreadable, hstart, hresolve⟩ := opened_of_openBytes h
  obtain ⟨options, hoptions, ho⟩ := Settings.exists_resolve_usual hm
  obtain rfl := Except.ok.inj (hoptions.symm.trans hresolve)
  have hpart : r.cursor.rest <+: utf8.encodeAll codes := by
    rw [hstart]
    exact Settings.readable_isPrefix hreadable
  constructor
  · intro further front t later hreads ht
    obtain ⟨behind, hrest, hoffset, hlater, heof | ⟨-, hscan⟩⟩ := exists_of_runs_eq h hreads
    · rw [ht.1] at heof
      cases heof
    · rw [ht.1] at hscan
      exact ⟨behind, hrest, hoffset, hlater,
        holdsLine_of_scan ho hc (hrest ▸ hpart) ht.2 hscan⟩
  · intro hk front t later htokens ht
    have hcuts := Reader.cuts_of_tokens hk htokens
    rw [List.map_append, List.map_cons] at hcuts
    obtain ⟨hrest, hscan⟩ := hcuts.scan_of_append
    rw [List.flatMap_map, List.flatMap_map] at hrest
    rw [List.flatMap_map] at hscan
    change scan r.options (t.bytes ++ later.flatMap (·.bytes)) = (t.tag, t.bytes.length) at hscan
    rw [ht.1] at hscan
    refine ⟨_, rfl, hrest, ?_, holdsLine_of_scan ho hc (hrest ▸ hpart) ht.2 hscan⟩
    rw [keptBytes_append, keptBytes_comment ht.1]

/-- A comment in front of a line separator is the rest of its line. -/
theorem openBytes_lineComment_separator :
    ∃ (r : Reader) (t : Token) (later : List Token),
      openBytes (utf8.encodeAll [0x2F, 0x2F, 0xE9, 0x2028, 0x62]) .default = .ok r ∧
      r.tokens = .ok ([] ++ t :: later) ∧ t.IsLineComment ∧
      t.bytes = utf8.encodeAll [0x2F, 0x2F, 0xE9] ∧
      later.flatMap (·.bytes) = utf8.encodeAll [0x2028, 0x62] ∧ HoldsLine t.bytes ∧
      EndsLine (later.flatMap (·.bytes)) ∧
      keptBytes ([] ++ t :: later) = keptBytes [] ++ keptBytes later := by
  have hscalar : ∀ code ∈ [0x2F, 0x2F, 0xE9, 0x2028, 0x62], Scalar.isScalar code = true := by
    decide
  have hopen : openBytes (utf8.encodeAll [0x2F, 0x2F, 0xE9, 0x2028, 0x62]) .default =
      .ok ⟨⟨false, false, false, false, [0x2F, 0x2F], [0x2F, 0x2A], [0x2A, 0x2F]⟩,
        .start (utf8.encodeAll [0x2F, 0x2F, 0xE9, 0x2028, 0x62])⟩ := by
    with_unfolding_all rfl
  have htokens : Reader.tokens
      ⟨⟨false, false, false, false, [0x2F, 0x2F], [0x2F, 0x2A], [0x2A, 0x2F]⟩,
        .start (utf8.encodeAll [0x2F, 0x2F, 0xE9, 0x2028, 0x62])⟩ =
      .ok ([] ++ ⟨.named .comment, 0, [0x2F, 0x2F, 0xC3, 0xA9], 1⟩ ::
        [⟨.named .newline, 4, [0xE2, 0x80, 0xA8], 1⟩, ⟨.named .identifier, 7, [0x62], 2⟩]) :=
    eq_ok_of_toOption (by decide +kernel)
  have hcomment : Token.IsLineComment ⟨.named .comment, 0, [0x2F, 0x2F, 0xC3, 0xA9], 1⟩ :=
    ⟨rfl, [0xC3, 0xA9], rfl⟩
  obtain ⟨behind, hbehind, -, hkept, hholds, hends⟩ :=
    (openBytes_lineComment hscalar rfl hopen).2 ⟨rfl, rfl, rfl⟩ _ _ _ htokens hcomment
  rw [← hbehind] at hends
  refine ⟨_, _, _, hopen, htokens, hcomment, rfl, rfl, hholds, hends.mpr ⟨by decide, ?_⟩, hkept⟩
  intro hcut
  have hfront := next?_encodeAll (hscalar 0x2028 (by decide)) [0x62]
  cases (next?_of_cutOff hcut).symm.trans hfront

/-- A comment with a zero in its line ends in front of the zero, where the line does not end. The
zero and the name behind it are read as tokens and kept. -/
theorem not_endsLine_zero :
    ∃ (r : Reader) (t : Token) (later : List Token),
      openBytes (utf8.encodeAll [0x2F, 0x2F, 0x61, 0x00, 0x62]) .default = .ok r ∧
      r.tokens = .ok (t :: later) ∧ t.IsLineComment ∧ t.bytes = [0x2F, 0x2F, 0x61] ∧
      later.flatMap (·.bytes) = [0x00, 0x62] ∧ ¬ EndsLine (later.flatMap (·.bytes)) ∧
      keptBytes (t :: later) = [0x00, 0x62] ∧ r.stripped = .ok [0x00, 0x62] := by
  have hopen : openBytes (utf8.encodeAll [0x2F, 0x2F, 0x61, 0x00, 0x62]) .default =
      .ok ⟨⟨false, false, false, false, [0x2F, 0x2F], [0x2F, 0x2A], [0x2A, 0x2F]⟩,
        .start [0x2F, 0x2F, 0x61, 0x00, 0x62]⟩ := by
    with_unfolding_all rfl
  have htokens : Reader.tokens
      ⟨⟨false, false, false, false, [0x2F, 0x2F], [0x2F, 0x2A], [0x2A, 0x2F]⟩,
        .start [0x2F, 0x2F, 0x61, 0x00, 0x62]⟩ =
      .ok (⟨.named .comment, 0, [0x2F, 0x2F, 0x61], 1⟩ ::
        [⟨.char 0, 3, [0x00], 1⟩, ⟨.named .identifier, 4, [0x62], 1⟩]) :=
    eq_ok_of_toOption (by decide +kernel)
  have hstripped : Reader.stripped
      ⟨⟨false, false, false, false, [0x2F, 0x2F], [0x2F, 0x2A], [0x2A, 0x2F]⟩,
        .start [0x2F, 0x2F, 0x61, 0x00, 0x62]⟩ = .ok [0x00, 0x62] :=
    eq_ok_of_toOption (by decide +kernel)
  refine ⟨_, _, _, hopen, htokens, ⟨rfl, [0x61], rfl⟩, rfl, rfl, fun hends => ?_, rfl, hstripped⟩
  exact hends.not_stopped.1 rfl

end TextUnits.Lexer
