import TextUnits.Proofs.Lexer.Boundaries

/-!
# Names are maximal runs

Every token begins between two code points of well-formed text, whatever the markers and the length
are, so a name is read from a whole code point on and takes all that go on with it. The length alone
can cut a code point. What is left of it is read as a part of the name in front, or as a name of its
own, and only there a token is not made of code points.
-/

namespace TextUnits.Lexer

open Encoding Scan

variable {o : Options} {seen : List Nat} {stub : List UInt8}

/-- A token in text behind which a code point may be cut off ends between two code points, or with
the bytes. -/
theorem scan_ends_of_remnant (ho : o.Encoded) (h : ∀ code ∈ seen, Scalar.isScalar code = true)
    (hstub : Remnant stub) (hne : utf8.encodeAll seen ++ stub ≠ []) :
    Ends seen (utf8.encodeAll seen ++ stub) (scan o (utf8.encodeAll seen ++ stub)).2 := by
  rcases hstub with rfl | ⟨-, code, lost, hscalar, hlost, hcode⟩
  · exact scan_ends ho h (List.append_nil _ ▸ List.prefix_refl _) hne
  · have hwhole : utf8.encodeAll (seen ++ [code]) = (utf8.encodeAll seen ++ stub) ++ lost := by
      rw [encodeAll_append, encodeAll_cons, hcode, List.append_assoc, List.append_assoc]
      exact congrArg (fun more => utf8.encodeAll seen ++ (stub ++ more)) (List.append_nil lost)
    have hscalars : ∀ c ∈ seen ++ [code], Scalar.isScalar c = true :=
      List.forall_mem_append.mpr ⟨h, List.forall_mem_singleton.mpr hscalar⟩
    rcases scan_ends ho hscalars (hwhole ▸ List.prefix_append _ _) hne with
      ⟨taken, later, hsplit, hsize⟩ | hlength
    · rcases List.prefix_concat_iff.mp ⟨later, hsplit.symm⟩ with hall | ⟨behind, hseen⟩
      · -- The code point that is cut off is longer than the bytes.
        have hle := (scan_within o hne).2
        have hpos := List.length_pos_iff.mpr hlost
        rw [← hsize, hall, hwhole, List.length_append] at hle
        omega
      · exact .inl ⟨taken, behind, hseen.symm, hsize⟩
    · exact .inr hlength

/-- A token that is a name of a text behind which a code point may be cut off: it is code points
that go on with a name, the first of which can start one, up to a code point that does not go on
with it. Where none is behind them, what is left of the one that is cut off belongs to the token. -/
def Token.IsName (o : Options) (seen : List Nat) (stub : List UInt8) (t : Token) : Prop :=
  ∃ before name behind, before ++ (name ++ behind) = seen ∧
    t.offset = (utf8.encodeAll before).length ∧ t.bytes ≠ [] ∧
    t.bytes = utf8.encodeAll name ++ (if behind = [] then stub else []) ∧
    (∀ code ∈ name.head?, startsIdentifier code = true) ∧
    (∀ code ∈ name, continuesIdentifier o code = true ∧ Scalar.isWhitespace code = false) ∧
    ∀ code ∈ behind.head?, continuesIdentifier o code = false

namespace Cursor

variable {c : Cursor}

/-- A cursor between two code points of a text behind which one may be cut off, or at the end of
the bytes. -/
def Parts (seen : List Nat) (stub : List UInt8) (c : Cursor) : Prop :=
  c.rest = [] ∨ ∃ before later, before ++ later = seen ∧ c.rest = utf8.encodeAll later ++ stub ∧
    c.offset = (utf8.encodeAll before).length

/-- Every token leaves the cursor between two code points, or at the end. -/
theorem Parts.step (ho : o.Encoded) (h : ∀ code ∈ seen, Scalar.isScalar code = true)
    (hstub : Remnant stub) (hc : c.Parts seen stub) : (c.step o).Parts seen stub := by
  by_cases hend : c.rest = []
  · rw [step_of_end hend]
    exact .inl hend
  · obtain ⟨before, later, rfl, hrest, hplace⟩ := hc.resolve_left hend
    have hscalar := fun c hc => h c (List.mem_append_right before hc)
    rw [step_of_scan hend]
    rw [hrest] at hend
    unfold Cursor.take
    rw [hrest]
    rcases scan_ends_of_remnant ho hscalar hstub hend with ⟨taken, behind, rfl, hsize⟩ | hlength
    · refine .inr ⟨before ++ taken, behind, List.append_assoc _ _ _, ?_, ?_⟩
      · dsimp only
        rw [← hsize, encodeAll_append, List.append_assoc, List.drop_left]
      · dsimp only
        rw [← hsize, hplace, encodeAll_append, List.length_append]
    · refine .inl ?_
      dsimp only
      rw [hlength, List.drop_length]

/-- A name at a cursor between two code points is a maximal run. -/
theorem Parts.isName (h : ∀ code ∈ seen, Scalar.isScalar code = true) (hstub : Remnant stub)
    (hc : c.Parts seen stub) (ht : (c.step o).token.tag = .named .identifier) :
    (c.step o).token.IsName o seen stub := by
  by_cases hend : c.rest = []
  · rw [step_of_end hend] at ht
    cases ht
  · obtain ⟨before, later, rfl, hrest, hplace⟩ := hc.resolve_left hend
    have hscalar := fun c hc => h c (List.mem_append_right before hc)
    rw [step_of_scan hend] at ht ⊢
    rw [hrest] at ht ⊢
    change (scan o (utf8.encodeAll later ++ stub)).1 = _ at ht
    have hfound := scanned o (utf8.encodeAll later ++ stub)
    rw [ht] at hfound
    obtain ⟨hlayout, hname⟩ := hfound.identifier
    obtain ⟨hpos, name, behind, hrun, hstarts⟩ :=
      identifier?_name hscalar hstub (leading_of_layout?_eq_none hlayout) hname
    have hbytes : (c.take (scan o (utf8.encodeAll later ++ stub)).1
        (scan o (utf8.encodeAll later ++ stub)).2).token.bytes =
          utf8.encodeAll name ++ if behind = [] then stub else [] := by
      change c.rest.take _ = _
      rw [hrest]
      exact hrun.take_eq
    refine ⟨before, name, behind, congrArg (before ++ ·) hrun.parts, hplace, ?_, hbytes, hstarts,
      ?_, hrun.ends⟩
    · rw [hbytes]
      exact List.length_pos_iff.mp (hrun.length_eq ▸ hpos)
    · intro code hcode
      have hgoes := hrun.continues code hcode
      exact ⟨hgoes, (Bool.or_eq_false_iff.mp (isBlank_of_continuesIdentifier hgoes)).2⟩

end Cursor

/-- Every name in a well-formed source, read under any settings that are accepted, is a maximal run
of code points that go on with a name; none of them is white space. What the length lets through of
a code point that it cuts belongs to the name in front of it, or is a name of its own. -/
theorem openBytes_identifier {codes : List Nat} {s : Settings} {r : Reader}
    (h : ∀ code ∈ codes, Scalar.isScalar code = true)
    (hopen : openBytes (utf8.encodeAll codes) s = .ok r) :
    ∃ seen unseen stub, seen ++ unseen = codes ∧ stub <+: utf8.encodeAll unseen ∧ Remnant stub ∧
      r.cursor.rest = utf8.encodeAll seen ++ stub ∧
      ∀ further, ∀ t ∈ (r.cursor.runs r.options further).flatMap (·.read),
        t.tag = .named .identifier → t.IsName r.options seen stub := by
  obtain ⟨readable, hreadable, hstart, hresolve⟩ := opened_of_openBytes hopen
  have ho := Settings.encoded_of_resolve hresolve
  have hfront := Settings.readable_isPrefix hreadable
  obtain ⟨seen, stub, ⟨unseen, rfl⟩, rfl, hstub⟩ := exists_remnant h hfront
  rw [encodeAll_append, List.prefix_append_right_inj] at hfront
  have hscalar : ∀ code ∈ seen, Scalar.isScalar code = true :=
    fun c hc => h c (List.mem_append_left unseen hc)
  have hrest : r.cursor.rest = utf8.encodeAll seen ++ stub := by
    rw [hstart]
    rfl
  have hparts : r.cursor.Parts seen stub := by
    refine .inr ⟨[], seen, rfl, hrest, ?_⟩
    rw [hstart]
    rfl
  refine ⟨seen, unseen, stub, rfl, hfront, hstub, hrest, fun further t hmem ht => ?_⟩
  obtain ⟨d, hd, rfl⟩ :=
    Cursor.exists_of_mem_runs (fun d hd => hd.step ho hscalar hstub) hparts further t hmem
  exact hd.isName hscalar hstub ht

/-- A name behind a white space beyond ASCII, with a dash and two of the three bytes of a code point
that the length cuts. -/
theorem openBytes_identifier_remnant :
    ∃ (r : Reader) (t : Token) (seen unseen : List Nat) (stub : List UInt8),
      openBytes (utf8.encodeAll [0x61, 0xE9, 0x2003, 0x62, 0x2D, 0x20AC])
        ⟨none, none, none, some true, none, none, none, some (.ofNat 10)⟩ = .ok r ∧
      t ∈ (r.cursor.runs r.options 0).flatMap (·.read) ∧ t.bytes = [0x62, 0x2D, 0xE2, 0x82] ∧
      seen ++ unseen = [0x61, 0xE9, 0x2003, 0x62, 0x2D, 0x20AC] ∧
      stub <+: utf8.encodeAll unseen ∧ Remnant stub ∧
      r.cursor.rest = utf8.encodeAll seen ++ stub ∧ t.IsName r.options seen stub := by
  have hopen : openBytes (utf8.encodeAll [0x61, 0xE9, 0x2003, 0x62, 0x2D, 0x20AC])
        ⟨none, none, none, some true, none, none, none, some (.ofNat 10)⟩ =
      .ok ⟨⟨false, false, false, true, [0x2F, 0x2F], [0x2F, 0x2A], [0x2A, 0x2F]⟩,
        .start [0x61, 0xC3, 0xA9, 0xE2, 0x80, 0x83, 0x62, 0x2D, 0xE2, 0x82]⟩ :=
    openBytes_of_readable (eq_ok_of_toOption (by decide +kernel)) (by with_unfolding_all rfl)
  have hread : (⟨.named .identifier, 6, [0x62, 0x2D, 0xE2, 0x82], 1⟩ : Token) ∈
      (Cursor.runs ⟨false, false, false, true, [0x2F, 0x2F], [0x2F, 0x2A], [0x2A, 0x2F]⟩
        (.start [0x61, 0xC3, 0xA9, 0xE2, 0x80, 0x83, 0x62, 0x2D, 0xE2, 0x82]) 0).flatMap
          (·.read) := by
    decide +kernel
  obtain ⟨seen, unseen, stub, hparts, hfront, hstub, hrest, hnames⟩ :=
    openBytes_identifier (by decide) hopen
  exact ⟨_, _, seen, unseen, stub, hopen, hread, rfl, hparts, hfront, hstub, hrest,
    hnames 0 _ hread rfl⟩

/-- Bytes that end within a code point are no text. -/
theorem not_encoded_of_cutOff (h : ∀ code ∈ seen, Scalar.isScalar code = true)
    (hcut : CutOff stub) : ¬ Lexer.Encoded (utf8.encodeAll seen ++ stub) := by
  rintro ⟨codes, hbytes, hcodes⟩
  induction seen generalizing codes with
  | nil =>
    have hnone : next? (utf8.encodeAll codes) = none := hbytes ▸ next?_of_cutOff hcut
    cases codes with
    | nil => exact hcut.1 hbytes
    | cons code rest =>
      rw [next?_encodeAll (hcodes code List.mem_cons_self)] at hnone
      cases hnone
  | cons code rest ih =>
    obtain ⟨hscalar, hrest⟩ := List.forall_mem_cons.mp h
    rw [encodeAll_cons, List.append_assoc] at hbytes
    have hnext := next?_encode hscalar (utf8.encodeAll rest ++ stub)
    rw [hbytes] at hnext
    cases codes with
    | nil => cases hnext
    | cons first more =>
      rw [next?_encodeAll (hcodes first List.mem_cons_self), Option.some.injEq,
        Prod.mk.injEq, Prod.mk.injEq] at hnext
      exact ih hrest more hnext.2.2.symm fun c hc => hcodes c (List.mem_cons_of_mem first hc)

/-- A letter and a white space that the length cuts are read as one name, which is no text. -/
theorem not_encoded_identifier :
    ∃ (r : Reader) (t : Token),
      openBytes (utf8.encodeAll [0x61, 0x2003])
        { Settings.default with length := some (.ofNat 3) } = .ok r ∧
      t ∈ (r.cursor.runs r.options 0).flatMap (·.read) ∧ t.tag = .named .identifier ∧
      t.offset = 0 ∧ t.bytes = [0x61, 0xE2, 0x80] ∧ ¬ Lexer.Encoded t.bytes := by
  have hopen : openBytes (utf8.encodeAll [0x61, 0x2003])
        { Settings.default with length := some (.ofNat 3) } =
      .ok ⟨⟨false, false, false, false, [0x2F, 0x2F], [0x2F, 0x2A], [0x2A, 0x2F]⟩,
        .start [0x61, 0xE2, 0x80]⟩ :=
    openBytes_of_readable (eq_ok_of_toOption (by decide +kernel)) (by with_unfolding_all rfl)
  have hread : (⟨.named .identifier, 0, [0x61, 0xE2, 0x80], 1⟩ : Token) ∈
      (Cursor.runs ⟨false, false, false, false, [0x2F, 0x2F], [0x2F, 0x2A], [0x2A, 0x2F]⟩
        (.start [0x61, 0xE2, 0x80]) 0).flatMap (·.read) := by
    decide +kernel
  have hcut : CutOff [0xE2, 0x80] :=
    ⟨List.cons_ne_nil _ _, 0x2003, [0x83], by decide, List.cons_ne_nil _ _, by decide⟩
  have hnot : ¬ Lexer.Encoded (utf8.encodeAll [0x61] ++ [0xE2, 0x80]) :=
    not_encoded_of_cutOff (by decide) hcut
  exact ⟨_, _, hopen, hread, rfl, rfl, rfl, hnot⟩

end TextUnits.Lexer
