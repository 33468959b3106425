import TextUnits.Lexer.Value
import TextUnits.Proofs.Buffer.Reachable
import TextUnits.Proofs.Lexer.Coverage

/-!
# Values of comments

The scan delimits a comment by a search for the first closer behind the opener, and the value is
taken later from the bytes of the comment alone, by what they begin and end with. Both agree
whatever the markers are, also where a closer overlaps the opener or itself, where one opener
begins with the other, and where a marker has no bytes: the markers put around the value are the
comment again, so nothing of it is lost.
-/

namespace TextUnits.Lexer

/-- A value that is all of a comment of a source but its markers. -/
inductive Delimits (o : Options) (source : List UInt8) (t : Token) (value : List UInt8) : Prop where
  /-- The comment begins as one that ends with its line. -/
  | line (hbytes : t.bytes = o.lineOpener ++ value)
  /-- The comment ends at the first closer behind its opener. -/
  | closed (hline : ¬ o.lineOpener <+: t.bytes)
      (hbytes : t.bytes = o.blockOpener ++ value ++ o.blockCloser)
      (hfirst : ∀ n < value.length, ¬ o.blockCloser <+: (value ++ o.blockCloser).drop n)
  /-- The comment has no closer and ends with the source. -/
  | unclosed (hline : ¬ o.lineOpener <+: t.bytes) (hbytes : t.bytes = o.blockOpener ++ value)
      (hnone : ¬ o.blockCloser <:+: value) (hend : t.offset + t.length = source.length)

variable {o : Options} {bytes source value : List UInt8} {t : Token} {size : Nat}

/-- A value that is all of a comment but its markers is no longer than it. -/
theorem Delimits.length_le (h : Delimits o source t value) : value.length ≤ t.length := by
  unfold Token.length
  cases h with
  | line hbytes =>
    rw [hbytes, List.length_append]
    exact Nat.le_add_left _ _
  | closed _ hbytes _ =>
    rw [hbytes, List.length_append, List.length_append]
    omega
  | unclosed _ hbytes _ _ =>
    rw [hbytes, List.length_append]
    exact Nat.le_add_left _ _

/-- The body of a comment that begins as one that ends with its line stands behind the opener. -/
theorem commentBody_of_line (value : List UInt8) :
    commentBody o (o.lineOpener ++ value) = value := by
  unfold commentBody
  rw [Sequence.after?_append]

/-- The body of another comment stands behind the other opener, and ends in front of the closer if
it ends with one. -/
theorem commentBody_of_block {body : List UInt8}
    (hline : ¬ o.lineOpener <+: o.blockOpener ++ body) :
    commentBody o (o.blockOpener ++ body) =
      if Sequence.ends o.blockCloser body then body.take (body.length - o.blockCloser.length)
      else body := by
  unfold commentBody
  rw [Sequence.after?_eq_none_iff.mpr hline, Sequence.after?_append]

/-- A closer at the end is taken away. -/
theorem commentBody_of_closed
    (hline : ¬ o.lineOpener <+: o.blockOpener ++ (value ++ o.blockCloser)) :
    commentBody o (o.blockOpener ++ (value ++ o.blockCloser)) = value := by
  have hends : Sequence.ends o.blockCloser (value ++ o.blockCloser) = true :=
    Sequence.ends_iff.mpr (List.suffix_append _ _)
  rw [commentBody_of_block hline, if_pos hends, List.length_append, Nat.add_sub_cancel,
    List.take_left]

/-- Where no closer stands nothing is taken away at the end. -/
theorem commentBody_of_unclosed (hline : ¬ o.lineOpener <+: o.blockOpener ++ value)
    (hnone : ¬ o.blockCloser <:+: value) : commentBody o (o.blockOpener ++ value) = value := by
  have hends : ¬ Sequence.ends o.blockCloser value = true := fun hends =>
    hnone (Sequence.ends_iff.mp hends).isInfix
  rw [commentBody_of_block hline, if_neg hends]

/-- A comment that ends with its line begins with its opener. -/
theorem exists_of_lineComment? (h : lineComment? o bytes = some ⟨.comment, size⟩) :
    ∃ value, bytes.take size = o.lineOpener ++ value := by
  obtain ⟨body, hbody, heq⟩ := Option.map_eq_some_iff.mp h
  cases heq
  rw [Sequence.eq_append_of_after? hbody, List.take_length_add_append]
  exact ⟨_, rfl⟩

/-- A comment of the other form ends at the first closer behind its opener, or else with the
bytes, which then hold none. -/
theorem exists_of_blockComment? (h : blockComment? o bytes = some ⟨.comment, size⟩) :
    (∃ value, bytes.take size = o.blockOpener ++ (value ++ o.blockCloser) ∧
        ∀ n < value.length, ¬ o.blockCloser <+: (value ++ o.blockCloser).drop n) ∨
      ∃ value, bytes.take size = o.blockOpener ++ value ∧ ¬ o.blockCloser <:+: value ∧
        size = bytes.length := by
  obtain ⟨body, hbody, heq⟩ := Option.map_eq_some_iff.mp h
  have hbytes := Sequence.eq_append_of_after? hbody
  cases hindex : Sequence.indexOf? o.blockCloser body with
  | some inside =>
    rw [hindex] at heq
    cases heq
    obtain ⟨value, behind, rfl, rfl⟩ := Sequence.exists_of_indexOf? hindex
    refine .inl ⟨value, ?_, fun n hn hfront => ?_⟩
    · rw [hbytes, Nat.add_assoc, List.take_length_add_append, List.take_length_add_append,
        List.take_left]
    · -- An earlier closer would stand in the bytes behind the opener as well.
      have hdrop : (value ++ o.blockCloser ++ behind).drop n =
          (value ++ o.blockCloser).drop n ++ behind :=
        List.drop_append_of_le_length (by rw [List.length_append]; omega)
      refine Sequence.not_prefix_of_indexOf? hindex n hn (hfront.trans ?_)
      rw [← List.append_assoc, hdrop]
      exact List.prefix_append _ _
  | none =>
    rw [hindex] at heq
    cases heq
    exact .inr ⟨body, by rw [List.take_length, hbytes], Sequence.not_infix_of_indexOf? hindex, rfl⟩

/-- The body of a comment that the scan finds is all of it but its markers. -/
theorem delimits_of_scanned (h : Scanned o bytes (.named .comment) size)
    (ht : t.bytes = bytes.take size)
    (hend : size = bytes.length → t.offset + t.length = source.length) :
    Delimits o source t (commentBody o t.bytes) := by
  rw [ht]
  rcases h.comment with hf | ⟨hline, hf⟩
  · obtain ⟨value, hvalue⟩ := exists_of_lineComment? hf
    rw [hvalue, commentBody_of_line]
    exact .line (ht.trans hvalue)
  · -- Bytes that do not begin with the opener of a line comment have no beginning that does.
    have hopener : ¬ o.lineOpener <+: t.bytes := by
      intro hopener
      rw [ht] at hopener
      exact Sequence.after?_eq_none_iff.mp (Option.map_eq_none_iff.mp hline)
        (hopener.trans (List.take_prefix _ _))
    rcases exists_of_blockComment? hf with ⟨value, hvalue, hfirst⟩ | ⟨value, hvalue, hnone, hsize⟩
    · rw [hvalue, commentBody_of_closed (by rwa [← hvalue, ← ht])]
      exact .closed hopener (by rw [ht, hvalue, List.append_assoc]) hfirst
    · rw [hvalue, commentBody_of_unclosed (by rwa [← hvalue, ← ht]) hnone]
      exact .unclosed hopener (ht.trans hvalue) hnone (hend hsize)

/-- The value of every comment that a reader gives, under any settings, is all of the comment but
its markers. A comment that begins with the opener of line comments is that opener and the value.
Any other one is the opener, the value and the first closer behind the opener, or it is the opener
and the value, has no closer and ends with the bytes that are read. A source of no more bytes than
an array has gives the value as a buffer. -/
theorem openBytes_comment_value {s : Settings} {r : Reader} (h : openBytes source s = .ok r)
    (further : Nat) :
    ∀ t ∈ (r.cursor.runs r.options further).flatMap (·.read), t.tag = .named .comment →
      Delimits r.options r.cursor.rest t (valueBytes r.options t) ∧
        (source.length ≤ Double.maxSafe → ∃ value, t.value r.options = .ok value ∧
          value.content = valueBytes r.options t) := by
  intro t ht htag
  have hbytes : valueBytes r.options t = commentBody r.options t.bytes := by
    simp [valueBytes, Token.isKind, htag]
  obtain ⟨front, later, hreads⟩ := List.append_of_mem ht
  obtain ⟨behind, hrest, hoffset, -, heof | ⟨-, hscan⟩⟩ := exists_of_runs_eq h hreads
  · rw [heof] at htag
    cases htag
  · have hfound := scanned r.options (t.bytes ++ behind)
    rw [hscan, htag] at hfound
    have hdelimits : Delimits r.options r.cursor.rest t (valueBytes r.options t) := by
      rw [hbytes]
      refine delimits_of_scanned hfound List.take_left.symm fun hsize => ?_
      rw [hrest, hoffset, List.length_append, ← hsize]
      rfl
    refine ⟨hdelimits, fun hl => ?_⟩
    have hlength : t.length ≤ source.length := by
      obtain ⟨readable, hreadable, hstart, -⟩ := opened_of_openBytes h
      have hle := (Settings.readable_isPrefix hreadable).length_le
      rw [show readable = r.cursor.rest by rw [hstart]; rfl, hrest, List.length_append,
        List.length_append] at hle
      unfold Token.length
      omega
    obtain ⟨value, hvalue, hcontent, -⟩ := Buffer.exists_ofBytes BufferOptions.limit?_default
      (hdelimits.length_le.trans (hlength.trans hl))
    refine ⟨value, ?_, hcontent⟩
    have hkind : t.isKind .error = false := by
      rw [Token.isKind, htag]
      rfl
    rw [Token.value, hkind, if_neg Bool.false_ne_true, hvalue]

/-- The opener and a slash are a comment without a closer: the asterisk of the opener is no part of
one. -/
theorem openBytes_comment_value_overlap :
    ∃ (r : Reader) (t : Token), openBytes [0x2F, 0x2A, 0x2F] .default = .ok r ∧
      t ∈ (r.cursor.runs r.options 0).flatMap (·.read) ∧ t.tag = .named .comment ∧
      Delimits r.options r.cursor.rest t (valueBytes r.options t) ∧
      (([0x2F, 0x2A, 0x2F] : List UInt8).length ≤ Double.maxSafe →
        ∃ value, t.value r.options = .ok value ∧ value.content = valueBytes r.options t) := by
  have hopen : openBytes [0x2F, 0x2A, 0x2F] .default =
      .ok ⟨⟨false, false, false, false, [0x2F, 0x2F], [0x2F, 0x2A], [0x2A, 0x2F]⟩,
        .start [0x2F, 0x2A, 0x2F]⟩ := by
    with_unfolding_all rfl
  have hread : (⟨.named .comment, 0, [0x2F, 0x2A, 0x2F], 1⟩ : Token) ∈
      (Cursor.runs ⟨false, false, false, false, [0x2F, 0x2F], [0x2F, 0x2A], [0x2A, 0x2F]⟩
        (.start [0x2F, 0x2A, 0x2F]) 0).flatMap (·.read) := by
    decide +kernel
  exact ⟨_, _, hopen, hread, rfl, openBytes_comment_value hopen 0 _ hread rfl⟩

end TextUnits.Lexer
