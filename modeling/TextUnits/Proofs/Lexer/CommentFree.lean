import TextUnits.Proofs.Lexer.Fronts
import TextUnits.Proofs.Lexer.Progress

/-!
# Source without comments has none

What is left of a source without its comments is clean: outside of texts in quotes no comment begins
anywhere. A comment leaves nothing behind that could begin one, since a slash in front of it would
have begun a comment earlier, and it closes no text either, since a quote behind it would have
closed the text already. The scan finds no comment in clean bytes, wherever tokens of the source
have grown together, and what it leaves is clean again.
-/

namespace TextUnits.Lexer

open Encoding

/-- Bytes of the pieces that are no comments. -/
def kept (pieces : List Piece) : List UInt8 :=
  (pieces.filter fun p => p.1 ≠ .named .comment).flatMap Prod.snd

/-- Bytes in which no comment begins outside of texts in quotes. -/
inductive Clean : List UInt8 → Prop where
  /-- There are none. -/
  | nil : Clean []
  /-- A text in quotes, whatever it has, and clean bytes behind it. -/
  | text {bytes : List UInt8} {found : Found} (hs : string? bytes = some found)
      (h : Clean (bytes.drop found.size)) : Clean bytes
  /-- A byte where neither a text nor a comment begins, and clean bytes behind it. -/
  | byte {b : UInt8} {rest : List UInt8} (hs : string? (b :: rest) = none)
      (ho : ¬ StartsComment (b :: rest)) (h : Clean rest) : Clean (b :: rest)

variable {bytes later : List UInt8} {pieces : List Piece} {tag : Tag} {o : Options}
  {quote before : UInt8} {size : Nat} {found : Found}

theorem kept_comment (bytes : List UInt8) (pieces : List Piece) :
    kept ((.named .comment, bytes) :: pieces) = kept pieces := by
  rw [kept, List.filter_cons_of_neg, kept]
  exact Bool.eq_false_iff.mp (decide_eq_false fun hne => hne rfl)

theorem kept_cons (h : tag ≠ .named .comment) (bytes : List UInt8) (pieces : List Piece) :
    kept ((tag, bytes) :: pieces) = bytes ++ kept pieces := by
  rw [kept, List.filter_cons_of_pos (by simpa only [decide_eq_true_eq] using h), List.flatMap_cons,
    kept]

/-- The bytes of tokens that are no comments are those of their pieces. -/
theorem keptBytes_eq (tokens : List Token) : keptBytes tokens = kept (tokens.map Token.piece) := by
  induction tokens with
  | nil => rfl
  | cons t rest ih =>
    by_cases ht : t.tag = .named .comment
    · have hskip : keptBytes (t :: rest) = keptBytes rest := by
        rw [keptBytes, List.filter_cons_of_neg, keptBytes]
        rw [Token.isKind, ht]
        decide
      rw [hskip, ih, List.map_cons, Token.piece, ht, kept_comment]
    · have hkeep : keptBytes (t :: rest) = t.bytes ++ keptBytes rest := by
        rw [keptBytes, List.filter_cons_of_pos, List.flatMap_cons, keptBytes]
        rw [Token.isKind, Bool.not_eq_true', beq_eq_false_iff_ne]
        exact ht
      rw [hkeep, ih, List.map_cons, Token.piece, kept_cons ht]

/-- No quote closes a text in two parts when none does in either, the second read behind the last
byte of the first. -/
theorem closing?_append_eq_none {front : List UInt8} :
    closing? quote before (front ++ later) = none ↔
      closing? quote before front = none ∧ closing? quote (front.getLastD before) later = none := by
  induction front generalizing before with
  | nil => exact ⟨fun h => ⟨rfl, h⟩, fun h => h.2⟩
  | cons b rest ih =>
    rw [List.cons_append, closing?, closing?, List.getLastD_cons]
    split_ifs with hq
    · simp only [false_and]
    · rw [Option.map_eq_none_iff, Option.map_eq_none_iff]
      exact ih

/-- A closing quote is found whatever stands behind it. -/
theorem closing?_take (h : closing? quote before bytes = some size) (later : List UInt8) :
    closing? quote before (bytes.take size ++ later) = some size := by
  induction bytes generalizing before size with
  | nil => cases h
  | cons b rest ih =>
    unfold closing? at h
    split_ifs at h with hq
    · cases h
      exact if_pos hq
    · obtain ⟨n, hn, rfl⟩ := Option.map_eq_some_iff.mp h
      rw [List.take_succ_cons, List.cons_append, closing?, if_neg hq, ih hn]
      rfl

/-- The byte in front matters only when it is a backslash in front of a quote. -/
theorem closing?_of_before {other : UInt8} (h : closing? quote other later = none)
    (ho : other = 0x5C → later.head? ≠ some quote) : closing? quote before later = none := by
  cases later with
  | nil => rfl
  | cons b rest =>
    unfold closing? at h ⊢
    split_ifs at h with hother
    have hnot : ¬ (b = quote ∧ before ≠ 0x5C) := by
      rintro ⟨rfl, -⟩
      have hslash : other = 0x5C := by
        by_contra hne
        exact hother ⟨rfl, hne⟩
      exact ho hslash rfl
    rw [if_neg hnot]
    exact h

/-- A text in quotes is found whatever stands behind it. -/
theorem string?_take (h : string? bytes = some found) (later : List UInt8) :
    string? (bytes.take found.size ++ later) = some found := by
  obtain ⟨q, rest, size, rfl, hq, hs, rfl⟩ := exists_of_string? h
  have hclosed := closing?_take hs later
  dsimp only
  rw [Nat.add_comm 1 size, List.take_succ_cons, List.cons_append, string?, if_pos hq, hclosed,
    Option.map_some, Nat.add_comm 1 size]

/-- Plain bytes stand in no text, so clean bytes are clean behind them. -/
theorem Clean.of_append {front : List UInt8} (h : Clean (front ++ later))
    (hp : ∀ b ∈ front, isPlain b = true) : Clean later := by
  induction front with
  | nil => exact h
  | cons b rest ih =>
    rw [List.forall_mem_cons] at hp
    generalize hwhole : b :: rest ++ later = whole at h
    cases h with
    | nil => cases hwhole
    | text hs h =>
      rw [← hwhole, List.cons_append, (of_isPlain_head hp.1 _).2] at hs
      cases hs
    | byte hs ho h =>
      obtain ⟨-, rfl⟩ := List.cons.inj hwhole
      exact ih h hp.2

/-- Plain bytes in front of clean bytes are clean. -/
theorem Clean.append {front : List UInt8} (h : Clean later)
    (hp : ∀ b ∈ front, isPlain b = true) : Clean (front ++ later) := by
  induction front with
  | nil => exact h
  | cons b rest ih =>
    rw [List.forall_mem_cons] at hp
    obtain ⟨ho, hs⟩ := of_isPlain_head hp.1 (rest ++ later)
    exact .byte hs ho (ih hp.2)

/-- The scan finds no comment at the front of clean bytes, and leaves clean bytes. -/
theorem Clean.scan (ho : o.Usual) (hb : Encoded bytes) (hne : bytes ≠ []) (h : Clean bytes) :
    (scan o bytes).1 ≠ .named .comment ∧ Clean (bytes.drop (scan o bytes).2) := by
  have hfront := scan_front ho hb
  have hpos := (scan_within o hne).1 ho.moves
  generalize (Lexer.scan o bytes).1 = tag at hfront ⊢
  generalize (Lexer.scan o bytes).2 = size at hfront hpos ⊢
  cases hfront with
  | comment hopens hends =>
    cases h with
    | nil => exact absurd rfl hne
    | text hs h =>
      rw [string?_of_startsComment hopens] at hs
      cases hs
    | byte hs hnot h => exact absurd hopens hnot
  | text hs =>
    refine ⟨by decide, ?_⟩
    cases h with
    | nil => exact absurd rfl hne
    | text hs' h =>
      rw [hs, Option.some.injEq] at hs'
      rw [hs']
      exact h
    | byte hs' hnot h =>
      rw [hs] at hs'
      cases hs'
  | plain ht hopens hs hp =>
    refine ⟨ht, ?_⟩
    cases h with
    | nil => exact absurd rfl hne
    | text hs' h =>
      rw [hs] at hs'
      cases hs'
    | byte hs' hnot h =>
      rename_i b rest
      obtain ⟨n, rfl⟩ := Nat.exists_eq_succ_of_ne_zero (Nat.ne_of_gt hpos)
      have hparts := List.take_append_drop n rest
      rw [← hparts] at h
      exact h.of_append hp

section

variable (ho : o.Usual)

include ho

/-- What is left of bytes that do not start with a comment starts like them. -/
theorem Cuts.head?_kept (h : Cuts o bytes pieces) (hb : Encoded bytes)
    (hn : ¬ StartsComment bytes) : (kept pieces).head? = bytes.head? := by
  cases h with
  | nil => rfl
  | cons hne h =>
    have hfront := scan_front ho hb
    have hpos := (scan_within o hne).1 ho.moves
    have ht : (scan o bytes).1 ≠ .named .comment := by
      intro he
      rw [he] at hfront
      cases hfront with
      | comment hopens hends => exact hn hopens
      | plain ht hopens hs hp => exact ht rfl
    rw [kept_cons ht]
    cases bytes with
    | nil => exact absurd rfl hne
    | cons b rest =>
      obtain ⟨n, hsize⟩ := Nat.exists_eq_succ_of_ne_zero (Nat.ne_of_gt hpos)
      rw [hsize]
      rfl

/-- A quote that closes no text in the bytes closes none in what is left of them. -/
theorem Cuts.closing?_kept (h : Cuts o bytes pieces) (hb : Encoded bytes)
    (hq : quote = 0x22 ∨ quote = 0x27) (hc : closing? quote before bytes = none) :
    closing? quote before (kept pieces) = none := by
  induction h generalizing before with
  | nil => exact hc
  | cons hne h ih =>
    rename_i bytes later
    have hlater := (hb.scan ho.encoded hne).2
    have hfront := scan_front ho hb
    have hparts := List.take_append_drop (scan o bytes).2 bytes
    rw [← hparts, closing?_append_eq_none] at hc
    have hrest := ih hlater hc.2
    by_cases ht : (scan o bytes).1 = .named .comment
    · rw [ht] at hfront ⊢
      rw [kept_comment]
      refine closing?_of_before hrest ?_
      cases hfront with
      | plain hnot hopens hs hp => exact absurd rfl hnot
      | comment hopens hends =>
        intro hslash
        rcases hends with hlast | hplain
        · exact absurd hslash (hlast before)
        · -- No quote stands behind the comment, and no comment either that would hide one.
          have hhead : (kept later).head? = (bytes.drop (scan o bytes).2).head? := by
            refine h.head?_kept ho hlater ?_
            cases hdrop : bytes.drop (scan o bytes).2 with
            | nil => exact not_startsComment_nil
            | cons b more =>
              rw [hdrop] at hplain
              exact (of_isPlain_head (hplain b rfl) more).1
          rw [hhead]
          intro hquote
          have hfirst := hplain quote hquote
          rcases hq with rfl | rfl <;> exact absurd hfirst (by decide)
    · rw [kept_cons ht, closing?_append_eq_none]
      exact ⟨hc.1, hrest⟩

/-- No text begins in front of what is left when none begins in front of the bytes. -/
theorem Cuts.string?_kept {b : UInt8} {rest : List UInt8} {n : Nat}
    (h : Cuts o (rest.drop n) pieces) (hb : Encoded (rest.drop n))
    (hs : string? (b :: rest) = none) : string? (b :: (rest.take n ++ kept pieces)) = none := by
  unfold string? at hs ⊢
  dsimp only at hs ⊢
  split_ifs at hs ⊢ with hq
  · rw [Option.map_eq_none_iff] at hs ⊢
    rw [← List.take_append_drop n rest, closing?_append_eq_none] at hs
    exact closing?_append_eq_none.mpr ⟨hs.1, h.closing?_kept ho hb hq hs.2⟩
  · rfl

/-- No comment begins in front of what is left when none begins in front of the bytes. -/
theorem Cuts.not_startsComment_kept {b : UInt8} {rest : List UInt8} {n : Nat}
    (h : Cuts o (rest.drop n) pieces) (hb : Encoded (rest.drop n))
    (hn : ¬ StartsComment (b :: rest)) : ¬ StartsComment (b :: (rest.take n ++ kept pieces)) := by
  rw [startsComment_cons] at hn ⊢
  rintro ⟨rfl, hnext⟩
  have hsecond : rest.head? ≠ some 0x2F ∧ rest.head? ≠ some 0x2A := by
    rw [← not_or]
    exact fun hnext => hn ⟨rfl, hnext⟩
  have hhead : (rest.take n ++ kept pieces).head? = rest.head? := by
    cases htake : rest.take n with
    | cons first more =>
      rw [← List.take_append_drop n rest, htake]
      rfl
    | nil =>
      -- The slash stands alone, and no comment begins behind it.
      have hdrop := List.take_append_drop n rest
      rw [htake, List.nil_append] at hdrop
      rw [hdrop] at h hb
      refine h.head?_kept ho hb ?_
      cases rest with
      | nil => exact not_startsComment_nil
      | cons first more =>
        rw [startsComment_cons]
        rintro ⟨rfl, -⟩
        exact hsecond.1 rfl
  rw [hhead] at hnext
  exact not_or.mpr hsecond hnext

/-- What is left of bytes without their comments is clean. -/
theorem Cuts.clean_kept (h : Cuts o bytes pieces) (hb : Encoded bytes) : Clean (kept pieces) := by
  induction h with
  | nil => exact .nil
  | cons hne h ih =>
    rename_i bytes later
    have hlater := (hb.scan ho.encoded hne).2
    have hclean := ih hlater
    have hfront := scan_front ho hb
    have hpos := (scan_within o hne).1 ho.moves
    generalize (scan o bytes).1 = tag at hfront ⊢
    generalize (scan o bytes).2 = size at hfront hpos h hlater ⊢
    cases hfront with
    | comment hopens hends =>
      rw [kept_comment]
      exact hclean
    | text hs =>
      rw [kept_cons (by decide)]
      have htext := string?_take hs (kept later)
      have hle := (string?_within hs).2
      refine .text htext ?_
      rw [List.drop_append_of_le_length (by rw [List.length_take]; omega), List.drop_take_self]
      exact hclean
    | plain ht hopens hs hp =>
      rw [kept_cons ht]
      cases bytes with
      | nil => exact absurd rfl hne
      | cons b rest =>
        obtain ⟨n, rfl⟩ := Nat.exists_eq_succ_of_ne_zero (Nat.ne_of_gt hpos)
        rw [List.drop_succ_cons] at h hlater
        rw [List.take_succ_cons, List.cons_append]
        exact .byte (h.string?_kept ho hlater hs) (h.not_startsComment_kept ho hlater hopens)
          (hclean.append hp)

end

/-- A run over clean bytes that passes over no tokens reads no comment. -/
theorem Cursor.run_of_clean {c : Cursor} (ho : o.Usual) (hk : o.KeepsAll) (hb : Encoded c.rest)
    (h : Clean c.rest) :
    ∀ a ∈ c.run o, a.cursor.token.tag ≠ .named .comment ∧
      ∀ t ∈ a.read, t.tag ≠ .named .comment := by
  induction hn : c.rest.length using Nat.strongRecOn generalizing c with
  | ind n ih =>
    by_cases hr : c.rest = []
    · have hnext := next_of_end (o := o) hr
      have hlast : c.run o = [c.next o] := by
        rw [run_of_last]
        rintro ⟨hsuccess, -⟩
        rw [hnext] at hsuccess
        cases hsuccess
      have heof : (c.take (.named .eof) 0).token.tag ≠ .named .comment :=
        fun he => Kind.noConfusion (Tag.named.inj he)
      rw [hlast, List.forall_mem_singleton, hnext, List.forall_mem_singleton]
      exact ⟨heof, heof⟩
    · obtain ⟨status, hnext, -⟩ := next_of_keepsAll hk hr
      obtain ⟨htag, hclean⟩ := h.scan ho hb hr
      have hread : (c.next o).cursor.token.tag ≠ .named .comment ∧
          ∀ t ∈ (c.next o).read, t.tag ≠ .named .comment := by
        rw [hnext, step_of_scan hr, List.forall_mem_singleton]
        exact ⟨htag, htag⟩
      by_cases honward : (c.next o).status = .success ∧
          (c.next o).cursor.rest.length < c.rest.length
      · have hbehind : (c.next o).cursor.rest = c.rest.drop (Lexer.scan o c.rest).2 := by
          rw [hnext, step_of_scan hr]
          rfl
        rw [run_of_success honward.1 honward.2, List.forall_mem_cons]
        refine ⟨hread, ih _ (hn ▸ honward.2) ?_ ?_ rfl⟩
        · rw [hbehind]
          exact (hb.scan ho.encoded hr).2
        · rw [hbehind]
          exact hclean
      · rw [run_of_last honward, List.forall_mem_singleton]
        exact hread

end TextUnits.Lexer
