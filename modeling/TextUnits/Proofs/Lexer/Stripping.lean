import TextUnits.Proofs.Encoding.Unmarked
import TextUnits.Proofs.Lexer.CommentFree

/-!
# Taking comments out once is enough

A text without its comments is opened and read anew: no token of it is a comment, so that taking
comments out of it gives it again. What may happen is that two tokens that a comment kept apart grow
together into a number that breaks off.
-/

namespace TextUnits

open Encoding

/-- Units that do not start with a given one come from code points that do not start with it. -/
theorem Text.head?_ne_of_encodeAll {codes : List Nat} {u : UInt16}
    (h : (utf16.encodeAll codes).head? ≠ some u) : codes.head? ≠ some u.toNat := by
  intro hhead
  obtain ⟨rest, rfl⟩ := List.head?_eq_some_iff.mp hhead
  refine h ?_
  have hone : utf16.encode u.toNat = [u] := by
    change encodeUtf16 u.toNat = [u]
    rw [encodeUtf16, if_pos (Nat.le_of_lt_succ u.toNat_lt), UInt16.ofNat_toNat]
  rw [encodeAll_cons, hone]
  rfl

namespace Lexer

variable {r : Reader} {tokens : List Token} {t : Text} {bytes : List UInt8}

/-- The options that nothing set stands for. -/
def Options.default : Options :=
  ⟨false, false, false, false, [0x2F, 0x2F], [0x2F, 0x2A], [0x2A, 0x2F]⟩

theorem Options.default_usual : Options.default.Usual := ⟨rfl, rfl, rfl⟩

theorem Options.default_keepsAll : Options.default.KeepsAll := ⟨rfl, rfl, rfl⟩

/-- With nothing set no token is passed over. -/
theorem openText_default (t : Text) :
    openText t .default = openText t Settings.default.keepingAll := by
  have hsame : Settings.default.resolve = Settings.default.keepingAll.resolve := rfl
  unfold openText openBytes
  rw [hsame]
  rfl

/-- With nothing set a text is opened at the start of its bytes. -/
theorem openText_of_toUtf8 (h : Text.toUtf8 t .default = .ok bytes) :
    openText t .default = .ok ⟨Options.default, .start bytes⟩ := by
  have hresolve : Settings.default.resolve = .ok Options.default := by
    with_unfolding_all rfl
  unfold openText openBytes
  rw [h, hresolve]
  rfl

/-- A text that is opened has bytes, which encode scalar values. -/
theorem exists_of_openText_default (h : openText t .default = .ok r) :
    ∃ codes, (∀ code ∈ codes, Scalar.isScalar code = true) ∧
      r = ⟨Options.default, .start (utf8.encodeAll codes)⟩ := by
  obtain ⟨bytes, hbytes, -⟩ := opened_of_openText h
  obtain ⟨codes, rfl, hcodes⟩ := Text.exists_codes_of_toUtf8 hbytes
  rw [openText_of_toUtf8 hbytes] at h
  cases h
  exact ⟨codes, fun code hc => (hcodes code hc).1, rfl⟩

/-- A run whose tokens all have bytes ends at the end of the source, or with a number that breaks
off. -/
theorem Reader.exists_of_error (hm : r.options.Moves) {fault : Fault}
    (h : r.tokens = .error fault) :
    ∃ text name place, fault = .malformedNumber text name place := by
  have hends := (completes_iff_tokens r).mp (Cursor.exists_completes_of_moves hm r.cursor)
  unfold tokens at h hends
  dsimp only at h hends
  cases hf : (r.cursor.run r.options).getLast?.bind faultOf with
  | none =>
    rw [hf] at h
    cases h
  | some found =>
    rw [hf] at h hends
    cases h
    obtain ⟨last, -, hlast⟩ := Option.bind_eq_some_iff.mp hf
    unfold faultOf at hlast
    dsimp only at hlast
    cases hs : last.status with
    | endOfInput =>
      rw [hs] at hlast
      cases hlast
    | invalidArgument =>
      rw [hs] at hlast
      cases hlast
      exact ⟨_, _, _, rfl⟩
    | success =>
      rw [hs] at hlast
      cases hlast
      exact absurd ⟨_, rfl⟩ hends
    | stalled =>
      rw [hs] at hlast
      cases hlast
      exact absurd ⟨_, rfl⟩ hends

/-- A source is given without its comments when it is read to its end. -/
theorem Reader.exists_of_stripped (h : r.stripped = .ok t) :
    ∃ tokens, r.tokens = .ok tokens ∧ t = Text.ofBytes (keptBytes tokens) := by
  unfold stripped at h
  cases ht : r.tokens with
  | error fault =>
    rw [ht] at h
    cases h
  | ok tokens =>
    rw [ht] at h
    cases h
    exact ⟨tokens, rfl, rfl⟩

/-- Tokens of which none is a comment are kept, and have the bytes of the source. -/
theorem Reader.keptBytes_of_none (hk : r.options.KeepsAll) (h : r.tokens = .ok tokens)
    (hn : ∀ t ∈ tokens, t.isKind .comment = false) : keptBytes tokens = r.cursor.rest := by
  have hkept : (tokens.filter fun t => !t.isKind .comment) = tokens := by
    rw [List.filter_eq_self]
    intro t ht
    rw [hn t ht, Bool.not_false]
  have hflat := (cuts_of_tokens hk h).flatten
  rw [List.flatMap_map] at hflat
  rw [keptBytes, hkept]
  exact hflat

/-- The bytes that are left of a text are clean, and are the bytes of a text. -/
theorem Reader.clean_keptBytes (ho : r.options.Usual) (hk : r.options.KeepsAll)
    (hb : Encoded r.cursor.rest) (h : r.tokens = .ok tokens) :
    Clean (keptBytes tokens) ∧ Encoded (keptBytes tokens) := by
  have hcuts := cuts_of_tokens hk h
  constructor
  · rw [keptBytes_eq]
    exact hcuts.clean_kept ho hb
  · have hpieces := hcuts.encoded ho.encoded hb
    have htokens : ∀ t ∈ tokens.filter fun t => !t.isKind .comment, Encoded t.bytes :=
      fun t ht => hpieces t.piece (List.mem_map_of_mem (List.mem_filter.mp ht).1)
    obtain ⟨whole, hwhole, hbytes, -⟩ := exists_codes_of_encoded htokens
    exact ⟨whole, hbytes, hwhole⟩

/-- No token of clean bytes is a comment, whether or not they are read to their end. -/
theorem Reader.not_comment_of_clean (ho : r.options.Usual) (hk : r.options.KeepsAll)
    (hb : Encoded r.cursor.rest) (h : Clean r.cursor.rest) :
    (∀ t ∈ r.tokensRead, t.isKind .comment = false) ∧
      ∀ tokens, r.tokens = .ok tokens → ∀ t ∈ tokens, t.isKind .comment = false := by
  have hrun := Cursor.run_of_clean ho hk hb h
  have hkind : ∀ {t : Token}, t.tag ≠ .named .comment → t.isKind .comment = false := by
    intro t ht
    rw [Token.isKind, beq_eq_false_iff_ne]
    exact ht
  constructor
  · intro t ht
    obtain ⟨a, ha, hread⟩ := List.mem_flatMap.mp ht
    exact hkind ((hrun a ha).2 t hread)
  · intro tokens htokens t ht
    unfold Reader.tokens at htokens
    dsimp only at htokens
    split at htokens
    · cases htokens
    · cases htokens
      obtain ⟨a, ha, rfl⟩ := List.mem_map.mp ht
      exact hkind (hrun a (List.mem_filter.mp ha).1).1

/-- What is left of a text without its comments has no comment, unless it starts like a mark. It
may have a number that breaks off, which takes a comment to have kept its parts from one another;
otherwise it is read to its end, and taking comments out of it gives it again. -/
theorem openText_stripped {source t : Text} {r : Reader}
    (h : openText source Settings.default.keepingAll = .ok r) (ht : r.stripped = .ok t)
    (hmark : t.head? ≠ some 0xFEFF) (hswapped : t.head? ≠ some 0xFFFE) :
    ∃ q, openText t .default = .ok q ∧ (∀ token ∈ q.tokensRead, token.isKind .comment = false) ∧
      ((∃ text name place, q.tokens = .error (.malformedNumber text name place) ∧
          ∃ tokens, r.tokens = .ok tokens ∧ ∃ token ∈ tokens, token.isKind .comment = true) ∨
        ∃ tokens, q.tokens = .ok tokens ∧ (∀ token ∈ tokens, token.isKind .comment = false) ∧
          ∃ again, openText t Settings.default.keepingAll = .ok again ∧
            again.stripped = .ok t) := by
  obtain ⟨tokens, htokens, rfl⟩ := Reader.exists_of_stripped ht
  rw [← openText_default] at h
  obtain ⟨codes, hcodes, rfl⟩ := exists_of_openText_default h
  obtain ⟨hclean, whole, hkept, hwhole⟩ := Reader.clean_keptBytes Options.default_usual
    Options.default_keepsAll ⟨codes, rfl, hcodes⟩ htokens
  have hread : Text.ofBytes (keptBytes tokens) = utf16.encodeAll whole := by
    rw [hkept]
    exact Text.ofBytes_encodeAll hwhole
  rw [hread] at hmark hswapped ⊢
  have hback := Text.toUtf8_encodeAll hwhole (Text.head?_ne_of_encodeAll hmark)
    (Text.head?_ne_of_encodeAll hswapped)
  rw [← hkept] at hback
  have hopen := openText_of_toUtf8 hback
  obtain ⟨hnone, hfound⟩ := Reader.not_comment_of_clean
    (r := ⟨Options.default, .start (keptBytes tokens)⟩) Options.default_usual
    Options.default_keepsAll ⟨whole, hkept, hwhole⟩ hclean
  refine ⟨_, hopen, hnone, ?_⟩
  cases hq : Reader.tokens ⟨Options.default, .start (keptBytes tokens)⟩ with
  | error fault =>
    left
    obtain ⟨text, name, place, rfl⟩ := Reader.exists_of_error Options.default_usual.moves hq
    refine ⟨text, name, place, rfl, tokens, htokens, ?_⟩
    by_contra hcomment
    -- Without a comment nothing is taken out, and the source is read to its end.
    have hall : ∀ token ∈ tokens, token.isKind .comment = false := by
      intro token htoken
      by_contra hne
      exact hcomment ⟨token, htoken, Bool.not_eq_false _ ▸ hne⟩
    have hsame : keptBytes tokens = utf8.encodeAll codes :=
      Reader.keptBytes_of_none Options.default_keepsAll htokens hall
    rw [hsame, htokens] at hq
    cases hq
  | ok found =>
    right
    have hall := hfound found hq
    have hsame : keptBytes found = keptBytes tokens :=
      Reader.keptBytes_of_none Options.default_keepsAll hq hall
    refine ⟨found, rfl, hall, _, openText_default _ ▸ hopen, ?_⟩
    rw [Reader.stripped, hq]
    dsimp only
    rw [hsame, hread]

/-- A comment with a quote between two names, which grow together, and a text in quotes that looks
like a comment. -/
theorem openText_stripped_quotes :
    ∃ (r q : Reader) (tokens : List Token),
      openText [0x61, 0x2F, 0x2A, 0x22, 0x2A, 0x2F, 0x62, 0x27, 0x2F, 0x2F, 0x27]
        Settings.default.keepingAll = .ok r ∧
      r.stripped = .ok [0x61, 0x62, 0x27, 0x2F, 0x2F, 0x27] ∧
      openText [0x61, 0x62, 0x27, 0x2F, 0x2F, 0x27] .default = .ok q ∧
      q.tokens = .ok tokens ∧ (∀ token ∈ tokens, token.isKind .comment = false) ∧
      ∃ again, openText [0x61, 0x62, 0x27, 0x2F, 0x2F, 0x27] Settings.default.keepingAll =
        .ok again ∧ again.stripped = .ok [0x61, 0x62, 0x27, 0x2F, 0x2F, 0x27] := by
  have hopen : openText [0x61, 0x2F, 0x2A, 0x22, 0x2A, 0x2F, 0x62, 0x27, 0x2F, 0x2F, 0x27]
      Settings.default.keepingAll = .ok ⟨Options.default,
        .start [0x61, 0x2F, 0x2A, 0x22, 0x2A, 0x2F, 0x62, 0x27, 0x2F, 0x2F, 0x27]⟩ := by
    with_unfolding_all rfl
  have hreopen : openText [0x61, 0x62, 0x27, 0x2F, 0x2F, 0x27] .default =
      .ok ⟨Options.default, .start [0x61, 0x62, 0x27, 0x2F, 0x2F, 0x27]⟩ := by
    with_unfolding_all rfl
  have hstripped : Reader.stripped ⟨Options.default,
      .start [0x61, 0x2F, 0x2A, 0x22, 0x2A, 0x2F, 0x62, 0x27, 0x2F, 0x2F, 0x27]⟩ =
      .ok [0x61, 0x62, 0x27, 0x2F, 0x2F, 0x27] :=
    eq_ok_of_toOption (by decide +kernel)
  have hok : (Reader.tokens ⟨Options.default,
      .start [0x61, 0x62, 0x27, 0x2F, 0x2F, 0x27]⟩).toBool = true := by
    decide +kernel
  obtain ⟨q, hq, -, ⟨text, name, place, hfault, -⟩ | ⟨tokens, htokens, hall, hagain⟩⟩ :=
    openText_stripped hopen hstripped (by decide) (by decide)
  · rw [hreopen] at hq
    cases hq
    rw [hfault] at hok
    cases hok
  · exact ⟨_, q, tokens, hopen, hstripped, hq, htokens, hall, hagain⟩

end Lexer

end TextUnits
