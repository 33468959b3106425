import TextUnits.Proofs.Buffer.Reachable
import TextUnits.Proofs.Lexer.LineNumbers
import TextUnits.Proofs.Lexer.Quotes

/-!
# Bytes written as texts in quotes

Every byte that an escape stands for can be written as that escape, which is two bytes. Bytes
written so and put between quotes are one text, and its value is the bytes, whatever they are. Only
a backslash at their end would spoil it: written as two, it would guard the closing quote.
-/

namespace TextUnits.Lexer

/-- The byte that is written behind a backslash for a byte that has an escape. -/
def letter? (b : UInt8) : Option UInt8 :=
  if b = 0x0D then some 0x72
  else if b = 0x0A then some 0x6E
  else if b = 0x09 then some 0x74
  else if b = 0x0C then some 0x66
  else if b = 0x22 ∨ b = 0x27 ∨ b = 0x5C then some b
  else if b = 0x00 then some 0x30
  else none

/-- A byte as it is written in a text. -/
def escapeByte (b : UInt8) : List UInt8 :=
  match letter? b with
  | some e => [0x5C, e]
  | none => [b]

/-- Bytes with all that have an escape written as escapes. -/
def escape (bytes : List UInt8) : List UInt8 := bytes.flatMap escapeByte

/-- Bytes between two quotes. -/
def quoted (quote : UInt8) (bytes : List UInt8) : List UInt8 := quote :: (bytes ++ [quote])

variable {bytes rest : List UInt8} {b e quote before : UInt8} {o : Options}

/-- An escape is read as the byte that it was written for. -/
theorem escaped?_of_letter? (h : letter? b = some e) : escaped? e = some b := by
  unfold letter? at h
  split_ifs at h with hreturn hfeed htab hpage hself hzero
  · cases h
    exact congrArg some hreturn.symm
  · cases h
    exact congrArg some hfeed.symm
  · cases h
    exact congrArg some htab.symm
  · cases h
    exact congrArg some hpage.symm
  · cases h
    rcases hself with rfl | rfl | rfl <;> rfl
  · cases h
    exact congrArg some hzero.symm

/-- Only the escape of a backslash ends with one. -/
theorem letter?_slash (h : letter? b = some 0x5C) : b = 0x5C := by
  have hback := escaped?_of_letter? h
  exact (Option.some.inj hback).symm

/-- A byte that is written as it is is no quote and no backslash. -/
theorem ne_of_letter? (h : letter? b = none) : b ≠ 0x22 ∧ b ≠ 0x27 ∧ b ≠ 0x5C := by
  unfold letter? at h
  split_ifs at h with hreturn hfeed htab hpage hself hzero
  exact ⟨fun hb => hself (.inl hb), fun hb => hself (.inr (.inl hb)),
    fun hb => hself (.inr (.inr hb))⟩

theorem escapeByte_of_some (h : letter? b = some e) : escapeByte b = [0x5C, e] := by
  rw [escapeByte, h]

theorem escapeByte_of_none (h : letter? b = none) : escapeByte b = [b] := by
  rw [escapeByte, h]

theorem escape_cons (b : UInt8) (bytes : List UInt8) :
    escape (b :: bytes) = escapeByte b ++ escape bytes := rfl

/-- A byte that is no backslash starts no escape. -/
theorem unescape_cons_of_ne (h : b ≠ 0x5C) : unescape (b :: rest) = b :: unescape rest := by
  cases rest with
  | nil => rfl
  | cons c more => rw [unescape, if_neg h]

/-- A backslash in front of a byte that can be escaped is replaced with it. -/
theorem unescape_escape_cons {c : UInt8} (h : escaped? e = some c) :
    unescape (0x5C :: e :: rest) = c :: unescape rest := by
  rw [unescape, if_pos rfl, h]

/-- Replacing the escapes undoes the writing. -/
theorem unescape_escape (bytes : List UInt8) : unescape (escape bytes) = bytes := by
  induction bytes with
  | nil => rfl
  | cons b rest ih =>
    rw [escape_cons]
    cases hletter : letter? b with
    | none =>
      rw [escapeByte_of_none hletter, List.singleton_append,
        unescape_cons_of_ne (ne_of_letter? hletter).2.2, ih]
    | some e =>
      rw [escapeByte_of_some hletter, List.cons_append, List.singleton_append,
        unescape_escape_cons (escaped?_of_letter? hletter), ih]

/-- A byte that the quote does not close behind is passed by. -/
theorem closing?_cons_of_not (h : ¬ (b = quote ∧ before ≠ 0x5C)) :
    closing? quote before (b :: rest) = (closing? quote b rest).map (· + 1) := by
  rw [closing?, if_neg h]

/-- No quote within bytes that are written so closes them; the one behind them does, unless they end
with a backslash. -/
theorem closing?_escape (hq : quote = 0x22 ∨ quote = 0x27)
    (h : bytes.getLastD before ≠ 0x5C) (rest : List UInt8) :
    closing? quote before (escape bytes ++ quote :: rest) = some ((escape bytes).length + 1) := by
  induction bytes generalizing before with
  | nil => exact if_pos ⟨rfl, h⟩
  | cons b more ih =>
    rw [List.getLastD_cons] at h
    rw [escape_cons, List.append_assoc]
    cases hletter : letter? b with
    | none =>
      obtain ⟨hdouble, hsingle, -⟩ := ne_of_letter? hletter
      have hne : b ≠ quote := by
        rcases hq with rfl | rfl
        · exact hdouble
        · exact hsingle
      rw [escapeByte_of_none hletter, List.singleton_append, List.singleton_append,
        closing?_cons_of_not (fun hb => hne hb.1), ih h]
      rfl
    | some e =>
      -- The backslash is no quote, and it guards the byte behind it.
      have hslash : (0x5C : UInt8) ≠ quote := (escaped?_of_quote hq).2.symm
      have hlast : more.getLastD e ≠ 0x5C := by
        cases more with
        | nil => exact fun he => h (letter?_slash (he ▸ hletter))
        | cons c later => exact h
      rw [escapeByte_of_some hletter, List.cons_append, List.singleton_append, List.cons_append,
        List.cons_append, closing?_cons_of_not (fun hb => hslash hb.1),
        closing?_cons_of_not (fun hb => hb.2 rfl), ih hlast]
      rfl

/-- Bytes that are written so, between quotes, are one text. -/
theorem string?_escape (hq : quote = 0x22 ∨ quote = 0x27) (h : bytes.getLast? ≠ some 0x5C) :
    string? (quoted quote (escape bytes)) =
      some ⟨.stringDouble, (quoted quote (escape bytes)).length⟩ := by
  have hlast : bytes.getLastD quote ≠ 0x5C := by
    rw [List.getLastD_eq_getLast?]
    cases hget : bytes.getLast? with
    | none => exact (escaped?_of_quote hq).2
    | some b => exact fun hb => h (hget.trans (congrArg some hb))
  have hsize : 1 + ((escape bytes).length + 1) = (quoted quote (escape bytes)).length := by
    rw [quoted, List.length_cons, List.length_append, List.length_singleton, Nat.add_comm]
  rw [← hsize, quoted, string?, if_pos hq, closing?_escape hq hlast]
  rfl

/-- Between quotes stands what was put there. -/
theorem unquote_quoted (hq : quote = 0x22 ∨ quote = 0x27) (bytes : List UInt8) :
    unquote (quoted quote bytes) = bytes := by
  have hparts : (quoted quote bytes).tail.dropLast = bytes := List.dropLast_concat
  cases bytes with
  | nil => exact (if_pos hq).trans hparts
  | cons b rest => exact (if_pos hq).trans hparts

/-- A source that is one token, which is not passed over and is no number that breaks off. -/
theorem Reader.tokens_of_scan {r : Reader} {tag : Tag} (hr : r.cursor.rest ≠ [])
    (hs : scan r.options r.cursor.rest = (tag, r.cursor.rest.length))
    (hskip : r.options.skips tag = false) (herror : tag ≠ .named .error) :
    r.tokens = .ok [⟨tag, r.cursor.offset, r.cursor.rest, r.cursor.line⟩] := by
  obtain ⟨options, cursor⟩ := r
  dsimp only at hr hs hskip ⊢
  have hempty : cursor.rest.isEmpty = false := by rwa [List.isEmpty_eq_false_iff]
  have hstep : cursor.step options = cursor.take tag cursor.rest.length := by
    rw [Cursor.step_of_scan hr, hs]
  have htoken : (cursor.step options).token = ⟨tag, cursor.offset, cursor.rest, cursor.line⟩ := by
    rw [hstep, Cursor.take, List.take_length]
  have hverdict : Cursor.verdict options cursor.rest.isEmpty (cursor.step options).token =
      some .success := by
    have hkind : (cursor.step options).token.isKind .error = false := by
      rw [htoken, Token.isKind, beq_eq_false_iff_ne]
      exact herror
    rw [Cursor.verdict, hempty, hkind, htoken, hskip]
    rfl
  have hnext := Cursor.next_of_verdict hverdict
  have hbehind : (cursor.step options).rest = [] := by
    rw [hstep, Cursor.take, List.drop_length]
  have hend := Cursor.next_of_end (o := options) hbehind
  have hlast : (cursor.step options).run options = [(cursor.step options).next options] := by
    rw [Cursor.run_of_last]
    rintro ⟨hsuccess, -⟩
    rw [hend] at hsuccess
    cases hsuccess
  have hrun : cursor.run options =
      [cursor.next options, (cursor.step options).next options] := by
    rw [Cursor.run_of_success, hnext, hlast]
    · rw [hnext]
    · rw [hnext, hbehind]
      exact List.length_pos_iff.mpr hr
  unfold Reader.tokens
  dsimp only
  rw [hrun, hnext, hend, ← htoken]
  rfl

/-- Bytes that do not end with a backslash, no more of them than an array has, written as escapes and
put between quotes, are read as one token, a text that is all of the source, under all settings with
the default markers that let the source be read. Its value is a buffer that holds the bytes, with
just their room. -/
theorem openBytes_escape {s : Settings} (hq : quote = 0x22 ∨ quote = 0x27)
    (hb : bytes.getLast? ≠ some 0x5C) (hl : bytes.length ≤ Double.maxSafe)
    (hm : s.markers = Settings.default.markers)
    (hs : s.readable (quoted quote (escape bytes)) = .ok (quoted quote (escape bytes))) :
    ∃ r t, openBytes (quoted quote (escape bytes)) s = .ok r ∧ r.tokens = .ok [t] ∧
      t.tag = .named .stringDouble ∧ t.offset = 0 ∧ t.bytes = quoted quote (escape bytes) ∧
      ∃ value, t.value r.options = .ok value ∧ value.content = bytes ∧
        value.length = bytes.length ∧ value.capacity = bytes.length := by
  obtain ⟨o, ho, husual⟩ := Settings.exists_resolve_usual hm
  have hscan : scan o (quoted quote (escape bytes)) =
      (.named .stringDouble, (quoted quote (escape bytes)).length) :=
    scan_of_string? husual (string?_escape hq hb)
  have hopen := openBytes_of_readable hs ho
  have htokens := Reader.tokens_of_scan (r := ⟨o, .start (quoted quote (escape bytes))⟩)
    (List.cons_ne_nil _ _) hscan rfl (by decide)
  obtain ⟨value, hvalue, hcontent, hlength, hcapacity⟩ :=
    Buffer.exists_ofBytes BufferOptions.limit?_default hl
  refine ⟨_, _, hopen, htokens, rfl, rfl, rfl, value, ?_, hcontent, hlength, hcapacity⟩
  have hbytes : valueBytes o ⟨.named .stringDouble, 0, quoted quote (escape bytes), 1⟩ = bytes := by
    change unescape (unquote (quoted quote (escape bytes))) = bytes
    rw [unquote_quoted hq, unescape_escape]
  change Buffer.ofBytes
    (valueBytes o ⟨.named .stringDouble, 0, quoted quote (escape bytes), 1⟩) .default = _
  rw [hbytes, hvalue]

/-- A line end, a backslash, a quote, a zero and a byte that is no text, between quotes of the
same sort. -/
theorem openBytes_escape_mixed :
    escape [0x0D, 0x5C, 0x27, 0x00, 0xFF] =
        [0x5C, 0x72, 0x5C, 0x5C, 0x5C, 0x27, 0x5C, 0x30, 0xFF] ∧
      ∃ r t, openBytes (quoted 0x27 (escape [0x0D, 0x5C, 0x27, 0x00, 0xFF])) .default = .ok r ∧
        r.tokens = .ok [t] ∧ t.tag = .named .stringDouble ∧ t.offset = 0 ∧
        t.bytes = quoted 0x27 (escape [0x0D, 0x5C, 0x27, 0x00, 0xFF]) ∧
        ∃ value, t.value r.options = .ok value ∧
          value.content = [0x0D, 0x5C, 0x27, 0x00, 0xFF] ∧ value.length = 5 ∧
          value.capacity = 5 :=
  ⟨rfl, openBytes_escape (.inr rfl) (by decide) (by decide) rfl rfl⟩

end TextUnits.Lexer
