import TextUnits.Lexer.Value
import TextUnits.Proofs.Lexer.Fronts

/-!
# Closing quotes and escapes

A text in quotes is read in two ways. The scan looks for a quote with no backslash in front of it,
one byte back; the value of the token is read from the left in escapes of two bytes. A quote is the
second byte of an escape exactly when the run of backslashes in front of it is odd, so the two ways
part at a quote behind an even run, which the scan passes by and which is read as closing nothing.
-/

namespace TextUnits.Lexer

/-- Bytes cut from the left into escapes, of two bytes each, and single bytes. -/
def escapeUnits : List UInt8 → List (List UInt8)
  | [] => []
  | [b] => [[b]]
  | b :: c :: rest =>
    if b = 0x5C ∧ (escaped? c).isSome then [b, c] :: escapeUnits rest
    else [b] :: escapeUnits (c :: rest)

/-- What such a part of bytes stands for. -/
def escapeValue : List UInt8 → List UInt8
  | [_, c] => (escaped? c).toList
  | bytes => bytes

/-- Whether the byte at a place is the second one of an escape. -/
def IsSecond (bytes : List UInt8) (n : Nat) : Prop :=
  ∃ front b c later, escapeUnits bytes = front ++ [b, c] :: later ∧ n = front.flatten.length + 1

/-- Backslashes at the end of bytes. -/
def slashes (bytes : List UInt8) : Nat := (bytes.reverse.takeWhile (· == 0x5C)).length

/-- The first place of which something holds. -/
def IsFirst (P : Nat → Prop) (n : Nat) : Prop := P n ∧ ∀ m < n, ¬ P m

variable {bytes rest : List UInt8} {b c quote before : UInt8} {size n : Nat}

/-- Replacing escapes reads bytes in these parts. -/
theorem unescape_eq_flatMap (bytes : List UInt8) :
    unescape bytes = (escapeUnits bytes).flatMap escapeValue := by
  fun_induction escapeUnits bytes with
  | case1 => rfl
  | case2 b => rfl
  | case3 b c rest h ih =>
    obtain ⟨e, he⟩ := Option.isSome_iff_exists.mp h.2
    rw [unescape, if_pos h.1, he, List.flatMap_cons, ← ih, escapeValue, he]
    rfl
  | case4 b c rest h ih =>
    have hnone : (if b = 0x5C then escaped? c else none) = none := by
      split_ifs with hb
      · by_contra hsome
        exact h ⟨hb, Option.isSome_iff_ne_none.mpr hsome⟩
      · rfl
    rw [unescape, hnone, List.flatMap_cons, ← ih]
    rfl

/-- A byte in front lengthens a run of backslashes if it is one and the run has all other bytes. -/
theorem slashes_cons (b : UInt8) (bytes : List UInt8) :
    slashes (b :: bytes) =
      if slashes bytes = bytes.length ∧ b = 0x5C then bytes.length + 1 else slashes bytes := by
  unfold slashes
  rw [List.reverse_cons, List.takeWhile_append, List.length_reverse]
  by_cases hall : (bytes.reverse.takeWhile (· == 0x5C)).length = bytes.length
  · rw [if_pos hall]
    by_cases hb : b = 0x5C
    · rw [if_pos ⟨hall, hb⟩, hb]
      simp
    · rw [if_neg (fun h => hb h.2), hall]
      simp [hb]
  · rw [if_neg hall, if_neg (fun h => hall h.1)]

theorem slashes_le (bytes : List UInt8) : slashes bytes ≤ bytes.length := by
  have hle := (List.takeWhile_sublist (l := bytes.reverse) (· == 0x5C)).length_le
  rwa [List.length_reverse] at hle

/-- Two bytes in front of which the first is a backslash change no parity of such runs. -/
theorem slashes_cons_cons_mod (c : UInt8) (bytes : List UInt8) :
    slashes (0x5C :: c :: bytes) % 2 = slashes bytes % 2 := by
  have hle := slashes_le bytes
  have hsecond := slashes_cons c bytes
  rw [slashes_cons, List.length_cons]
  simp only [and_true]
  split_ifs at hsecond ⊢ <;> omega

/-- A byte that is no backslash keeps those behind it from those in front of it. -/
theorem slashes_cons_of_ne (h : b ≠ 0x5C) (bytes : List UInt8) :
    slashes (b :: bytes) = slashes bytes := by
  rw [slashes_cons, if_neg fun hb => h hb.2]

theorem not_isSecond_zero : ¬ IsSecond bytes 0 := by
  rintro ⟨front, b, c, later, -, hn⟩
  exact absurd hn (Nat.succ_ne_zero _).symm

/-- Behind an escape the places are counted anew. -/
theorem isSecond_escape_iff (h : b = 0x5C ∧ (escaped? c).isSome) :
    IsSecond (b :: c :: rest) (n + 2) ↔ IsSecond rest n := by
  have hunits : escapeUnits (b :: c :: rest) = [b, c] :: escapeUnits rest := by
    rw [escapeUnits, if_pos h]
  constructor
  · rintro ⟨front, x, y, later, heq, hn⟩
    rw [hunits] at heq
    cases front with
    | nil => cases hn
    | cons unit front =>
      obtain ⟨rfl, hrest⟩ := List.cons.inj heq
      refine ⟨front, x, y, later, hrest, ?_⟩
      rw [List.flatten_cons, List.length_append] at hn
      simp only [List.length_cons, List.length_nil] at hn
      omega
  · rintro ⟨front, x, y, later, heq, rfl⟩
    refine ⟨[b, c] :: front, x, y, later, by rw [hunits, heq, List.cons_append], ?_⟩
    rw [List.flatten_cons, List.length_append, List.length_cons, List.length_cons, List.length_nil]
    omega

/-- The second byte of an escape at the front is at place one. -/
theorem isSecond_one (h : b = 0x5C ∧ (escaped? c).isSome) : IsSecond (b :: c :: rest) 1 :=
  ⟨[], b, c, escapeUnits rest, by rw [escapeUnits, if_pos h]; rfl, rfl⟩

/-- Behind a single byte the places are counted anew. -/
theorem isSecond_single_iff (h : ¬ (b = 0x5C ∧ (escaped? c).isSome)) :
    IsSecond (b :: c :: rest) (n + 1) ↔ IsSecond (c :: rest) n := by
  have hunits : escapeUnits (b :: c :: rest) = [b] :: escapeUnits (c :: rest) := by
    rw [escapeUnits, if_neg h]
  constructor
  · rintro ⟨front, x, y, later, heq, hn⟩
    rw [hunits] at heq
    cases front with
    | nil => cases (List.cons.inj heq).1
    | cons unit front =>
      obtain ⟨rfl, hrest⟩ := List.cons.inj heq
      refine ⟨front, x, y, later, hrest, ?_⟩
      rw [List.flatten_cons, List.length_append, List.length_singleton] at hn
      omega
  · rintro ⟨front, x, y, later, heq, rfl⟩
    refine ⟨[b] :: front, x, y, later, by rw [hunits, heq, List.cons_append], ?_⟩
    rw [List.flatten_cons, List.length_append, List.length_singleton]
    omega

/-- A byte is the second one of an escape exactly when it can be escaped and the run of backslashes
in front of it is odd. -/
theorem isSecond_iff (bytes : List UInt8) (n : Nat) :
    IsSecond bytes n ↔
      (∃ c ∈ bytes[n]?, (escaped? c).isSome) ∧ slashes (bytes.take n) % 2 = 1 := by
  induction bytes using escapeUnits.induct generalizing n with
  | case1 =>
    constructor
    · rintro ⟨front, b, c, later, heq, -⟩
      cases front <;> cases heq
    · rintro ⟨⟨c, hc, -⟩, -⟩
      cases hc
  | case2 b =>
    constructor
    · rintro ⟨front, x, y, later, heq, -⟩
      rcases front with _ | ⟨unit, _ | ⟨_, _⟩⟩ <;> cases heq
    · rintro ⟨⟨c, hc, -⟩, hodd⟩
      cases n with
      | zero => cases hodd
      | succ n => cases hc
  | case3 b c rest h ih =>
    match n with
    | 0 => exact ⟨fun hs => absurd hs not_isSecond_zero, fun hodd => by cases hodd.2⟩
    | 1 =>
      refine ⟨fun _ => ⟨⟨c, rfl, h.2⟩, ?_⟩, fun _ => isSecond_one h⟩
      rw [h.1]
      rfl
    | n + 2 =>
      rw [isSecond_escape_iff h, ih, h.1]
      change _ ↔ (∃ d ∈ rest[n]?, _) ∧ slashes (0x5C :: c :: rest.take n) % 2 = 1
      rw [slashes_cons_cons_mod]
  | case4 b c rest h ih =>
    match n with
    | 0 => exact ⟨fun hs => absurd hs not_isSecond_zero, fun hodd => by cases hodd.2⟩
    | n + 1 =>
      rw [isSecond_single_iff h, ih]
      change _ ↔ (∃ d ∈ (c :: rest)[n]?, _) ∧ slashes (b :: (c :: rest).take n) % 2 = 1
      by_cases hb : b = 0x5C
      · -- What follows a backslash that begins no escape can be escaped by none, and is none itself.
        have hc : ¬ (escaped? c).isSome := fun hc => h ⟨hb, hc⟩
        cases n with
        | zero =>
          constructor
          · rintro ⟨-, hodd⟩
            cases hodd
          · rintro ⟨⟨d, hd, hsome⟩, -⟩
            cases hd
            exact absurd hsome hc
        | succ n =>
          have hne : c ≠ 0x5C := by
            rintro rfl
            exact hc rfl
          rw [List.take_succ_cons, slashes_cons_of_ne hne, slashes_cons, slashes_cons_of_ne hne,
            if_neg]
          rintro ⟨hlength, -⟩
          have hle := slashes_le (rest.take n)
          rw [List.length_cons] at hlength
          omega
      · rw [slashes_cons_of_ne hb]

/-- Bytes do not end with a backslash when none stands at the place in front of the next one. -/
theorem slashes_take_eq_zero_iff (hb : before ≠ 0x5C) (hn : n ≤ bytes.length) :
    slashes (bytes.take n) = 0 ↔ (before :: bytes)[n]? ≠ some 0x5C := by
  cases n with
  | zero => exact ⟨fun _ h => hb (Option.some.inj h), fun _ => rfl⟩
  | succ n =>
    have hlast : bytes[n]? = some bytes[n] := List.getElem?_eq_getElem hn
    rw [List.getElem?_cons_succ, slashes, List.take_add_one, hlast, Option.toList_some,
      List.reverse_append, List.reverse_singleton, List.singleton_append, List.takeWhile_cons]
    by_cases hslash : bytes[n] = 0x5C
    · simp [hslash]
    · simp [hslash]

/-- The closing quote is the first one with no backslash in front of it. -/
theorem isFirst_of_closing? (h : closing? quote before bytes = some (n + 1)) :
    IsFirst (fun m => bytes[m]? = some quote ∧ (before :: bytes)[m]? ≠ some 0x5C) n := by
  induction bytes generalizing before n with
  | nil => cases h
  | cons b rest ih =>
    unfold closing? at h
    split_ifs at h with hq
    · cases h
      refine ⟨⟨congrArg some hq.1, fun hb => hq.2 (Option.some.inj hb)⟩, fun m hm => ?_⟩
      exact absurd hm (Nat.not_lt_zero m)
    · obtain ⟨size, hs, hsize⟩ := Option.map_eq_some_iff.mp h
      obtain rfl := Nat.succ.inj hsize
      obtain ⟨front, -, -, hfront⟩ := exists_of_closing? hs
      subst hfront
      obtain ⟨hlast, hbefore⟩ := ih hs
      refine ⟨hlast, fun m hm => ?_⟩
      cases m with
      | zero =>
        rintro ⟨hb, hne⟩
        exact hq ⟨Option.some.inj hb, fun he => hne (congrArg some he)⟩
      | succ m => exact hbefore m (Nat.lt_of_succ_lt_succ hm)

/-- Whether a quote stands at a place with no backslash in front of it. -/
def Unguarded (quote : UInt8) (bytes : List UInt8) (n : Nat) : Prop :=
  bytes[n]? = some quote ∧ slashes (bytes.take n) = 0

/-- Whether a quote stands at a place and is not the second byte of an escape. -/
def Unescaped (quote : UInt8) (bytes : List UInt8) (n : Nat) : Prop :=
  bytes[n]? = some quote ∧ ¬ IsSecond bytes n

/-- Kinds of texts in quotes. -/
def Kind.quoted : List Kind := [.stringDouble, .stringSingle]

/-- Only what is found as a text in quotes has the kind of one. -/
theorem string?_of_scan {o : Options} {kind : Kind} (hk : kind ∈ Kind.quoted)
    (h : (scan o bytes).1 = .named kind) : string? bytes = some ⟨kind, (scan o bytes).2⟩ := by
  have hfound := scanned o bytes
  rw [h] at hfound
  generalize (scan o bytes).2 = size at hfound ⊢
  have hnot : ∀ k ∈ Kind.quoted, k ≠ .whitespace ∧ k ≠ .newline ∧ k ≠ .comment ∧
      k ∉ Kind.numerals ∧ k ∉ Kind.operators ∧ k ≠ .identifier := by
    decide
  obtain ⟨hwhite, hnewline, hcomment, hnumeral, hoperator, hname⟩ := hnot _ hk
  cases hfound with
  | layout hf =>
    rcases layout?_kind hf with hkind | hkind
    · exact absurd hkind hwhite
    · exact absurd hkind hnewline
  | lineComment _ hf => exact absurd (lineComment?_kind hf) hcomment
  | blockComment _ _ hf => exact absurd (blockComment?_kind hf) hcomment
  | text _ _ _ hf => exact hf
  | numeral _ _ _ _ hf => exact absurd (number?_numeral hf).kind hnumeral
  | operator _ _ _ _ hf => exact absurd (operator?_kind hf) hoperator
  | name _ _ _ _ hf => exact absurd (identifier?_kind hf) hname

/-- Quotes can be escaped, and are no backslashes. -/
theorem escaped?_of_quote (h : quote = 0x22 ∨ quote = 0x27) :
    (escaped? quote).isSome ∧ quote ≠ 0x5C := by
  rcases h with rfl | rfl
  · exact ⟨rfl, by decide⟩
  · exact ⟨rfl, by decide⟩

/-- A quote is not the second byte of an escape exactly behind an even run of backslashes. -/
theorem unescaped_iff_slashes (h : quote = 0x22 ∨ quote = 0x27) :
    Unescaped quote bytes n ↔ bytes[n]? = some quote ∧ slashes (bytes.take n) % 2 = 0 := by
  refine and_congr_right fun hquote => ?_
  have hescaped : ∃ c ∈ bytes[n]?, (escaped? c).isSome :=
    ⟨quote, hquote, (escaped?_of_quote h).1⟩
  rw [isSecond_iff, and_iff_right hescaped]
  omega

/-- A quote with no backslash in front of it is not the second byte of an escape. -/
theorem Unguarded.unescaped (hq : quote = 0x22 ∨ quote = 0x27) (h : Unguarded quote bytes n) :
    Unescaped quote bytes n := by
  refine (unescaped_iff_slashes hq).mpr ⟨h.1, ?_⟩
  rw [h.2]

/-- The quote that closes a text is the first one with no backslash in front of it. -/
theorem exists_of_quoted {found : Found} (h : string? bytes = some found) :
    ∃ q inside behind, (q = 0x22 ∨ q = 0x27) ∧ bytes = q :: (inside ++ q :: behind) ∧
      bytes.take found.size = q :: (inside ++ [q]) ∧
      IsFirst (Unguarded q (inside ++ q :: behind)) inside.length := by
  obtain ⟨q, rest, size, rfl, hq, hs, rfl⟩ := exists_of_string? h
  obtain ⟨inside, behind, rfl, rfl⟩ := exists_of_closing? hs
  have hslash := (escaped?_of_quote hq).2
  obtain ⟨⟨hquote, hlast⟩, hfirst⟩ := isFirst_of_closing? hs
  refine ⟨q, inside, behind, hq, rfl, ?_, ⟨hquote, ?_⟩, fun m hm hmth => ?_⟩
  · have hsize : 1 + (inside.length + 1) = (inside ++ [q]).length + 1 := by
      rw [List.length_append, List.length_singleton, Nat.add_comm]
    rw [hsize, List.take_succ_cons, List.append_cons inside q behind, List.take_left]
  · refine (slashes_take_eq_zero_iff hslash ?_).mpr hlast
    rw [List.length_append]
    exact Nat.le_add_right _ _
  · refine hfirst m hm ⟨hmth.1, (slashes_take_eq_zero_iff hslash ?_).mp hmth.2⟩
    rw [List.length_append]
    omega

/-- The first quote with no backslash in front of it is the first one that is not the second byte
of an escape, unless an earlier one stands behind an even run of backslashes. -/
theorem IsFirst.unescaped_iff (hq : quote = 0x22 ∨ quote = 0x27)
    (h : IsFirst (Unguarded quote bytes) n) :
    IsFirst (Unescaped quote bytes) n ↔
      ∀ m < n, bytes[m]? = some quote → slashes (bytes.take m) % 2 = 1 := by
  constructor
  · intro hfirst m hm hquote
    have heven := mt (unescaped_iff_slashes hq).mpr (hfirst.2 m hm)
    rw [not_and] at heven
    have hodd := heven hquote
    omega
  · intro hodd
    refine ⟨h.1.unescaped hq, fun m hm hmth => ?_⟩
    obtain ⟨hquote, heven⟩ := (unescaped_iff_slashes hq).mp hmth
    have hmodd := hodd m hm hquote
    omega

/-- Every text in quotes that a reader gives, under any settings, ends with the first quote behind
the one that opens it that has no backslash in front of it. Read in escapes from the left, this
quote is never the second byte of one. It is the first such quote exactly when each earlier quote
of the sort stands behind an odd run of backslashes. -/
theorem openBytes_closing {source : List UInt8} {s : Settings} {r : Reader}
    (h : openBytes source s = .ok r) (further : Nat) :
    ∀ t ∈ (r.cursor.runs r.options further).flatMap (·.read), ∀ kind ∈ Kind.quoted,
      t.tag = .named kind →
        ∃ q inside behind, (q = 0x22 ∨ q = 0x27) ∧ t.bytes = q :: (inside ++ [q]) ∧
          r.cursor.rest.drop t.offset = q :: (inside ++ q :: behind) ∧
          IsFirst (Unguarded q (inside ++ q :: behind)) inside.length ∧
          Unescaped q (inside ++ q :: behind) inside.length ∧
          (IsFirst (Unescaped q (inside ++ q :: behind)) inside.length ↔
            ∀ n < inside.length, (inside ++ q :: behind)[n]? = some q →
              slashes ((inside ++ q :: behind).take n) % 2 = 1) := by
  intro t ht kind hkind htag
  obtain ⟨front, later, hreads⟩ := List.append_of_mem ht
  obtain ⟨rest, hsource, hoffset, -, heof | ⟨-, hscan⟩⟩ := exists_of_runs_eq h hreads
  · rw [heof] at htag
    cases htag
    exact absurd hkind (by decide)
  · have hstring := string?_of_scan hkind ((congrArg Prod.fst hscan).trans htag)
    rw [hscan] at hstring
    obtain ⟨q, inside, behind, hq, hquoted, htake, hfirst⟩ := exists_of_quoted hstring
    dsimp only at htake
    rw [List.take_left] at htake
    refine ⟨q, inside, behind, hq, htake, ?_, hfirst, hfirst.1.unescaped hq,
      hfirst.unescaped_iff hq⟩
    rw [hsource, hoffset, List.drop_left, hquoted]

/-- A quote behind one backslash is passed by and is the second byte of an escape. -/
theorem openBytes_closing_guarded :
    ∃ (r : Reader) (t : Token), openBytes [0x22, 0x5C, 0x22, 0x22, 0x61] .default = .ok r ∧
      t ∈ (r.cursor.runs r.options 0).flatMap (·.read) ∧ t.tag = .named .stringDouble ∧
      ∃ q inside behind, (q = 0x22 ∨ q = 0x27) ∧ t.bytes = q :: (inside ++ [q]) ∧
        r.cursor.rest.drop t.offset = q :: (inside ++ q :: behind) ∧
        IsFirst (Unguarded q (inside ++ q :: behind)) inside.length ∧
        Unescaped q (inside ++ q :: behind) inside.length ∧
        (IsFirst (Unescaped q (inside ++ q :: behind)) inside.length ↔
          ∀ n < inside.length, (inside ++ q :: behind)[n]? = some q →
            slashes ((inside ++ q :: behind).take n) % 2 = 1) := by
  have hopen : openBytes [0x22, 0x5C, 0x22, 0x22, 0x61] .default =
      .ok ⟨⟨false, false, false, false, [0x2F, 0x2F], [0x2F, 0x2A], [0x2A, 0x2F]⟩,
        .start [0x22, 0x5C, 0x22, 0x22, 0x61]⟩ := by
    with_unfolding_all rfl
  have hread : (⟨.named .stringDouble, 0, [0x22, 0x5C, 0x22, 0x22], 1⟩ : Token) ∈
      (Cursor.runs ⟨false, false, false, false, [0x2F, 0x2F], [0x2F, 0x2A], [0x2A, 0x2F]⟩
        (.start [0x22, 0x5C, 0x22, 0x22, 0x61]) 0).flatMap (·.read) := by
    decide +kernel
  exact ⟨_, _, hopen, hread, rfl, openBytes_closing hopen 0 _ hread .stringDouble (by decide) rfl⟩

/-- A quote, two backslashes and two quotes are read as one text. In escapes from the left its last
quote is not the first one that is no second byte: the two backslashes are one escape, and the
quote behind them stands alone. -/
theorem not_isFirst_unescaped :
    ∃ (r : Reader) (t : Token), openBytes [0x22, 0x5C, 0x5C, 0x22, 0x22] .default = .ok r ∧
      t ∈ (r.cursor.runs r.options 0).flatMap (·.read) ∧ t.tag = .named .stringDouble ∧
      t.offset = 0 ∧ t.bytes = [0x22, 0x5C, 0x5C, 0x22, 0x22] ∧
      IsFirst (Unescaped 0x22 [0x5C, 0x5C, 0x22, 0x22]) 2 ∧
      ¬ IsFirst (Unescaped 0x22 [0x5C, 0x5C, 0x22, 0x22]) 3 := by
  have hopen : openBytes [0x22, 0x5C, 0x5C, 0x22, 0x22] .default =
      .ok ⟨⟨false, false, false, false, [0x2F, 0x2F], [0x2F, 0x2A], [0x2A, 0x2F]⟩,
        .start [0x22, 0x5C, 0x5C, 0x22, 0x22]⟩ := by
    with_unfolding_all rfl
  have hread : (⟨.named .stringDouble, 0, [0x22, 0x5C, 0x5C, 0x22, 0x22], 1⟩ : Token) ∈
      (Cursor.runs ⟨false, false, false, false, [0x2F, 0x2F], [0x2F, 0x2A], [0x2A, 0x2F]⟩
        (.start [0x22, 0x5C, 0x5C, 0x22, 0x22]) 0).flatMap (·.read) := by
    decide +kernel
  have hquote : (0x22 : UInt8) = 0x22 ∨ (0x22 : UInt8) = 0x27 := .inl rfl
  have hsecond : Unescaped 0x22 [0x5C, 0x5C, 0x22, 0x22] 2 :=
    (unescaped_iff_slashes hquote).mpr ⟨rfl, rfl⟩
  refine ⟨_, _, hopen, hread, rfl, rfl, rfl, ⟨hsecond, fun m hm hmth => ?_⟩, fun hfirst => ?_⟩
  · have hother : ∀ m < 2, ([0x5C, 0x5C, 0x22, 0x22] : List UInt8)[m]? ≠ some 0x22 := by decide
    exact hother m hm hmth.1
  · exact hfirst.2 2 (by decide) hsecond

end TextUnits.Lexer
