import TextUnits.Proofs.Lexer.Literals

/-!
# Numbers follow the grammar

Bytes that start with a digit start with exactly one literal, or with exactly one number that breaks
off, and that is what is read of them. Bytes with the parts of a literal are read as that literal
(`Literal.number_eq`, `Broken.number_eq`), and all bytes have the parts of one (`hasNumber`).
-/

namespace TextUnits.Lexer

variable {bytes digits fraction part rest suffix tail : List UInt8} {kind : Kind} {x : UInt8}

/-- Hexadecimal digits and a fraction are read; what stands behind them tells how the number goes
on. -/
theorem hexNumber_of_parts (x : UInt8) (hd : Longest isHex digits (fraction ++ rest))
    (hf : Fraction isHex fraction rest) :
    (0x30 :: x :: (digits ++ (fraction ++ rest))).drop (2 + digits.length + fraction.length) =
        rest ∧
      hexNumber (0x30 :: x :: (digits ++ (fraction ++ rest))) =
        if startsWith (isLetter 'p') rest then
          exponent .floatHex (0x30 :: x :: (digits ++ (fraction ++ rest)))
            (2 + digits.length + fraction.length + 1)
        else if fraction.isEmpty then
          integer .integerHex (0x30 :: x :: (digits ++ (fraction ++ rest)))
            (2 + digits.length + fraction.length)
        else ⟨.error, 2 + digits.length + fraction.length⟩ := by
  have hmark : (0x30 :: x :: (digits ++ (fraction ++ rest))).drop 2 =
      digits ++ (fraction ++ rest) := rfl
  have hwhole := drop_add_length hmark
  have hrest := drop_add_length hwhole
  obtain ⟨hpoint, hsize⟩ := hf.size_eq hwhole
  refine ⟨hrest, ?_⟩
  unfold hexNumber
  dsimp only
  rw [hmark, hd.run_eq, hsize, hpoint, hrest]
  cases fraction <;> rfl

/-- Decimal digits and a fraction are read; what stands behind them tells how the number goes on. -/
theorem decimalNumber_of_parts (hne : digits ≠ []) (hd : Longest isDigit digits (fraction ++ rest))
    (hf : Fraction isDigit fraction rest) :
    (digits ++ (fraction ++ rest)).drop (digits.length + fraction.length) = rest ∧
      decimalNumber (digits ++ (fraction ++ rest)) =
        if startsWith (isLetter 'e') rest then
          exponent .floatDec (digits ++ (fraction ++ rest))
            (digits.length + fraction.length + 1)
        else if fraction.isEmpty then
          integer .integerDec (digits ++ (fraction ++ rest)) (digits.length + fraction.length)
        else float .floatDec (digits ++ (fraction ++ rest)) (digits.length + fraction.length) := by
  obtain ⟨first, more, rfl⟩ := List.exists_cons_of_ne_nil hne
  have hmore : Longest isDigit more (fraction ++ rest) :=
    ⟨fun b hb => hd.passes b (List.mem_cons_of_mem first hb), hd.ends⟩
  have hfirst : (first :: more ++ (fraction ++ rest)).drop 1 = more ++ (fraction ++ rest) := rfl
  have hwhole := drop_add_length hfirst
  rw [Nat.add_comm 1 more.length] at hwhole
  have hrest := drop_add_length hwhole
  obtain ⟨hpoint, hsize⟩ := hf.size_eq hwhole
  refine ⟨hrest, ?_⟩
  unfold decimalNumber
  dsimp only
  rw [hfirst, hmore.run_eq, Nat.add_comm 1 more.length, hsize, hpoint, List.length_cons, hrest]
  cases fraction <;> rfl

/-- Octal digits are decimal digits. -/
theorem isDigit_of_isOctal : ∀ b : UInt8, isOctal b = true → isDigit b = true :=
  forall_byte (by decide +kernel)

theorem isNonZeroOctal_iff :
    ∀ b : UInt8, isNonZeroOctal b = true ↔ isOctal b = true ∧ (b == 0x30) = false :=
  forall_byte (by decide +kernel)

/-- The digits of an octal number are digits. -/
theorem Octal.isDigit (h : Octal digits) : ∀ b ∈ digits, isDigit b = true := by
  obtain ⟨zeros, first, more, rfl, -, hzeros, hfirst, hmore⟩ := h
  intro b hb
  rcases List.mem_append.mp hb with hb | hb
  · rw [hzeros b hb]
    rfl
  · rcases List.mem_cons.mp hb with rfl | hb
    · exact isDigit_of_isOctal _ ((isNonZeroOctal_iff _).mp hfirst).1
    · exact isDigit_of_isOctal b (hmore b hb)

theorem startsWith_goesOn (bytes : List UInt8) :
    startsWith (fun b => isDigit b || b == 0x2E || isLetter 'e' b) bytes = false ↔
      Closed bytes := by
  rw [startsWith_or, startsWith_or, Bool.or_eq_false_iff, Bool.or_eq_false_iff, and_assoc]
  rfl

theorem startsWith_isOctal (h : startsWith isDigit bytes = false) :
    startsWith isOctal bytes = false := by
  cases bytes with
  | nil => rfl
  | cons b rest => exact Bool.eq_false_iff.mpr fun hb =>
      Bool.eq_false_iff.mp h (isDigit_of_isOctal b hb)

/-- Octal digits that nothing goes on are read as an octal number. -/
theorem octalNumber?_of_octal (h : Octal digits) (hb : bytes = digits ++ (suffix ++ rest))
    (hclosed : Closed (suffix ++ rest)) (hs : Suffix integerWords suffix rest) :
    octalNumber? bytes = some ⟨.integerOct, digits.length + suffix.length⟩ := by
  obtain ⟨zeros, first, more, rfl, hne, hzeros, hfirst, hmore⟩ := h
  obtain ⟨zero, others, rfl⟩ := List.exists_cons_of_ne_nil hne
  obtain ⟨hoctal, hnonzero⟩ := (isNonZeroOctal_iff _).mp hfirst
  have hothers : Longest (· == 0x30) others (first :: (more ++ (suffix ++ rest))) := by
    refine ⟨fun b hb => ?_, hnonzero⟩
    rw [hzeros b (List.mem_cons_of_mem zero hb)]
    rfl
  have hdigits : Longest isOctal (first :: more) (suffix ++ rest) :=
    ⟨List.forall_mem_cons.mpr ⟨hoctal, hmore⟩, startsWith_isOctal hclosed.1⟩
  have hdrop : bytes.drop 1 = others ++ (first :: (more ++ (suffix ++ rest))) := by
    rw [hb]
    simp
  have hwhole := drop_add_length hdrop
  have hrest : bytes.drop (1 + others.length + (first :: more).length) = suffix ++ rest :=
    drop_add_length hwhole
  unfold octalNumber?
  dsimp only
  rw [hdrop, hothers.run_eq, hwhole, ← List.cons_append, hdigits.run_eq, hrest,
    (startsWith_goesOn _).mpr hclosed, integer_of_suffix hs hrest]
  simp [startsWith, hoctal]
  omega

/-- What is read as an octal number has octal digits that nothing goes on. -/
theorem exists_of_octalNumber? {found : Found} (hz : startsWith (· == 0x30) bytes = true)
    (h : octalNumber? bytes = some found) :
    ∃ digits rest, bytes = digits ++ rest ∧ Octal digits ∧ Closed rest := by
  cases bytes with
  | nil => cases hz
  | cons zero later =>
    obtain ⟨others, behind, rfl, hothers⟩ := exists_longest (· == 0x30) later
    obtain ⟨octals, rest, rfl, hoctals⟩ := exists_longest isOctal behind
    have hdrop : (zero :: (others ++ (octals ++ rest))).drop 1 = others ++ (octals ++ rest) := rfl
    have hwhole := drop_add_length hdrop
    unfold octalNumber? at h
    dsimp only at h
    rw [hdrop, hothers.run_eq, hwhole, hoctals.run_eq, drop_add_length hwhole] at h
    split_ifs at h with hgoes
    simp only [Bool.and_eq_true, Bool.not_eq_true'] at hgoes
    cases octals with
    | nil =>
      rw [List.nil_append, hoctals.ends] at hgoes
      cases hgoes.1
    | cons first more =>
      obtain ⟨hfirst, hmore⟩ := List.forall_mem_cons.mp hoctals.passes
      refine ⟨zero :: others ++ first :: more, rest, by simp, ⟨zero :: others, first, more, rfl,
        List.cons_ne_nil _ _, ?_, (isNonZeroOctal_iff _).mpr ⟨hfirst, hothers.ends⟩, hmore⟩,
        (startsWith_goesOn rest).mp hgoes.2⟩
      exact List.forall_mem_cons.mpr ⟨eq_of_beq hz, fun b hb => eq_of_beq (hothers.passes b hb)⟩

/-- A number with an `x` behind its zero is a hexadecimal one. -/
theorem number_of_hex (hx : isLetter 'x' x = true) (tail : List UInt8) :
    number (0x30 :: x :: tail) = hexNumber (0x30 :: x :: tail) := by
  rw [View.number_eq]
  exact (if_pos rfl).trans (if_pos hx)

/-- A number with a `b` behind its zero has binary digits and a suffix. -/
theorem number_of_binary {b : UInt8} (hb : isLetter 'b' b = true)
    (hd : Longest isBinary digits (suffix ++ rest)) (hs : Suffix integerWords suffix rest) :
    number (0x30 :: b :: (digits ++ (suffix ++ rest))) =
      ⟨.integerBin, 2 + digits.length + suffix.length⟩ := by
  have hnot : ∀ b : UInt8, isLetter 'b' b = true → ¬ isLetter 'x' b = true :=
    forall_byte (by decide +kernel)
  have hdrop : (0x30 :: b :: (digits ++ (suffix ++ rest))).drop 2 =
      digits ++ (suffix ++ rest) := rfl
  rw [View.number_eq]
  refine (if_pos rfl).trans ((if_neg (hnot b hb)).trans ((if_pos hb).trans ?_))
  rw [hdrop, hd.run_eq, integer_of_suffix hs (drop_add_length hdrop)]

/-- A number without the letter of another base is octal or decimal. -/
theorem number_of_digits (hne : digits ≠ []) (hd : ∀ b ∈ digits, isDigit b = true)
    (hbase : digits = [0x30] →
      startsWith (fun b => isLetter 'x' b || isLetter 'b' b) tail = false) :
    number (digits ++ tail) =
      if startsWith (· == 0x30) (digits ++ tail) then
        (octalNumber? (digits ++ tail)).getD (decimalNumber (digits ++ tail))
      else decimalNumber (digits ++ tail) := by
  obtain ⟨first, more, rfl⟩ := List.exists_cons_of_ne_nil hne
  rw [View.number_eq]
  by_cases hzero : startsWith (· == 0x30) (first :: more ++ tail) = true
  · have hletters : startsWith (fun b => isLetter 'x' b || isLetter 'b' b) (more ++ tail) =
        false := by
      cases more with
      | nil => exact hbase (congrArg ([·]) (eq_of_beq hzero))
      | cons second others =>
        have hdigit : ∀ b : UInt8, isDigit b = true → (isLetter 'x' b || isLetter 'b' b) = false :=
          forall_byte (by decide +kernel)
        exact hdigit second (hd second (List.mem_cons_of_mem _ List.mem_cons_self))
    rw [startsWith_or, Bool.or_eq_false_iff] at hletters
    have hdrop : (first :: more ++ tail).drop 1 = more ++ tail := rfl
    rw [if_pos hzero, if_pos hzero, hdrop, hletters.1, hletters.2, if_neg Bool.false_ne_true,
      if_neg Bool.false_ne_true]
  · rw [if_neg hzero, if_neg hzero]

/-- A number with octal digits that nothing goes on is an octal one. -/
theorem number_of_octal (h : Octal digits) (hclosed : Closed (suffix ++ rest))
    (hs : Suffix integerWords suffix rest) :
    number (digits ++ (suffix ++ rest)) = ⟨.integerOct, digits.length + suffix.length⟩ := by
  have hread := octalNumber?_of_octal h rfl hclosed hs
  have hdigits := h.isDigit
  obtain ⟨zeros, first, more, rfl, hne, hzeros, -, -⟩ := h
  have hbase : zeros ++ first :: more ≠ [0x30] := by
    intro hone
    have hlength := congrArg List.length hone
    have hpos := List.length_pos_iff.mpr hne
    rw [List.length_append, List.length_cons, List.length_singleton] at hlength
    omega
  have hzero : startsWith (· == 0x30) (zeros ++ first :: more ++ (suffix ++ rest)) = true := by
    obtain ⟨zero, others, rfl⟩ := List.exists_cons_of_ne_nil hne
    exact beq_iff_eq.mpr (hzeros zero List.mem_cons_self)
  rw [number_of_digits (List.append_ne_nil_of_left_ne_nil hne _) hdigits
    (fun hone => absurd hone hbase), if_pos hzero, hread]
  rfl

/-- Any other number is a decimal one. -/
theorem number_of_decimal (hne : digits ≠ []) (hd : Longest isDigit digits tail)
    (hbase : digits = [0x30] →
      startsWith (fun b => isLetter 'x' b || isLetter 'b' b) tail = false)
    (hoctal : ¬ (Octal digits ∧ Closed tail)) :
    number (digits ++ tail) = decimalNumber (digits ++ tail) := by
  rw [number_of_digits hne hd.passes hbase]
  split_ifs with hzero
  · cases hread : octalNumber? (digits ++ tail) with
    | none => rfl
    | some found =>
      -- The octal digits would be all the digits that stand there.
      obtain ⟨octals, rest, hparts, hoctals, hclosed⟩ := exists_of_octalNumber? hzero hread
      have hlongest : Longest isDigit octals rest := ⟨hoctals.isDigit, hclosed.1⟩
      have hlength : digits.length = octals.length := by
        rw [← hd.run_eq, hparts, hlongest.run_eq]
      obtain ⟨rfl, rfl⟩ := List.append_inj hparts hlength
      exact absurd ⟨hoctals, hclosed⟩ hoctal
  · rfl

/-- Where a point or an exponent stands no letter of another base does. -/
theorem startsWith_base (h : startsWith (· == 0x2E) bytes = true ∨
    startsWith (isLetter 'e') bytes = true) :
    startsWith (fun b => isLetter 'x' b || isLetter 'b' b) bytes = false ∧ ¬ Closed bytes := by
  refine ⟨?_, fun hclosed => ?_⟩
  · cases bytes with
    | nil => rfl
    | cons b rest =>
      have hnot : ∀ b : UInt8, (b == 0x2E) = true ∨ isLetter 'e' b = true →
          (isLetter 'x' b || isLetter 'b' b) = false :=
        forall_byte (by decide +kernel)
      exact hnot b h
  · rcases h with h | h
    · exact Bool.eq_false_iff.mp hclosed.2.1 h
    · exact Bool.eq_false_iff.mp hclosed.2.2 h

/-- Digits in front of a fraction or an exponent are those of a decimal number. -/
theorem number_of_pointed (hne : digits ≠ []) (hd : Longest isDigit digits (fraction ++ rest))
    (hf : Fraction isDigit fraction rest)
    (hpart : fraction ≠ [] ∨ startsWith (isLetter 'e') rest = true) :
    number (digits ++ (fraction ++ rest)) = decimalNumber (digits ++ (fraction ++ rest)) := by
  have hstarts : startsWith (· == 0x2E) (fraction ++ rest) = true ∨
      startsWith (isLetter 'e') (fraction ++ rest) = true := by
    cases hf with
    | absent hpoint =>
      rcases hpart with hpart | hpart
      · exact absurd rfl hpart
      · exact .inr hpart
    | present hdigits => exact .inl rfl
  obtain ⟨hbase, hclosed⟩ := startsWith_base hstarts
  exact number_of_decimal hne hd (fun _ => hbase) (fun h => hclosed h.2)

/-- Bytes with the parts of a literal are read as that literal. -/
theorem Literal.number_eq (h : Literal kind part rest) :
    number (part ++ rest) = ⟨kind, part.length⟩ := by
  cases h with
  | @hexInteger x digits suffix _ hx hdigits hpoint hexponent hsuffix =>
    have hwhole : Longest isHex digits ([] ++ (suffix ++ rest)) := hdigits
    obtain ⟨hdrop, hread⟩ := hexNumber_of_parts x hwhole (.absent hpoint)
    have hbytes : 0x30 :: x :: (digits ++ suffix) ++ rest =
        0x30 :: x :: (digits ++ ([] ++ (suffix ++ rest))) := by simp
    rw [hbytes, number_of_hex hx, hread, hexponent, if_neg Bool.false_ne_true, List.isEmpty_nil,
      if_pos rfl, integer_of_suffix hsuffix hdrop]
    simp only [List.length_cons, List.length_append, List.length_nil]
    congr 1
    omega
  | @hexFloat x digits fraction exponent suffix _ hx hdigits hfraction hexponent hsuffix =>
    obtain ⟨hdrop, hread⟩ := hexNumber_of_parts x hdigits hfraction
    have hbytes : 0x30 :: x :: (digits ++ (fraction ++ (exponent ++ suffix))) ++ rest =
        0x30 :: x :: (digits ++ (fraction ++ (exponent ++ (suffix ++ rest)))) := by simp
    rw [hbytes, number_of_hex hx, hread, hexponent.startsWith, if_pos rfl,
      hexponent.exponent_eq hsuffix hdrop]
    simp only [List.length_cons, List.length_append]
    congr 1
    omega
  | @binary b digits suffix _ hb hdigits hsuffix =>
    have hbytes : 0x30 :: b :: (digits ++ suffix) ++ rest =
        0x30 :: b :: (digits ++ (suffix ++ rest)) := by simp
    rw [hbytes, number_of_binary hb hdigits hsuffix]
    simp only [List.length_cons, List.length_append]
    congr 1
    omega
  | octal hdigits hclosed hsuffix =>
    rw [List.append_assoc, number_of_octal hdigits hclosed hsuffix, List.length_append]
  | @decimalInteger digits suffix _ hne hdigits hoctal hbase hpoint hexponent hsuffix =>
    have hwhole : Longest isDigit digits ([] ++ (suffix ++ rest)) := hdigits
    obtain ⟨hdrop, hread⟩ := decimalNumber_of_parts hne hwhole (.absent hpoint)
    rw [List.nil_append] at hdrop hread
    rw [List.append_assoc, number_of_decimal hne hdigits hbase (fun h => hoctal h.1), hread,
      hexponent, if_neg Bool.false_ne_true, List.isEmpty_nil, if_pos rfl,
      integer_of_suffix hsuffix hdrop, List.length_append]
    rfl
  | @decimalFraction digits fraction suffix _ hne hdigits hpart hfraction hexponent hsuffix =>
    obtain ⟨hdrop, hread⟩ := decimalNumber_of_parts hne hdigits hfraction
    rw [List.append_assoc, List.append_assoc, number_of_pointed hne hdigits hfraction (.inl hpart),
      hread, hexponent, if_neg Bool.false_ne_true,
      if_neg (fun h => hpart (List.isEmpty_iff.mp h)), float_of_suffix hsuffix hdrop]
    simp only [List.length_append, Nat.add_assoc]
  | @decimalExponent digits fraction exponent suffix _ hne hdigits hfraction hexponent hsuffix =>
    obtain ⟨hdrop, hread⟩ := decimalNumber_of_parts hne hdigits hfraction
    have hbytes : digits ++ (fraction ++ (exponent ++ suffix)) ++ rest =
        digits ++ (fraction ++ (exponent ++ (suffix ++ rest))) := by simp
    rw [hbytes, number_of_pointed hne hdigits hfraction (.inr hexponent.startsWith), hread,
      hexponent.startsWith, if_pos rfl, hexponent.exponent_eq hsuffix hdrop]
    simp only [List.length_append, Nat.add_assoc]

/-- Bytes with the parts of a number that breaks off are read as one that ends there. -/
theorem Broken.number_eq (h : Broken part rest) :
    number (part ++ rest) = ⟨.error, part.length⟩ := by
  cases h with
  | @hexFraction x digits fraction _ hx hdigits hpart hfraction hexponent =>
    obtain ⟨-, hread⟩ := hexNumber_of_parts x hdigits hfraction
    have hbytes : 0x30 :: x :: (digits ++ fraction) ++ rest =
        0x30 :: x :: (digits ++ (fraction ++ rest)) := by simp
    rw [hbytes, number_of_hex hx, hread, hexponent, if_neg Bool.false_ne_true,
      if_neg (fun h => hpart (List.isEmpty_iff.mp h))]
    simp only [List.length_cons, List.length_append]
    congr 1
    omega
  | @hexExponent x digits fraction exponent _ hx hdigits hfraction hexponent =>
    obtain ⟨hdrop, hread⟩ := hexNumber_of_parts x hdigits hfraction
    have hbytes : 0x30 :: x :: (digits ++ (fraction ++ exponent)) ++ rest =
        0x30 :: x :: (digits ++ (fraction ++ (exponent ++ rest))) := by simp
    rw [hbytes, number_of_hex hx, hread, hexponent.startsWith, if_pos rfl,
      hexponent.exponent_eq hdrop]
    simp only [List.length_cons, List.length_append]
    congr 1
    omega
  | @decimalExponent digits fraction exponent _ hne hdigits hfraction hexponent =>
    obtain ⟨hdrop, hread⟩ := decimalNumber_of_parts hne hdigits hfraction
    have hbytes : digits ++ (fraction ++ exponent) ++ rest =
        digits ++ (fraction ++ (exponent ++ rest)) := by simp
    rw [hbytes, number_of_pointed hne hdigits hfraction (.inr hexponent.startsWith), hread,
      hexponent.startsWith, if_pos rfl, hexponent.exponent_eq hdrop]
    simp only [List.length_append, Nat.add_assoc]

/-- Bytes start with a literal, or with a number that breaks off. -/
def HasNumber (bytes : List UInt8) : Prop :=
  ∃ part rest, bytes = part ++ rest ∧ ((∃ kind, Literal kind part rest) ∨ Broken part rest)

theorem hasNumber_of_hex (hx : isLetter 'x' x = true) (tail : List UInt8) :
    HasNumber (0x30 :: x :: tail) := by
  obtain ⟨digits, behind, rfl, hdigits⟩ := exists_longest isHex tail
  obtain ⟨fraction, later, rfl, hfraction⟩ := exists_fraction isHex behind
  by_cases hexponent : startsWith (isLetter 'p') later = true
  · obtain ⟨exponent, more, rfl, hwhole | hbroken⟩ := exists_exponent hexponent
    · obtain ⟨suffix, rest, rfl, hsuffix, -⟩ := exists_floatSuffix more
      refine ⟨0x30 :: x :: (digits ++ (fraction ++ (exponent ++ suffix))), rest, by simp, .inl ?_⟩
      exact ⟨_, .hexFloat hx hdigits hfraction hwhole hsuffix⟩
    · refine ⟨0x30 :: x :: (digits ++ (fraction ++ exponent)), more, by simp, .inr ?_⟩
      exact .hexExponent hx hdigits hfraction hbroken
  · rw [Bool.not_eq_true] at hexponent
    by_cases hpart : fraction = []
    · subst hpart
      obtain ⟨suffix, rest, rfl, hsuffix, -⟩ := exists_integerSuffix later
      cases hfraction with
      | absent hpoint =>
        refine ⟨0x30 :: x :: (digits ++ suffix), rest, by simp, .inl ?_⟩
        exact ⟨_, .hexInteger hx hdigits hpoint hexponent hsuffix⟩
    · refine ⟨0x30 :: x :: (digits ++ fraction), later, by simp, .inr ?_⟩
      exact .hexFraction hx hdigits hpart hfraction hexponent

theorem hasNumber_of_binary {b : UInt8} (hb : isLetter 'b' b = true) (tail : List UInt8) :
    HasNumber (0x30 :: b :: tail) := by
  obtain ⟨digits, behind, rfl, hdigits⟩ := exists_longest isBinary tail
  obtain ⟨suffix, rest, rfl, hsuffix, -⟩ := exists_integerSuffix behind
  exact ⟨0x30 :: b :: (digits ++ suffix), rest, by simp, .inl ⟨_, .binary hb hdigits hsuffix⟩⟩

/-- Bytes that start with a digit, but not with the mark of another base, start with an octal number
or a decimal one. -/
theorem hasNumber_of_digits (hd : startsWith isDigit bytes = true)
    (hbase : startsWith (· == 0x30) bytes = true →
      startsWith (fun b => isLetter 'x' b || isLetter 'b' b) (bytes.drop 1) = false) :
    HasNumber bytes := by
  obtain ⟨digits, behind, rfl, hdigits⟩ := exists_longest isDigit bytes
  have hne : digits ≠ [] := by
    rintro rfl
    exact Bool.eq_false_iff.mp hdigits.ends hd
  obtain ⟨fraction, later, rfl, hfraction⟩ := exists_fraction isDigit behind
  by_cases hexponent : startsWith (isLetter 'e') later = true
  · obtain ⟨exponent, more, rfl, hwhole | hbroken⟩ := exists_exponent hexponent
    · obtain ⟨suffix, rest, rfl, hsuffix, -⟩ := exists_floatSuffix more
      refine ⟨digits ++ (fraction ++ (exponent ++ suffix)), rest, by simp, .inl ?_⟩
      exact ⟨_, .decimalExponent hne hdigits hfraction hwhole hsuffix⟩
    · refine ⟨digits ++ (fraction ++ exponent), more, by simp, .inr ?_⟩
      exact .decimalExponent hne hdigits hfraction hbroken
  · rw [Bool.not_eq_true] at hexponent
    by_cases hpart : fraction = []
    · subst hpart
      obtain ⟨suffix, rest, rfl, hsuffix, -⟩ := exists_integerSuffix later
      cases hfraction with
      | absent hpoint =>
        refine ⟨digits ++ suffix, rest, by simp, .inl ?_⟩
        by_cases hoctal : Octal digits
        · exact ⟨_, .octal hoctal ⟨hdigits.ends, hpoint, hexponent⟩ hsuffix⟩
        · refine ⟨_, .decimalInteger hne hdigits hoctal ?_ hpoint hexponent hsuffix⟩
          rintro rfl
          exact hbase rfl
    · obtain ⟨suffix, rest, rfl, hsuffix, -⟩ := exists_floatSuffix later
      refine ⟨digits ++ (fraction ++ suffix), rest, by simp, .inl ?_⟩
      exact ⟨_, .decimalFraction hne hdigits hpart hfraction hexponent hsuffix⟩

/-- All bytes that start with a digit start with a literal, or with a number that breaks off. -/
theorem hasNumber (hd : startsWith isDigit bytes = true) : HasNumber bytes := by
  by_cases hbase : startsWith (· == 0x30) bytes = true ∧
      startsWith (fun b => isLetter 'x' b || isLetter 'b' b) (bytes.drop 1) = true
  · obtain ⟨hzero, hletter⟩ := hbase
    match bytes with
    | [] => cases hd
    | [_] => cases hletter
    | zero :: letter :: tail =>
      obtain rfl : zero = 0x30 := eq_of_beq hzero
      rcases (Bool.or_eq_true _ _).mp hletter with hx | hb
      · exact hasNumber_of_hex hx tail
      · exact hasNumber_of_binary hb tail
  · exact hasNumber_of_digits hd fun hzero =>
      Bool.eq_false_iff.mpr fun hletter => hbase ⟨hzero, hletter⟩

/-- No literal is of the kind of numbers that break off. -/
theorem Literal.kind_ne (h : Literal kind part rest) : kind ≠ .error := by
  cases h <;> decide

/-- A number of some size is the literal of its kind there, or breaks off there. -/
theorem number_cases (hd : startsWith isDigit (part ++ rest) = true)
    (h : number (part ++ rest) = ⟨kind, part.length⟩) :
    Literal kind part rest ∨ kind = .error ∧ Broken part rest := by
  obtain ⟨other, behind, hparts, ⟨found, hliteral⟩ | hbroken⟩ := hasNumber hd
  · have hsame := h.symm.trans ((congrArg number hparts).trans hliteral.number_eq)
    obtain ⟨rfl, hlength⟩ := Found.mk.inj hsame
    obtain ⟨rfl, rfl⟩ := List.append_inj hparts hlength
    exact .inl hliteral
  · have hsame := h.symm.trans ((congrArg number hparts).trans hbroken.number_eq)
    obtain ⟨rfl, hlength⟩ := Found.mk.inj hsame
    obtain ⟨rfl, rfl⟩ := List.append_inj hparts hlength
    exact .inr ⟨rfl, hbroken⟩

/-- What is found at the front of bytes is the one number that the grammar allows there. -/
structure Found.Grammatical (bytes : List UInt8) (found : Found) : Prop where
  /-- It ends behind some of the bytes. -/
  within : ∃ part rest, bytes = part ++ rest ∧ found.size = part.length
  /-- It is a literal of a kind exactly when the bytes that it takes have the parts of one. -/
  literal_iff : ∀ part rest, bytes = part ++ rest → ∀ kind,
    Literal kind part rest ↔ kind ≠ .error ∧ found = ⟨kind, part.length⟩
  /-- It breaks off exactly when they do. -/
  broken_iff : ∀ part rest, bytes = part ++ rest →
    (Broken part rest ↔ found = ⟨.error, part.length⟩)

theorem number_grammatical (hd : startsWith isDigit bytes = true) :
    (number bytes).Grammatical bytes := by
  refine ⟨?_, ?_, ?_⟩
  · obtain ⟨part, rest, rfl, ⟨kind, hliteral⟩ | hbroken⟩ := hasNumber hd
    · exact ⟨part, rest, rfl, by rw [hliteral.number_eq]⟩
    · exact ⟨part, rest, rfl, by rw [hbroken.number_eq]⟩
  · rintro part rest rfl kind
    refine ⟨fun h => ⟨h.kind_ne, h.number_eq⟩, fun ⟨hne, h⟩ => ?_⟩
    rcases number_cases hd h with hliteral | ⟨hkind, -⟩
    · exact hliteral
    · exact absurd hkind hne
  · rintro part rest rfl
    refine ⟨fun h => h.number_eq, fun h => ?_⟩
    rcases number_cases hd h with hliteral | ⟨-, hbroken⟩
    · exact absurd rfl hliteral.kind_ne
    · exact hbroken

/-- The number that starts with a digit in front of a limit is the one that the grammar allows at
the front of the bytes up to the limit. Read in place it has the same kind and ends at the same
place, whatever stands behind the limit. -/
theorem number_grammar {source : List UInt8} {n start : Nat} (hs : start < n)
    (hd : ∃ b ∈ source[start]?, isDigit b = true) :
    (number ((source.take n).drop start)).Grammatical ((source.take n).drop start) ∧
      ∀ other : List UInt8, other.take n = source.take n →
        (View.mk other n).number start =
          ((number ((source.take n).drop start)).kind,
            start + (number ((source.take n).drop start)).size) := by
  refine ⟨number_grammatical ?_, fun other hsame => ?_⟩
  · obtain ⟨b, hb, hdigit⟩ := hd
    have hpasses : (View.mk source n).passes isDigit start = true := by
      rw [View.passes, View.byte?, if_pos hs, Option.mem_def.mp hb]
      exact hdigit
    exact (View.passes_eq _ _ _).symm.trans hpasses
  · rw [View.number_found, View.behind, hsame]
    rfl

/-- An exponent that is cut off in front of its digit breaks off there, although the digit
follows. -/
theorem number_grammar_cut :
    (number (([0x31, 0x65, 0x35].take 2).drop 0)).Grammatical (([0x31, 0x65, 0x35].take 2).drop 0) ∧
      ∀ other : List UInt8, other.take 2 = [0x31, 0x65, 0x35].take 2 →
        (View.mk other 2).number 0 =
          ((number (([0x31, 0x65, 0x35].take 2).drop 0)).kind,
            0 + (number (([0x31, 0x65, 0x35].take 2).drop 0)).size) :=
  number_grammar (by decide) ⟨0x31, rfl, rfl⟩

end TextUnits.Lexer
