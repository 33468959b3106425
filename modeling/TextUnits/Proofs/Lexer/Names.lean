import TextUnits.Proofs.Lexer.Numerals
import TextUnits.Proofs.Scan.Lines

/-!
# Names as code points

A name is read byte by byte, up to the first blank, which is looked for code point by code point.
On well-formed text both together read whole code points: all bytes of a code point beyond ASCII go
on with a name, and no such code point is read when it is a blank. Where the text is cut within a
code point no blank is found there, and the bytes that are left of it go on with the name.
-/

namespace TextUnits.Lexer

open Encoding Scan

/-- Whether a code point can start a name: an ASCII letter, an underscore or one beyond ASCII that
is no white space. -/
def startsIdentifier (code : Nat) : Bool :=
  (0x61 ≤ code && code ≤ 0x7A) || (0x41 ≤ code && code ≤ 0x5A) || code == 0x5F ||
    (0x80 ≤ code && !Scalar.isWhitespace code)

/-- Whether a code point can go on with a name: one that can start it, an ASCII digit, or a dash
where these are allowed. -/
def continuesIdentifier (o : Options) (code : Nat) : Bool :=
  startsIdentifier code || (0x30 ≤ code && code ≤ 0x39) || (o.allowDashes && code == 0x2D)

/-- The bytes in front of the first blank, or all of them. -/
def unblanked (bytes : List UInt8) : List UInt8 := bytes.take ((blank? bytes).getD bytes.length)

/-- The first bytes of a code point that lacks its last ones. -/
def CutOff (bytes : List UInt8) : Prop :=
  bytes ≠ [] ∧ ∃ code lost, Scalar.isScalar code = true ∧ lost ≠ [] ∧
    utf8.encode code = bytes ++ lost

/-- What may be left behind the code points of a text that is cut: no bytes, or the first ones of
a code point. -/
def Remnant (bytes : List UInt8) : Prop := bytes = [] ∨ CutOff bytes

variable {o : Options} {code size : Nat} {codes rest : List Nat} {bytes more stub : List UInt8}
  {found : Found}

/-- No code point is read where one is cut off. -/
theorem next?_of_cutOff (h : CutOff bytes) : next? bytes = none := by
  obtain ⟨-, code, lost, hscalar, hlost, hencode⟩ := h
  exact next?_of_lacking hscalar hlost hencode

theorem next?_of_remnant (h : Remnant bytes) : next? bytes = none := by
  rcases h with rfl | hcut
  · rfl
  · exact next?_of_cutOff hcut

/-- Text that is cut somewhere is code points of the text and what is left of the next one. -/
theorem exists_remnant (h : ∀ code ∈ codes, Scalar.isScalar code = true)
    (hp : bytes <+: utf8.encodeAll codes) :
    ∃ seen stub, seen <+: codes ∧ bytes = utf8.encodeAll seen ++ stub ∧ Remnant stub := by
  induction codes generalizing bytes with
  | nil => exact ⟨[], bytes, List.prefix_refl _, rfl, .inl (List.prefix_nil.mp hp)⟩
  | cons code rest ih =>
    obtain ⟨hscalar, hrest⟩ := List.forall_mem_cons.mp h
    rcases exists_front hp with ⟨more, rfl, hmore⟩ | ⟨lost, hlost, hcode⟩
    · obtain ⟨seen, stub, hseen, rfl, hstub⟩ := ih hrest hmore
      refine ⟨code :: seen, stub, List.cons_prefix_cons.mpr ⟨rfl, hseen⟩, ?_, hstub⟩
      rw [encodeAll_cons, List.append_assoc]
    · refine ⟨[], bytes, List.nil_prefix, rfl, ?_⟩
      by_cases hempty : bytes = []
      · exact .inl hempty
      · exact .inr ⟨hempty, code, lost, hscalar, hlost, hcode⟩

/-- A code point of ASCII is one byte. -/
theorem encode_of_ascii (h : code < 0x80) : utf8.encode code = [UInt8.ofNat code] :=
  if_pos (Nat.le_of_lt_succ h)

/-- The bytes of a code point beyond ASCII are beyond ASCII, and go on with a name. -/
theorem startsName_of_mem_encode (h : Scalar.isScalar code = true) (hc : 0x80 ≤ code) :
    ∀ b ∈ utf8.encode code, startsName b = true := by
  have hhigh : ∀ b : UInt8, 0x80 ≤ b.toNat → startsName b = true := forall_byte (by decide +kernel)
  obtain ⟨lead, tail, hencode, -, htail, hascii⟩ := exists_lead h
  rw [hencode, List.forall_mem_cons]
  refine ⟨hhigh lead (Nat.not_lt.mp fun hlow => ?_), fun b hb => hhigh b ?_⟩
  · have hlead := (hascii hlow).2
    omega
  · have hcont := (Scalar.isContinuation_iff b.toNat_lt).mp (htail b hb)
    omega

/-- For ASCII the tests of bytes are those of code points. -/
theorem startsName_of_ascii (h : code < 0x80) :
    startsName (UInt8.ofNat code) = startsIdentifier code := by
  have hall : ∀ n < 0x80, startsName (UInt8.ofNat n) = startsIdentifier n := by decide +kernel
  exact hall code h

theorem continuesName_of_ascii (o : Options) (h : code < 0x80) :
    continuesName o (UInt8.ofNat code) = continuesIdentifier o code := by
  have hdigits : ∀ n < 0x80, isDigit (UInt8.ofNat n) = (0x30 ≤ n && n ≤ 0x39 : Bool) := by
    decide +kernel
  have hdashes : ∀ n < 0x80, ((UInt8.ofNat n) == 0x2D) = (n == 0x2D) := by decide +kernel
  rw [continuesName, continuesIdentifier, startsName_of_ascii h, hdigits code h, hdashes code h]

/-- A code point beyond ASCII that is no blank can start a name. -/
theorem startsIdentifier_of_le (hc : 0x80 ≤ code) (hb : Scalar.isBlank code = false) :
    startsIdentifier code = true := by
  have hwhite : Scalar.isWhitespace code = false := (Bool.or_eq_false_iff.mp hb).2
  rw [startsIdentifier, hwhite, decide_eq_true hc]
  exact Bool.or_true _

/-- A blank is no part of a name. -/
theorem continuesIdentifier_of_isBlank (o : Options) (h : Scalar.isBlank code = true) :
    continuesIdentifier o code = false := by
  have hascii : ∀ n < 0x80, Scalar.isBlank n = true →
      startsIdentifier n = false ∧ (0x30 ≤ n && n ≤ 0x39 : Bool) = false ∧ (n == 0x2D) = false := by
    decide +kernel
  by_cases hlow : code < 0x80
  · obtain ⟨hstarts, hdigit, hdash⟩ := hascii code hlow h
    rw [continuesIdentifier, hstarts, hdigit, hdash, Bool.and_false]
    rfl
  · have hwhite : Scalar.isWhitespace code = true := by
      rcases (Bool.or_eq_true _ _).mp h with hzero | hwhite
      · rw [eq_of_beq hzero] at hlow
        exact absurd (by decide) hlow
      · exact hwhite
    rw [continuesIdentifier, startsIdentifier, hwhite, Bool.not_true, Bool.and_false, Bool.or_false]
    simp only [Bool.or_eq_false_iff, Bool.and_eq_false_imp, decide_eq_true_eq,
      decide_eq_false_iff_not, beq_eq_false_iff_ne]
    omega

theorem isBlank_of_continuesIdentifier (h : continuesIdentifier o code = true) :
    Scalar.isBlank code = false := by
  refine Bool.eq_false_iff.mpr fun hblank => ?_
  rw [continuesIdentifier_of_isBlank o hblank] at h
  cases h

/-- All bytes of a code point that goes on with a name do. -/
theorem continuesName_of_mem_encode (h : Scalar.isScalar code = true)
    (hc : continuesIdentifier o code = true) :
    ∀ b ∈ utf8.encode code, continuesName o b = true := by
  by_cases hascii : code < 0x80
  · rw [encode_of_ascii hascii, List.forall_mem_singleton, continuesName_of_ascii o hascii]
    exact hc
  · intro b hb
    rw [continuesName, startsName_of_mem_encode h (Nat.not_lt.mp hascii) b hb]
    rfl

/-- A code point that is no blank and does not go on with a name is ASCII. -/
theorem lt_of_continuesIdentifier (hb : Scalar.isBlank code = false)
    (hc : continuesIdentifier o code = false) : code < 0x80 := by
  by_contra hhigh
  rw [continuesIdentifier, startsIdentifier_of_le (Nat.not_lt.mp hhigh) hb] at hc
  cases hc

/-- What is left of a code point that is cut off goes on with a name: the code point has more than
one byte, so it is beyond ASCII. -/
theorem continuesName_of_cutOff (o : Options) (h : CutOff stub) :
    ∀ b ∈ stub, continuesName o b = true := by
  obtain ⟨hne, code, lost, hscalar, hlost, hcode⟩ := h
  have hhigh : 0x80 ≤ code := by
    by_contra hlow
    rw [encode_of_ascii (Nat.not_le.mp hlow)] at hcode
    have hlength := congrArg List.length hcode
    have hfront := List.length_pos_iff.mpr hne
    have hback := List.length_pos_iff.mpr hlost
    rw [List.length_singleton, List.length_append] at hlength
    omega
  intro b hb
  rw [continuesName,
    startsName_of_mem_encode hscalar hhigh b (hcode ▸ List.mem_append_left lost hb)]
  rfl

/-- Where no code point is read there is no blank either. -/
theorem unblanked_of_stop (h : next? bytes = none) : unblanked bytes = bytes := by
  rw [unblanked, blank?_of_stop h]
  exact List.take_length

/-- In front of the first blank stands the code point at the front, unless it is one. -/
theorem unblanked_encode (h : Scalar.isScalar code = true) (more : List UInt8) :
    unblanked (utf8.encode code ++ more) =
      if Scalar.isBlank code then [] else utf8.encode code ++ unblanked more := by
  unfold unblanked
  rw [blank?_of_next? (next?_encode h more)]
  split_ifs with hblank
  · rfl
  · have hlimit : ((blank? more).map (utf8.width code + ·)).getD
          (utf8.encode code ++ more).length =
        (utf8.encode code).length + (blank? more).getD more.length := by
      rw [List.length_append, length_encode]
      cases blank? more <;> rfl
    rw [hlimit, List.take_length_add_append]

/-- The bytes at the front of a text that go on with a name: they are code points that do, up to one
that does not. Where no code point is behind them, what is left of the one that is cut off belongs
to them. -/
structure NameRun (o : Options) (codes : List Nat) (stub : List UInt8) (name behind : List Nat)
    (size : Nat) : Prop where
  /-- They are at the front of the text. -/
  parts : name ++ behind = codes
  /-- All of them go on with a name. -/
  continues : ∀ code ∈ name, continuesIdentifier o code = true
  /-- The code point behind them does not. -/
  ends : ∀ code ∈ behind.head?, continuesIdentifier o code = false
  /-- They take their bytes, and those that are left. -/
  length_eq : (utf8.encodeAll name ++ if behind = [] then stub else []).length = size

/-- Where no code point stands, all that is left of one goes on with a name. -/
theorem nameRun_stub (o : Options) (stub : List UInt8) : NameRun o [] stub [] [] stub.length :=
  ⟨rfl, fun _ hc => absurd hc List.not_mem_nil, fun _ hc => absurd hc (Option.not_mem_none _), rfl⟩

/-- No bytes go on with a name in front of a code point that does not. -/
theorem nameRun_zero (hc : continuesIdentifier o code = false) (rest : List Nat)
    (stub : List UInt8) : NameRun o (code :: rest) stub [] (code :: rest) 0 :=
  ⟨rfl, fun _ hc => absurd hc List.not_mem_nil, fun _ hmem => Option.some.inj hmem ▸ hc, rfl⟩

/-- A code point that goes on with a name extends what follows it. -/
theorem NameRun.cons {name behind : List Nat} (h : NameRun o rest stub name behind size)
    (hc : continuesIdentifier o code = true) :
    NameRun o (code :: rest) stub (code :: name) behind (utf8.width code + size) where
  parts := congrArg (code :: ·) h.parts
  continues := List.forall_mem_cons.mpr ⟨hc, h.continues⟩
  ends := h.ends
  length_eq := by
    rw [encodeAll_cons, List.append_assoc, List.length_append, length_encode, h.length_eq]

/-- The bytes of a run are those of its code points, and those that are left. -/
theorem NameRun.take_eq {name behind : List Nat} (h : NameRun o codes stub name behind size) :
    (utf8.encodeAll codes ++ stub).take size =
      utf8.encodeAll name ++ if behind = [] then stub else [] := by
  obtain ⟨rfl, -, -, rfl⟩ := h
  by_cases hlast : behind = []
  · rw [if_pos hlast, hlast, List.append_nil, List.take_length]
  · rw [if_neg hlast, List.append_nil, encodeAll_append, List.append_assoc, List.take_left]

/-- A run of bytes that pass a test extends bytes that pass it. -/
theorem run_append {test : UInt8 → Bool} {front bytes : List UInt8}
    (h : ∀ b ∈ front, test b = true) :
    Sequence.run test (front ++ bytes) = front.length + Sequence.run test bytes := by
  rw [Sequence.run, List.takeWhile_append_of_pos h, List.length_append, Sequence.run]

/-- The bytes that go on with a name in front of the first blank are the code points that do. -/
theorem run_unblanked (o : Options) (h : ∀ code ∈ codes, Scalar.isScalar code = true)
    (hstub : Remnant stub) :
    ∃ name behind, NameRun o codes stub name behind
      (Sequence.run (continuesName o) (unblanked (utf8.encodeAll codes ++ stub))) := by
  induction codes with
  | nil =>
    have hall : ∀ b ∈ stub, continuesName o b = true := by
      rcases hstub with rfl | hcut
      · exact fun b hb => absurd hb List.not_mem_nil
      · exact continuesName_of_cutOff o hcut
    have hsize : Sequence.run (continuesName o) (unblanked stub) = stub.length := by
      rw [unblanked_of_stop (next?_of_remnant hstub), Sequence.run,
        List.takeWhile_eq_self_iff.mpr hall]
    exact ⟨[], [], hsize.symm ▸ nameRun_stub o stub⟩
  | cons code rest ih =>
    obtain ⟨hscalar, hrest⟩ := List.forall_mem_cons.mp h
    rw [encodeAll_cons, List.append_assoc, unblanked_encode hscalar]
    cases hblank : Scalar.isBlank code with
    | true => exact ⟨[], _, nameRun_zero (continuesIdentifier_of_isBlank o hblank) rest stub⟩
    | false =>
      rw [if_neg Bool.false_ne_true]
      cases hgoes : continuesIdentifier o code with
      | true =>
        obtain ⟨name, behind, hname⟩ := ih hrest
        rw [run_append (continuesName_of_mem_encode hscalar hgoes), length_encode]
        exact ⟨code :: name, behind, hname.cons hgoes⟩
      | false =>
        have hascii := lt_of_continuesIdentifier hblank hgoes
        have hstop : continuesName o (UInt8.ofNat code) = false :=
          (continuesName_of_ascii o hascii).trans hgoes
        rw [encode_of_ascii hascii, Sequence.run, List.singleton_append, List.takeWhile_cons, hstop]
        exact ⟨[], _, nameRun_zero hgoes rest stub⟩

/-- What starts with a byte of a name and with no blank starts with a code point of one. -/
theorem startsIdentifier_of_front (h : Scalar.isScalar code = true)
    (hblank : leading (utf8.encode code ++ more) = 0)
    (hs : startsWith startsName (utf8.encode code ++ more) = true) :
    Scalar.isBlank code = false ∧ startsIdentifier code = true := by
  have hplain : Scalar.isBlank code = false := by
    have hzero : (utf8.encode code ++ more).head? ≠ some 0 := by
      intro hhead
      cases hbytes : utf8.encode code ++ more with
      | nil =>
        rw [hbytes] at hs
        cases hs
      | cons b tail =>
        rw [hbytes] at hhead hs
        cases hhead
        cases hs
    have hpos := utf8.width_pos code
    rw [leading_of_next? hzero (next?_encode h more)] at hblank
    split_ifs at hblank with hb
    · omega
    · exact Bool.not_eq_true _ ▸ hb
  refine ⟨hplain, ?_⟩
  by_cases hascii : code < 0x80
  · rw [encode_of_ascii hascii] at hs
    exact (startsName_of_ascii hascii).symm.trans hs
  · exact startsIdentifier_of_le (Nat.not_lt.mp hascii) hplain

/-- A name that is found is made of the code points that go on with it, the first of which can start
it, and of what is left of one that is cut off where it reaches that. -/
theorem identifier?_name (h : ∀ code ∈ codes, Scalar.isScalar code = true) (hstub : Remnant stub)
    (hblank : leading (utf8.encodeAll codes ++ stub) = 0)
    (hf : identifier? o (utf8.encodeAll codes ++ stub) = some found) :
    0 < found.size ∧ ∃ name behind, NameRun o codes stub name behind found.size ∧
      ∀ code ∈ name.head?, startsIdentifier code = true := by
  unfold identifier? at hf
  dsimp only at hf
  split_ifs at hf with hs
  cases hf
  refine ⟨Nat.add_pos_left Nat.one_pos _, ?_⟩
  cases codes with
  | nil =>
    -- All that is left of a code point goes on with the name.
    have hcut : CutOff stub := hstub.resolve_left (by
      rintro rfl
      cases hs)
    have hpos := List.length_pos_iff.mpr hcut.1
    have hall := continuesName_of_cutOff o hcut
    have hsize : 1 + Sequence.run (continuesName o) ((unblanked stub).drop 1) = stub.length := by
      rw [unblanked_of_stop (next?_of_remnant hstub), Sequence.run,
        List.takeWhile_eq_self_iff.mpr fun b hb => hall b (List.mem_of_mem_drop hb),
        List.length_drop]
      omega
    exact ⟨[], [], hsize.symm ▸ nameRun_stub o stub, fun c hc => absurd hc (Option.not_mem_none _)⟩
  | cons code rest =>
    obtain ⟨hscalar, hrest⟩ := List.forall_mem_cons.mp h
    rw [encodeAll_cons, List.append_assoc] at hblank hs ⊢
    obtain ⟨hplain, hstarts⟩ := startsIdentifier_of_front hscalar hblank hs
    have hgoes : continuesIdentifier o code = true := by
      rw [continuesIdentifier, hstarts]
      rfl
    obtain ⟨name, behind, hname⟩ := run_unblanked o hrest hstub
    refine ⟨code :: name, behind, ?_, fun c hc => Option.some.inj hc ▸ hstarts⟩
    have hbytes := continuesName_of_mem_encode (o := o) hscalar hgoes
    obtain ⟨lead, tail, hencode, -⟩ := exists_lead hscalar
    have hsize : 1 + Sequence.run (continuesName o)
          ((unblanked (utf8.encode code ++ (utf8.encodeAll rest ++ stub))).drop 1) =
        utf8.width code +
          Sequence.run (continuesName o) (unblanked (utf8.encodeAll rest ++ stub)) := by
      rw [unblanked_encode hscalar, hplain, if_neg Bool.false_ne_true, ← length_encode, hencode]
      rw [hencode, List.forall_mem_cons] at hbytes
      rw [List.cons_append, List.drop_succ_cons, List.drop_zero, run_append hbytes.2,
        List.length_cons]
      omega
    change NameRun o (code :: rest) stub (code :: name) behind
      (1 + Sequence.run (continuesName o)
        ((unblanked (utf8.encode code ++ (utf8.encodeAll rest ++ stub))).drop 1))
    rw [hsize]
    exact hname.cons hgoes

end TextUnits.Lexer
