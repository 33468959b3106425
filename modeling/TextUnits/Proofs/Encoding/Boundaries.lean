import TextUnits.Proofs.Encoding.RoundTrip
import Mathlib.Tactic.Common

/-!
# Boundaries of code points in UTF-8

A continuation byte stands nowhere at the front of a code point, and every other byte only there. So
a place in well-formed text lies between two code points as soon as no continuation byte stands
behind it, and a scan that looks at bytes alone cannot stop inside a code point unless it stops in
front of such a byte.
-/

namespace TextUnits.Encoding

variable {codes : List Nat} {front rest : List UInt8}

/-- The first byte of a code point continues nothing, and all others do. A first byte of ASCII is
the whole code point. -/
theorem exists_lead {code : Nat} (h : Scalar.isScalar code = true) :
    ∃ lead tail, utf8.encode code = lead :: tail ∧ Scalar.isContinuation lead.toNat = false ∧
      (∀ b ∈ tail, Scalar.isContinuation b.toNat = true) ∧
      (lead.toNat < 0x80 → tail = [] ∧ lead.toNat = code) := by
  have hrange := Scalar.isScalar_iff.mp h
  have hlead : ∀ n, n < 0x100 → (n < 0x80 ∨ 0xC0 ≤ n) →
      (UInt8.ofNat n).toNat = n ∧ Scalar.isContinuation (UInt8.ofNat n).toNat = false := by
    intro n hn hclass
    have hv : (UInt8.ofNat n).toNat = n := by rw [UInt8.toNat_ofNat', Nat.mod_eq_of_lt (by omega)]
    refine ⟨hv, ?_⟩
    rw [hv, Bool.eq_false_iff, Ne, Scalar.isContinuation_iff hn]
    omega
  have hcont := fun n => (continuation_value n).1
  unfold encode encodeUtf8
  dsimp only
  split_ifs with hone htwo hthree
  · obtain ⟨hv, hc⟩ := hlead code (by omega) (.inl (by omega))
    exact ⟨_, [], rfl, hc, fun b hb => absurd hb List.not_mem_nil, fun _ => ⟨rfl, hv⟩⟩
  · obtain ⟨hv, hc⟩ := hlead (0xC0 + code / 0x40) (by omega) (.inr (by omega))
    refine ⟨_, _, rfl, hc, ?_, fun hascii => absurd hascii (by omega)⟩
    simp only [List.mem_singleton, forall_eq]
    exact hcont _
  · obtain ⟨hv, hc⟩ := hlead (0xE0 + code / 0x1000) (by omega) (.inr (by omega))
    refine ⟨_, _, rfl, hc, ?_, fun hascii => absurd hascii (by omega)⟩
    simp only [List.mem_cons, List.not_mem_nil, or_false, forall_eq_or_imp, forall_eq]
    exact ⟨hcont _, hcont _⟩
  · obtain ⟨hv, hc⟩ := hlead (0xF0 + code / 0x40000) (by omega) (.inr (by omega))
    refine ⟨_, _, rfl, hc, ?_, fun hascii => absurd hascii (by omega)⟩
    simp only [List.mem_cons, List.not_mem_nil, or_false, forall_eq_or_imp, forall_eq]
    exact ⟨hcont _, hcont _, hcont _⟩

/-- A code point of ASCII is one byte. -/
theorem encode_ascii {b : UInt8} (hb : b.toNat < 0x80) : utf8.encode b.toNat = [b] := by
  have hone : utf8.encode b.toNat = [UInt8.ofNat b.toNat] := if_pos (by omega)
  rwa [UInt8.ofNat_toNat] at hone

theorem encodeAll_append (e : Encoding) (before later : List Nat) :
    e.encodeAll (before ++ later) = e.encodeAll before ++ e.encodeAll later :=
  List.flatMap_append

/-- Only an empty text has no bytes. -/
theorem encodeAll_eq_nil_iff {e : Encoding} {codes : List Nat} :
    e.encodeAll codes = [] ↔ codes = [] := by
  cases codes with
  | nil => exact ⟨fun _ => rfl, fun _ => rfl⟩
  | cons code more =>
    have hpos := e.width_pos code
    rw [← List.length_eq_zero_iff, encodeAll_cons, List.length_append, length_encode]
    exact ⟨fun h => absurd h (by omega), fun h => absurd h (List.cons_ne_nil _ _)⟩

/-- A place in well-formed text with no continuation byte behind it lies between code points. -/
theorem exists_split (hc : ∀ code ∈ codes, Scalar.isScalar code = true)
    (h : utf8.encodeAll codes = front ++ rest)
    (hr : ∀ b ∈ rest.head?, Scalar.isContinuation b.toNat = false) :
    ∃ before later, codes = before ++ later ∧ utf8.encodeAll before = front ∧
      utf8.encodeAll later = rest := by
  induction codes generalizing front with
  | nil =>
    obtain ⟨hfront, hrest⟩ := List.append_eq_nil_iff.mp h.symm
    exact ⟨[], [], rfl, hfront.symm, hrest.symm⟩
  | cons code more ih =>
    obtain ⟨lead, tail, hencode, -, htail, -⟩ := exists_lead (hc code List.mem_cons_self)
    cases front with
    | nil => exact ⟨[], code :: more, rfl, rfl, h⟩
    | cons b front =>
      rw [encodeAll_cons, hencode, List.cons_append, List.cons_append, List.cons.injEq] at h
      obtain ⟨rfl, h⟩ := h
      have hmore : ∀ c ∈ more, Scalar.isScalar c = true :=
        fun c hm => hc c (List.mem_cons_of_mem code hm)
      -- The place lies in the code points behind the first one, or within its continuation bytes.
      rcases List.append_eq_append_iff.mp h with
        ⟨inside, hinside, hbehind⟩ | ⟨inside, hinside, hbehind⟩
      · obtain ⟨before, later, rfl, hbefore, hlater⟩ := ih hmore hbehind
        refine ⟨code :: before, later, rfl, ?_, hlater⟩
        rw [encodeAll_cons, hencode, hbefore, hinside]
        rfl
      · cases inside with
        | nil =>
          refine ⟨[code], more, rfl, ?_, hbehind.symm⟩
          rw [encodeAll_cons, hencode, hinside, List.append_nil]
          exact List.append_nil _
        | cons c inside =>
          rw [hbehind] at hr
          have hcont := htail c (by rw [hinside]; exact List.mem_append_right _ List.mem_cons_self)
          rw [hr c rfl] at hcont
          cases hcont

/-- Well-formed text that begins with other well-formed text begins with its code points. -/
theorem exists_of_beginning {start : List Nat}
    (hc : ∀ code ∈ codes, Scalar.isScalar code = true)
    (hs : ∀ code ∈ start, Scalar.isScalar code = true)
    (h : utf8.encodeAll codes = utf8.encodeAll start ++ rest) :
    ∃ later, codes = start ++ later ∧ utf8.encodeAll later = rest := by
  have hsteps := congrArg utf8.steps h
  rw [steps_encodeAll utf8 hc, steps_encodeAll_append utf8 hs] at hsteps
  obtain ⟨before, later, rfl, hbefore, -⟩ := List.map_eq_append_iff.mp hsteps
  obtain rfl := (List.map_inj_right fun a b hab => (Step.scalar.inj hab).1).mp hbefore
  rw [encodeAll_append] at h
  exact ⟨later, rfl, List.append_cancel_left h⟩

/-- ASCII bytes at the front of well-formed text are the code points there. -/
theorem exists_of_ascii (hc : ∀ code ∈ codes, Scalar.isScalar code = true)
    (h : utf8.encodeAll codes = front ++ rest) (ha : ∀ b ∈ front, b.toNat < 0x80) :
    ∃ later, codes = front.map UInt8.toNat ++ later ∧ utf8.encodeAll later = rest := by
  induction front generalizing codes with
  | nil => exact ⟨codes, rfl, h⟩
  | cons b front ih =>
    cases codes with
    | nil => cases h
    | cons code more =>
      obtain ⟨lead, tail, hencode, -, -, hascii⟩ := exists_lead (hc code List.mem_cons_self)
      rw [encodeAll_cons, hencode, List.cons_append, List.cons_append, List.cons.injEq] at h
      obtain ⟨rfl, h⟩ := h
      obtain ⟨rfl, rfl⟩ := hascii (ha _ List.mem_cons_self)
      obtain ⟨later, rfl, hlater⟩ := ih (fun c hm => hc c (List.mem_cons_of_mem _ hm)) h
        fun b hb => ha b (List.mem_cons_of_mem _ hb)
      exact ⟨later, rfl, hlater⟩

/-- An ASCII byte anywhere in well-formed text is a code point of it. -/
theorem exists_of_ascii_byte {b : UInt8} (hc : ∀ code ∈ codes, Scalar.isScalar code = true)
    (h : utf8.encodeAll codes = front ++ b :: rest) (hb : b.toNat < 0x80) :
    ∃ before later, codes = before ++ b.toNat :: later ∧ utf8.encodeAll before = front ∧
      utf8.encodeAll later = rest := by
  have hlead : Scalar.isContinuation b.toNat = false := by
    rw [Bool.eq_false_iff, Ne, Scalar.isContinuation_iff b.toNat_lt]
    omega
  obtain ⟨before, behind, rfl, hbefore, hbehind⟩ :=
    exists_split hc h (by rintro _ ⟨⟩; exact hlead)
  have hsingle : utf8.encodeAll behind = [b] ++ rest := hbehind
  obtain ⟨later, rfl, hlater⟩ := exists_of_ascii
    (fun code hm => hc code (List.mem_append_right _ hm)) hsingle
    (by simpa only [List.mem_singleton, forall_eq] using hb)
  exact ⟨before, later, rfl, hbefore, hlater⟩

end TextUnits.Encoding
