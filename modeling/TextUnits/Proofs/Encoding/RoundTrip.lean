import TextUnits.Proofs.Encoding.Decoding
import TextUnits.Encoding.Encode
import Mathlib.Tactic.Common

/-!
# Decoding what was encoded

The units of a scalar value decode to that value, whatever stands behind them, and take as many
units as its width says. So the walk over the encoding of a sequence of scalar values gives the
sequence back, one step for each of them.
-/

namespace TextUnits.Encoding

/-- A byte from C2 to F4 is no ASCII character and may start a sequence. -/
theorem lead_of_range {lead : Nat} (hl : 0xC2 ≤ lead) (hu : lead < 0xF5) :
    ¬ lead < 0x80 ∧ ¬ Scalar.isForbiddenOctet lead = true := by
  simp only [Scalar.isForbiddenOctet, Bool.or_eq_true, beq_iff_eq, decide_eq_true_eq]
  omega

/-- A sequence with a lead byte, as many continuation bytes as it announces and the payload of
a scalar value decodes to that value. -/
theorem decodeUtf8_of_payload {lead : UInt8} (tail : List UInt8) {rest : List UInt8}
    {code size : Nat}
    (hl : 0xC2 ≤ lead.toNat) (hu : lead.toNat < 0xF5) (hsize : leadSize? lead.toNat = some size)
    (htail : tail.length = size - 1)
    (hcont : ∀ b ∈ tail, Scalar.isContinuation b.toNat = true)
    (hcode : assemble lead.toNat tail = code) (hs : Scalar.isScalar code = true) :
    decodeUtf8 (lead :: (tail ++ rest)) = .scalar code size := by
  obtain ⟨hascii, hoctet⟩ := lead_of_range hl hu
  have htake : (tail ++ rest).take (size - 1) = tail := by
    rw [← htail, List.take_left]
  unfold decodeUtf8
  dsimp only
  rw [if_neg hascii, if_neg hoctet, hsize]
  dsimp only
  rw [htake, if_neg (by omega), if_pos (List.all_eq_true.mpr hcont), hcode, if_pos hs]

/-- A continuation byte and its payload. -/
theorem continuation_value (n : Nat) :
    Scalar.isContinuation (UInt8.ofNat (0x80 + n % 0x40)).toNat = true ∧
      (UInt8.ofNat (0x80 + n % 0x40)).toNat % 0x40 = n % 0x40 := by
  have hv : (UInt8.ofNat (0x80 + n % 0x40)).toNat = 0x80 + n % 0x40 := by
    rw [UInt8.toNat_ofNat', Nat.mod_eq_of_lt (by omega)]
  rw [hv, Scalar.isContinuation_iff (by omega)]
  omega

/-- The UTF-8 bytes of a scalar value decode to it. -/
theorem decodeUtf8_encodeUtf8 {code : Nat} (h : Scalar.isScalar code = true)
    (rest : List UInt8) :
    decodeUtf8 (encodeUtf8 code ++ rest) = .scalar code (utf8.width code) := by
  have hrange := Scalar.isScalar_iff.mp h
  unfold encodeUtf8 width
  dsimp only
  split_ifs with hone htwo hthree
  · have hv : (UInt8.ofNat code).toNat = code := by
      rw [UInt8.toNat_ofNat', Nat.mod_eq_of_lt (by omega)]
    rw [List.singleton_append, decodeUtf8, hv]
    exact if_pos (by omega)
  · have hv : (UInt8.ofNat (0xC0 + code / 0x40)).toNat = 0xC0 + code / 0x40 := by
      rw [UInt8.toNat_ofNat', Nat.mod_eq_of_lt (by omega)]
    refine decodeUtf8_of_payload [_] (by omega) (by omega) ?_ rfl ?_ ?_ h
    · rw [hv, leadSize?, if_neg (by omega), if_pos (by omega)]
    · simp only [List.mem_singleton, forall_eq]
      exact (continuation_value code).1
    · simp only [assemble, List.length_singleton, List.foldl_cons, List.foldl_nil, hv,
        (continuation_value code).2]
      omega
  · have hv : (UInt8.ofNat (0xE0 + code / 0x1000)).toNat = 0xE0 + code / 0x1000 := by
      rw [UInt8.toNat_ofNat', Nat.mod_eq_of_lt (by omega)]
    refine decodeUtf8_of_payload [_, _] (by omega) (by omega) ?_ rfl ?_ ?_ h
    · rw [hv, leadSize?, if_neg (by omega), if_neg (by omega), if_pos (by omega)]
    · simp only [List.mem_cons, List.not_mem_nil, or_false, forall_eq_or_imp, forall_eq]
      exact ⟨(continuation_value _).1, (continuation_value _).1⟩
    · simp only [assemble, List.length_cons, List.length_nil, List.foldl_cons, List.foldl_nil, hv,
        (continuation_value _).2]
      omega
  · have hv : (UInt8.ofNat (0xF0 + code / 0x40000)).toNat = 0xF0 + code / 0x40000 := by
      rw [UInt8.toNat_ofNat', Nat.mod_eq_of_lt (by omega)]
    refine decodeUtf8_of_payload [_, _, _] (by omega) (by omega) ?_ rfl ?_ ?_ h
    · rw [hv, leadSize?, if_neg (by omega), if_neg (by omega), if_neg (by omega),
        if_pos (by omega)]
    · simp only [List.mem_cons, List.not_mem_nil, or_false, forall_eq_or_imp, forall_eq]
      exact ⟨(continuation_value _).1, (continuation_value _).1, (continuation_value _).1⟩
    · simp only [assemble, List.length_cons, List.length_nil, List.foldl_cons, List.foldl_nil, hv,
        (continuation_value _).2]
      omega

/-- Bytes that are read as one code point are no code point without the last of them: the sequence
is cut off. -/
theorem decodeUtf8_take {lead : UInt8} {tail : List UInt8} {code n : Nat}
    (h : decodeUtf8 (lead :: tail) = .scalar code (tail.length + 1)) (hn : n < tail.length) :
    decodeUtf8 (lead :: tail.take n) = .truncated := by
  unfold decodeUtf8 at h ⊢
  dsimp only at h ⊢
  split_ifs at h ⊢ with hascii
  · obtain ⟨-, hsize⟩ := Step.scalar.inj h
    omega
  · split at h
    · cases h
    · rename_i size hsize
      split_ifs at h with hshort hcont hscalar
      obtain ⟨-, rfl⟩ := Step.scalar.inj h
      refine if_pos ?_
      rw [List.length_take, List.length_take]
      omega

/-- The two halves of a scalar value from U+10000 on are 16-bit words of their classes. -/
theorem halves_value {code : Nat} (hl : 0x10000 ≤ code) (hu : code ≤ 0x10FFFF) :
    (UInt16.ofNat (Scalar.highOf code)).toNat = Scalar.highOf code ∧
      (UInt16.ofNat (Scalar.lowOf code)).toNat = Scalar.lowOf code ∧
      (0xD800 ≤ Scalar.highOf code ∧ Scalar.highOf code ≤ 0xDBFF) ∧
      (0xDC00 ≤ Scalar.lowOf code ∧ Scalar.lowOf code ≤ 0xDFFF) := by
  have hhigh : 0xD800 ≤ Scalar.highOf code ∧ Scalar.highOf code ≤ 0xDBFF := by
    rw [Scalar.highOf]
    omega
  have hlow : 0xDC00 ≤ Scalar.lowOf code ∧ Scalar.lowOf code ≤ 0xDFFF := by
    rw [Scalar.lowOf]
    omega
  refine ⟨?_, ?_, hhigh, hlow⟩
  · rw [UInt16.toNat_ofNat', Nat.mod_eq_of_lt (by omega)]
  · rw [UInt16.toNat_ofNat', Nat.mod_eq_of_lt (by omega)]

/-- The UTF-16 units of a scalar value decode to it. -/
theorem decodeUtf16_encodeUtf16 {code : Nat} (h : Scalar.isScalar code = true)
    (rest : List UInt16) :
    decodeUtf16 (encodeUtf16 code ++ rest) = .scalar code (utf16.width code) := by
  have hrange := Scalar.isScalar_iff.mp h
  unfold encodeUtf16 width
  dsimp only
  split_ifs with hone
  · have hv : (UInt16.ofNat code).toNat = code := by
      rw [UInt16.toNat_ofNat', Nat.mod_eq_of_lt (by omega)]
    have hs : ¬ Scalar.isSurrogate code = true := by
      rw [Scalar.isSurrogate_iff]
      exact hrange.2
    unfold decodeUtf16
    dsimp only [List.cons_append, List.nil_append]
    rw [hv, if_pos (by rw [Bool.not_eq_true', ← Bool.not_eq_true]; exact hs)]
  · obtain ⟨hhv, hlv, hhigh, hlow⟩ := halves_value (by omega) hrange.1
    have hs : Scalar.isSurrogate (Scalar.highOf code) = true := by
      rw [Scalar.isSurrogate_iff]
      omega
    have hfirst : ¬ Scalar.isLowSurrogate (Scalar.highOf code) = true := by
      rw [Scalar.isLowSurrogate_iff]
      omega
    have hsecond : Scalar.isLowSurrogate (Scalar.lowOf code) = true := by
      rw [Scalar.isLowSurrogate_iff]
      exact hlow
    have hjoin := Scalar.joinPair_highOf_lowOf (by omega : 0x10000 ≤ code) hrange.1
    unfold decodeUtf16
    dsimp only [List.cons_append, List.nil_append]
    rw [hhv, hlv, hs, if_neg (by decide), if_neg hfirst, if_pos hsecond, hjoin]

/-- The UTF-32 unit of a scalar value decodes to it. -/
theorem decodeUtf32_encode {code : Nat} (h : Scalar.isScalar code = true)
    (rest : List UInt32) :
    decodeUtf32 (UInt32.ofNat code :: rest) = .scalar code 1 := by
  have hrange := Scalar.isScalar_iff.mp h
  have hv : (UInt32.ofNat code).toNat = code := by
    rw [UInt32.toNat_ofNat', Nat.mod_eq_of_lt (by omega)]
  rw [decodeUtf32, hv, if_pos h]

/-- The units of a scalar value decode to it, whatever stands behind them. -/
theorem decode_encode (e : Encoding) {code : Nat} (h : Scalar.isScalar code = true)
    (rest : List e.Unit) : e.decode (e.encode code ++ rest) = .scalar code (e.width code) := by
  cases e with
  | utf8 => exact decodeUtf8_encodeUtf8 h rest
  | utf16 => exact decodeUtf16_encodeUtf16 h rest
  | utf32 => exact decodeUtf32_encode h rest

/-- Reading units in the order they are stored in gives them back. -/
theorem map_reorder_reorder (e : Encoding) (o : Order) (units : List e.Unit) :
    (units.map (e.reorder o)).map (e.reorder o) = units := by
  rw [List.map_map]
  exact (List.map_congr_left fun u _ => e.reorder_reorder o u).trans (List.map_id _)

/-- Bytes have no order. -/
theorem map_reorder_utf8 (o : Order) (units : List UInt8) : units.map (utf8.reorder o) = units := by
  cases o <;> exact List.map_id' units

theorem map_reorder_host (e : Encoding) (units : List e.Unit) :
    units.map (e.reorder .host) = units := by
  cases e <;> exact List.map_id'' (fun _ => rfl) units

/-- Encoding of a code point in front of others. -/
theorem encodeAll_cons (e : Encoding) (code : Nat) (rest : List Nat) :
    e.encodeAll (code :: rest) = e.encode code ++ e.encodeAll rest :=
  List.flatMap_cons

/-- The walk over the encoding of scalar values has one step for each of them, then the steps
of what stands behind. -/
theorem steps_encodeAll_append (e : Encoding) {codes : List Nat}
    (h : ∀ code ∈ codes, Scalar.isScalar code = true) (rest : List e.Unit) :
    e.steps (e.encodeAll codes ++ rest) =
      (codes.map fun code => Step.scalar code (e.width code)) ++ e.steps rest := by
  induction codes with
  | nil => rfl
  | cons code more ih =>
    have hdecode := e.decode_encode (h code List.mem_cons_self) (e.encodeAll more ++ rest)
    have hne : e.encode code ++ (e.encodeAll more ++ rest) ≠ [] := by
      intro hnil
      have hlen := congrArg List.length hnil
      rw [List.length_append, length_encode, List.length_nil] at hlen
      have hpos := e.width_pos code
      omega
    have hstep : e.decode (e.encode code ++ (e.encodeAll more ++ rest)) ≠ .truncated := by
      rw [hdecode]
      exact Step.noConfusion
    rw [encodeAll_cons, List.append_assoc, steps_of_decode hne hstep, hdecode, Step.size,
      ← length_encode, List.drop_left, ih fun c hc => h c (List.mem_cons_of_mem code hc),
      length_encode]
    rfl

/-- The walk over the encoding of scalar values has one step for each of them. -/
theorem steps_encodeAll (e : Encoding) {codes : List Nat}
    (h : ∀ code ∈ codes, Scalar.isScalar code = true) :
    e.steps (e.encodeAll codes) = codes.map fun code => Step.scalar code (e.width code) := by
  have hwalk := e.steps_encodeAll_append h []
  rwa [List.append_nil, steps, List.append_nil] at hwalk

end TextUnits.Encoding
