import TextUnits.Proofs.Encoding.RoundTrip
import TextUnits.Encoding.Mark

/-!
# Encodings that start with no mark

The encoding of scalar values starts with a byte order mark only if the first of them is
U+FEFF, or if it is U+FFFE in UTF-16, whose unit with its bytes exchanged is the mark.
-/

namespace TextUnits.Encoding

theorem hasMark_eq_false_iff {e : Encoding} {units : List e.Unit} :
    e.hasMark units = false ↔ e.markOf? units = none := by
  rw [hasMark, Option.isSome_eq_false_iff, Option.isNone_iff_eq_none]

/-- UTF-8 text that starts with the bytes of the mark starts with U+FEFF. -/
theorem decodeUtf8_of_startsWithMark {bytes : List UInt8} (h : startsWithMark bytes = true) :
    decodeUtf8 bytes = .scalar Scalar.mark 3 := by
  match bytes with
  | [] => cases h
  | [_] => cases h
  | [_, _] => cases h
  | a :: b :: c :: rest =>
    simp only [startsWithMark, Bool.and_eq_true, beq_iff_eq] at h
    obtain ⟨⟨rfl, rfl⟩, rfl⟩ := h
    have hcont : ∀ b ∈ [(0xBB : UInt8), 0xBF], Scalar.isContinuation b.toNat = true := by
      simp only [List.mem_cons, List.not_mem_nil, or_false, forall_eq_or_imp, forall_eq]
      exact ⟨rfl, rfl⟩
    exact decodeUtf8_of_payload [0xBB, 0xBF] (by decide) (by decide) rfl rfl hcont rfl (by decide)

/-- A stored unit shows no order when it is no mark either way round. -/
theorem orderShown_eq_none {e : Encoding} {o : Order} {u : e.Unit}
    (hu : e.value u ≠ Scalar.mark) (hs : e.value (e.swap u) ≠ Scalar.mark) :
    e.orderShown (e.reorder o u) = none := by
  have hle : e.isMark .le (e.reorder o u) = false := by
    rw [isMark, beq_eq_false_iff_ne]
    cases o
    · exact hu
    · exact hs
  have hbe : e.isMark .be (e.reorder o u) = false := by
    rw [isMark, beq_eq_false_iff_ne]
    cases o
    · exact hs
    · change e.value (e.swap (e.swap u)) ≠ Scalar.mark
      rw [swap_swap]
      exact hu
  rw [orderShown, hle, hbe]
  rfl

/-- The first unit of a wide source decides whether it starts with a mark. -/
theorem markOf?_cons {e : Encoding} (he : e ≠ utf8) (u : e.Unit) (rest : List e.Unit) :
    e.markOf? (u :: rest) = (e.orderShown u).map fun o => ⟨1, some o⟩ := by
  cases e with
  | utf8 => exact absurd rfl he
  | utf16 => rfl
  | utf32 => rfl

/-- The first unit of a scalar value in UTF-16 is the value itself or a first half. -/
theorem head_encodeUtf16 {code : Nat} (h : Scalar.isScalar code = true) :
    ∃ u rest, encodeUtf16 code = u :: rest ∧
      (u.toNat = code ∨ 0xD800 ≤ u.toNat ∧ u.toNat ≤ 0xDBFF) := by
  have hrange := Scalar.isScalar_iff.mp h
  unfold encodeUtf16
  split_ifs with hone
  · have hv : (UInt16.ofNat code).toNat = code := by
      rw [UInt16.toNat_ofNat', Nat.mod_eq_of_lt (by omega)]
    exact ⟨_, [], rfl, Or.inl hv⟩
  · obtain ⟨hhv, -, hhigh, -⟩ := halves_value (by omega) hrange.1
    refine ⟨_, _, rfl, Or.inr ?_⟩
    rw [hhv]
    exact hhigh

/-- The stored encoding of scalar values starts with no mark unless the first of them is U+FEFF,
or U+FFFE in UTF-16. -/
theorem markOf?_encodeAll {e : Encoding} {codes : List Nat} (o : Order)
    (hs : ∀ code ∈ codes, Scalar.isScalar code = true) (hmark : codes.head? ≠ some 0xFEFF)
    (hswapped : e = utf16 → codes.head? ≠ some 0xFFFE) :
    e.markOf? ((e.encodeAll codes).map (e.reorder o)) = none := by
  cases codes with
  | nil => cases e <;> rfl
  | cons code more =>
    have hcode := hs code List.mem_cons_self
    have hrange := Scalar.isScalar_iff.mp hcode
    have hne : code ≠ 0xFEFF := fun he => hmark (congrArg some he)
    rw [encodeAll_cons]
    cases e with
    | utf8 =>
      have hdecode := decodeUtf8_encodeUtf8 hcode (utf8.encodeAll more)
      refine (congrArg utf8.markOf? (map_reorder_utf8 o _)).trans (if_neg fun hstart => ?_)
      have hread := decodeUtf8_of_startsWithMark hstart
      rw [encode, hdecode, Step.scalar.injEq] at hread
      exact hne hread.1
    | utf16 =>
      obtain ⟨u, rest, hu, hclass⟩ := head_encodeUtf16 hcode
      have hother : code ≠ 0xFFFE := fun he => hswapped rfl (congrArg some he)
      have hword := u.toNat_lt
      have hplain : utf16.value u ≠ Scalar.mark := by
        change u.toNat ≠ 0xFEFF
        omega
      have hswap : utf16.value (utf16.swap u) ≠ Scalar.mark := by
        change (swap16 u).toNat ≠ 0xFEFF
        rw [toNat_swap16]
        omega
      rw [encode, hu]
      exact (markOf?_cons (by decide) _ _).trans (by rw [orderShown_eq_none hplain hswap]; rfl)
    | utf32 =>
      have hv : (UInt32.ofNat code).toNat = code := by
        rw [UInt32.toNat_ofNat', Nat.mod_eq_of_lt (by omega)]
      have hplain : utf32.value (UInt32.ofNat code) ≠ Scalar.mark := by
        change (UInt32.ofNat code).toNat ≠ 0xFEFF
        rw [hv]
        exact hne
      have hswap : utf32.value (utf32.swap (UInt32.ofNat code)) ≠ Scalar.mark := by
        change (swap32 (UInt32.ofNat code)).toNat ≠ 0xFEFF
        have hbytes := toNat_swap32 (u := UInt32.ofNat code) (a := code % 0x100)
          (b := code / 0x100 % 0x100) (c := code / 0x10000) (d := 0) (by omega) (by omega)
          (by omega) (by omega) (by rw [hv]; omega)
        omega
      exact (markOf?_cons (by decide) _ _).trans (by rw [orderShown_eq_none hplain hswap]; rfl)

end TextUnits.Encoding
