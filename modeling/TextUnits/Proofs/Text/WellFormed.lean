import TextUnits.Proofs.Encoding.Bytes
import TextUnits.Proofs.Transcode.RoundTrip
import TextUnits.Text.Lossy
import Mathlib.Data.List.TakeWhile

/-!
# Well-formed text

The lossy reading of bytes loses nothing where they are well-formed: the UTF-8 bytes of scalar
values, of U+FEFF at the start as well, are read as the UTF-16 units of the same scalar values. The
way back gives the bytes again unless the text starts like a mark.
-/

namespace TextUnits

/-- What a lead of three bytes announces: the least keeps out longer forms, and the greatest of one
keeps out surrogates. -/
theorem Lead.ofByte?_three : ∀ n < 0x10, Lead.ofByte? (0xE0 + n) =
    some ⟨2, if n = 0 then 0xA0 else 0x80, if n = 0xD then 0x9F else 0xBF⟩ := by
  decide

/-- What a lead of four bytes announces: the least keeps out longer forms, and the greatest of one
keeps out values beyond the last code point. -/
theorem Lead.ofByte?_four : ∀ n < 5, Lead.ofByte? (0xF0 + n) =
    some ⟨3, if n = 0 then 0x90 else 0x80, if n = 4 then 0x8F else 0xBF⟩ := by
  decide

/-- The bytes that a lead announces go on with its sequence, whatever stands behind them. -/
theorem Lead.tail_append {l : Lead} {second : UInt8} {more : List UInt8}
    (hs : l.least ≤ second.toNat ∧ second.toNat ≤ l.greatest) (hm : more.length = l.more - 1)
    (hc : ∀ b ∈ more, Scalar.isContinuation b.toNat = true) (rest : List UInt8) :
    l.tail (second :: more ++ rest) = second :: more := by
  have hall : ∀ b ∈ more, (decide (0x80 ≤ b.toNat) && decide (b.toNat ≤ 0xBF)) = true := by
    intro b hb
    have hclass := (Scalar.isContinuation_iff b.toNat_lt).mp (hc b hb)
    rw [Bool.and_eq_true, decide_eq_true_eq, decide_eq_true_eq]
    omega
  have hkept : more.takeWhile (fun b => decide (0x80 ≤ b.toNat) && decide (b.toNat ≤ 0xBF)) =
      more := List.takeWhile_eq_self_iff.mpr hall
  rw [List.cons_append, Lead.tail, if_pos hs, ← hm, List.take_left, hkept]

namespace Text

open Encoding

/-- A byte of ASCII is read as itself. -/
theorem ofBytes_ascii {b : UInt8} (hb : b.toNat < 0x80) (rest : List UInt8) :
    ofBytes (b :: rest) = UInt16.ofNat b.toNat :: ofBytes rest := by
  rw [ofBytes, if_pos hb]

/-- A sequence that its lead announces is read as its payload. -/
theorem ofBytes_lead {lead second : UInt8} {more : List UInt8} {l : Lead} {code : Nat}
    (hlead : 0x80 ≤ lead.toNat) (hl : Lead.ofByte? lead.toNat = some l)
    (hs : l.least ≤ second.toNat ∧ second.toNat ≤ l.greatest) (hm : more.length + 1 = l.more)
    (hc : ∀ b ∈ more, Scalar.isContinuation b.toNat = true)
    (hcode : (second :: more).foldl (fun n c => n * 0x40 + c.toNat % 0x40)
      (Lead.payload lead.toNat l.more) = code) (rest : List UInt8) :
    ofBytes (lead :: second :: more ++ rest) = encodeUtf16 code ++ ofBytes rest := by
  have htail := Lead.tail_append hs (by omega) hc rest
  rw [List.cons_append, List.cons_append, ofBytes, if_neg (by omega), hl]
  rw [List.cons_append] at htail
  dsimp only
  rw [htail, List.length_cons, if_pos hm, hcode, ← List.cons_append, ← List.length_cons,
    List.drop_left]

/-- The UTF-8 bytes of a scalar value are read as its UTF-16 units. -/
theorem ofBytes_encodeUtf8 {code : Nat} (h : Scalar.isScalar code = true) (rest : List UInt8) :
    ofBytes (encodeUtf8 code ++ rest) = encodeUtf16 code ++ ofBytes rest := by
  have hrange := Scalar.isScalar_iff.mp h
  have hvalue : ∀ n, (UInt8.ofNat (0x80 + n % 0x40)).toNat = 0x80 + n % 0x40 := by
    intro n
    rw [UInt8.toNat_ofNat', Nat.mod_eq_of_lt (by omega)]
  unfold encodeUtf8
  dsimp only
  split_ifs with hone htwo hthree
  · have hv : (UInt8.ofNat code).toNat = code := by
      rw [UInt8.toNat_ofNat', Nat.mod_eq_of_lt (by omega)]
    rw [List.singleton_append, ofBytes_ascii (by omega), hv, encodeUtf16, if_pos (by omega)]
    rfl
  · have hv : (UInt8.ofNat (0xC0 + code / 0x40)).toNat = 0xC0 + code / 0x40 := by
      rw [UInt8.toNat_ofNat', Nat.mod_eq_of_lt (by omega)]
    have hl : Lead.ofByte? (0xC0 + code / 0x40) = some ⟨1, 0x80, 0xBF⟩ := by
      rw [Lead.ofByte?, if_neg (by omega), if_pos (by omega)]
    refine ofBytes_lead (by omega) (hv ▸ hl) ?_ rfl ?_ ?_ rest
    · rw [hvalue]
      dsimp only
      omega
    · exact fun b hb => absurd hb List.not_mem_nil
    · rw [hv, Lead.payload, if_pos rfl, List.foldl_cons, List.foldl_nil, hvalue]
      omega
  · have hv : (UInt8.ofNat (0xE0 + code / 0x1000)).toNat = 0xE0 + code / 0x1000 := by
      rw [UInt8.toNat_ofNat', Nat.mod_eq_of_lt (by omega)]
    have hl := Lead.ofByte?_three (code / 0x1000) (by omega)
    refine ofBytes_lead (by omega) (hv ▸ hl) ?_ rfl ?_ ?_ rest
    · rw [hvalue]
      dsimp only
      constructor
      · split_ifs <;> omega
      · split_ifs <;> omega
    · simp only [List.mem_singleton, forall_eq]
      exact (continuation_value _).1
    · rw [hv]
      simp only [Lead.payload, if_neg (show ¬ 2 = 1 by decide), if_true,
        List.foldl_cons, List.foldl_nil, hvalue]
      omega
  · have hv : (UInt8.ofNat (0xF0 + code / 0x40000)).toNat = 0xF0 + code / 0x40000 := by
      rw [UInt8.toNat_ofNat', Nat.mod_eq_of_lt (by omega)]
    have hl := Lead.ofByte?_four (code / 0x40000) (by omega)
    refine ofBytes_lead (by omega) (hv ▸ hl) ?_ rfl ?_ ?_ rest
    · rw [hvalue]
      dsimp only
      constructor
      · split_ifs <;> omega
      · split_ifs <;> omega
    · simp only [List.mem_cons, List.not_mem_nil, or_false, forall_eq_or_imp, forall_eq]
      exact ⟨(continuation_value _).1, (continuation_value _).1⟩
    · rw [hv]
      simp only [Lead.payload, if_neg (show ¬ 3 = 1 by decide), if_neg (show ¬ 3 = 2 by decide),
        List.foldl_cons, List.foldl_nil, hvalue]
      omega

/-- The UTF-8 bytes of scalar values are read as their UTF-16 units. -/
theorem ofBytes_encodeAll {codes : List Nat} (h : ∀ code ∈ codes, Scalar.isScalar code = true) :
    ofBytes (utf8.encodeAll codes) = utf16.encodeAll codes := by
  induction codes with
  | nil =>
    have hnil : ofBytes [] = [] := by rw [ofBytes]
    exact hnil
  | cons code rest ih =>
    rw [List.forall_mem_cons] at h
    rw [encodeAll_cons, encodeAll_cons, ← ih h.2]
    exact ofBytes_encodeUtf8 h.1 _

/-- The UTF-16 units of scalar values are encoded as their UTF-8 bytes, unless the text starts like
a mark. -/
theorem toUtf8_encodeAll {codes : List Nat} (h : ∀ code ∈ codes, Scalar.isScalar code = true)
    (hmark : codes.head? ≠ some 0xFEFF) (hswapped : codes.head? ≠ some 0xFFFE) :
    toUtf8 (utf16.encodeAll codes) .default = .ok (utf8.encodeAll codes) := by
  let r : Request .utf16 .utf8 :=
    ⟨some (utf16.encodeAll codes), .native, .native, .lenient, none⟩
  have hunits : r.units = some ((utf16.encodeAll codes).map (utf16.reorder .host)) := by
    rw [map_reorder_host]
  have hwhole := Request.whole_of_encodeAll hunits rfl rfl h hmark (fun _ => hswapped) false
  have htarget : r.targetOrder.resolve = Order.host := rfl
  rw [htarget, map_reorder_host] at hwhole
  exact hwhole

/-- The units of characters are those of their code points. -/
theorem encodeAll_utf16_toNat (chars : List Char) :
    utf16.encodeAll (chars.map Char.toNat) = chars.flatMap unitsOfChar := by
  rw [encodeAll, List.flatMap_map]
  exact congrArg chars.flatMap (funext encodeUtf16_toNat)

/-- The bytes of characters are those of their code points. -/
theorem encodeAll_utf8_toNat (chars : List Char) :
    utf8.encodeAll (chars.map Char.toNat) = chars.flatMap String.utf8EncodeChar := by
  rw [encodeAll, List.flatMap_map]
  exact congrArg chars.flatMap (funext encodeUtf8_toNat)

end Text

end TextUnits
