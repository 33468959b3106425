import TextUnits.Proofs.Text.RoundTrip
import TextUnits.Text.Lossy

/-!
# Which surrogates stand alone

A decoder pairs surrogates from the left and looks at no more than two units at a time. Which ones
it finds alone can still be told place by place, from the two neighbours of a unit: a first half is
alone without a second half behind it, and a second half without a first half in front of it, since
no unit can be claimed by both sides. So what is decoded and encoded again is the text with each
unit kept in its place and replaced there if it stands alone.
-/

namespace TextUnits.Text

open Step

/-- Whether a unit is the first half of a surrogate pair. -/
def isHigh (u : UInt16) : Bool := Scalar.isHighSurrogate u.toNat

/-- Whether a unit is the second half of a surrogate pair. -/
def isLow (u : UInt16) : Bool := Scalar.isLowSurrogate u.toNat

/-- Whether a surrogate stands alone at a place of a text: a first half with no second half behind
it, or a second half with no first half in front of it. -/
def isUnpaired (t : Text) (i : Nat) : Bool :=
  match t[i]? with
  | none => false
  | some u =>
    (isHigh u && !t[i + 1]?.any isLow) || (isLow u && !(i != 0 && t[i - 1]?.any isHigh))

variable {t rest : Text} {u v : UInt16}

theorem isHigh_iff : isHigh u = true ↔ 0xD800 ≤ u.toNat ∧ u.toNat ≤ 0xDBFF := by
  simp only [isHigh, Scalar.isHighSurrogate, Bool.and_eq_true, decide_eq_true_eq]

theorem isLow_iff : isLow u = true ↔ 0xDC00 ≤ u.toNat ∧ u.toNat ≤ 0xDFFF :=
  Scalar.isLowSurrogate_iff

theorem isHigh_eq_false_of_isLow (h : isLow u = true) : isHigh u = false := by
  rw [isLow_iff] at h
  rw [Bool.eq_false_iff, Ne, isHigh_iff]
  omega

/-- A unit that is no surrogate is neither half. -/
theorem halves_of_plain (h : u.toNat < 0xD800 ∨ 0xDFFF < u.toNat) :
    isHigh u = false ∧ isLow u = false := by
  rw [Bool.eq_false_iff, Bool.eq_false_iff, Ne, Ne, isHigh_iff, isLow_iff]
  omega

/-- A surrogate is one of the two halves. -/
theorem halves_of_surrogate (h : ¬ (u.toNat < 0xD800 ∨ 0xDFFF < u.toNat)) :
    isHigh u = true ∨ isLow u = true := by
  rw [isHigh_iff, isLow_iff]
  omega

/-- Behind a first unit the same surrogates stand alone as without it, unless it is a first half
that pairs with the next unit. -/
theorem isUnpaired_succ (h : isHigh u = true → ∀ v ∈ rest.head?, isLow v = false) (i : Nat) :
    isUnpaired (u :: rest) (i + 1) = isUnpaired rest i := by
  cases i with
  | succ i => rfl
  | zero =>
    cases rest with
    | nil => rfl
    | cons v more =>
      -- the first unit is the one in front of `v`, and it matters only if `v` is a second half
      have hfront : (isLow v && !isHigh u) = isLow v := by
        cases hu : isHigh u with
        | false => exact Bool.and_true _
        | true =>
          rw [h hu v rfl]
          rfl
      change ((isHigh v && !more[0]?.any isLow) || (isLow v && !isHigh u)) =
        ((isHigh v && !more[0]?.any isLow) || (isLow v && true))
      rw [hfront, Bool.and_true]

theorem mended_plain (h : u.toNat < 0xD800 ∨ 0xDFFF < u.toNat) :
    mended (u :: rest) = u :: mended rest := by
  rw [mended.eq_def]
  exact if_pos h

theorem mended_pair (hu : isHigh u = true) (hv : isLow v = true) :
    mended (u :: v :: rest) = u :: v :: mended rest := by
  rw [isHigh_iff] at hu
  rw [isLow_iff] at hv
  rw [mended.eq_def]
  dsimp only
  rw [if_neg (by omega), if_pos (by omega)]

theorem mended_alone (hu : isHigh u = true ∨ isLow u = true)
    (h : isHigh u = true → ∀ v ∈ rest.head?, isLow v = false) :
    mended (u :: rest) = replacement ++ mended rest := by
  have hsurrogate : 0xD800 ≤ u.toNat ∧ u.toNat ≤ 0xDFFF := by
    rw [isHigh_iff, isLow_iff] at hu
    omega
  rw [mended.eq_def]
  dsimp only
  rw [if_neg (by omega)]
  cases rest with
  | nil => rfl
  | cons v more =>
    refine if_neg fun hpair => ?_
    have hlow := h (isHigh_iff.mpr (by omega)) v rfl
    rw [isLow_iff.mpr hpair.2] at hlow
    cases hlow

/-- Mending replaces the surrogates that stand alone and keeps every other unit in its place. -/
theorem getElem?_mended (t : Text) (i : Nat) :
    (mended t)[i]? = if isUnpaired t i then some 0xFFFD else t[i]? := by
  -- the cases are those of the reader: the end, a unit alone, a half alone, a pair, no pair
  fun_induction mended t generalizing i with
  | case1 => rfl
  | case2 u rest hu ih =>
    obtain ⟨hhigh, hlow⟩ := halves_of_plain hu
    cases i with
    | zero =>
      have hplain : isUnpaired (u :: rest) 0 = false := by simp [isUnpaired, hhigh, hlow]
      rw [hplain]
      rfl
    | succ i =>
      rw [List.getElem?_cons_succ, ih, isUnpaired_succ (fun h => by rw [hhigh] at h; cases h)]
      rfl
  | case3 u hu =>
    cases i with
    | succ i => rfl
    | zero =>
      have halone : isUnpaired [u] 0 = true := by
        rcases halves_of_surrogate hu with hhigh | hlow
        · simp [isUnpaired, hhigh]
        · simp [isUnpaired, hlow]
      rw [halone]
      rfl
  | case4 u hu v tail hv ih =>
    have hhigh : isHigh u = true := isHigh_iff.mpr (by omega)
    have hlow : isLow v = true := isLow_iff.mpr hv.2
    have hu' : isLow u = false := by
      rw [Bool.eq_false_iff, Ne, isLow_iff]
      omega
    have hv' := isHigh_eq_false_of_isLow hlow
    rcases i with _ | _ | i
    · have hpaired : isUnpaired (u :: v :: tail) 0 = false := by simp [isUnpaired, hu', hlow]
      rw [hpaired]
      rfl
    · have hpaired : isUnpaired (u :: v :: tail) 1 = false := by simp [isUnpaired, hv', hhigh]
      rw [hpaired]
      rfl
    · have hbehind : isUnpaired (u :: v :: tail) (i + 2) = isUnpaired tail i :=
        isUnpaired_succ (u := v) (fun h => by rw [hv'] at h; cases h) i
      rw [hbehind]
      exact ih i
  | case5 u hu v tail hv ih =>
    have hnext : isHigh u = true → ∀ w ∈ (v :: tail).head?, isLow w = false := by
      rintro hhigh _ ⟨⟩
      rw [isHigh_iff] at hhigh
      rw [Bool.eq_false_iff, Ne, isLow_iff]
      omega
    cases i with
    | zero =>
      have halone : isUnpaired (u :: v :: tail) 0 = true := by
        rcases halves_of_surrogate hu with hhigh | hlow
        · simp [isUnpaired, hhigh, hnext hhigh v rfl]
        · simp [isUnpaired, hlow]
      rw [halone]
      rfl
    | succ i =>
      rw [isUnpaired_succ hnext]
      exact ih i

theorem length_mended (t : Text) : (mended t).length = t.length := by
  fun_induction mended t with
  | case1 => rfl
  | case2 u rest hu ih => exact congrArg (· + 1) ih
  | case3 u hu => rfl
  | case4 u hu v tail hv ih => exact congrArg (· + 2) ih
  | case5 u hu v tail hv ih => exact congrArg (· + 1) ih

/-- A text of characters has nothing to mend. -/
theorem mended_of_chars (h : (chars? t).isSome = true) : mended t = t := by
  -- the reader of characters has the cases of `mended`, and fails at a half alone
  fun_induction chars? t with
  | case1 => rfl
  | case2 u rest hu ih =>
    rw [Option.isSome_map] at h
    rw [mended_plain hu, ih h]
  | case3 u hu => cases h
  | case4 u hu v tail hv ih =>
    rw [Option.isSome_map] at h
    rw [mended_pair (isHigh_iff.mpr (by omega)) (isLow_iff.mpr hv.2), ih h]
  | case5 u hu v tail hv => cases h

/-- A text of characters does not end within a pair. -/
theorem not_endsOpen_of_chars (h : (chars? t).isSome = true) : ¬ EndsOpen t := by
  rw [← (toUtf8_error_iff t).1]
  obtain ⟨chars, hchars⟩ := Option.isSome_iff_exists.mp h
  rintro ⟨fault, herror⟩
  rw [chars?_eq_some_iff.mp hchars, toUtf8_chars] at herror
  cases herror

/-- The value of a pair is encoded as the two halves of it. -/
theorem encodeUtf16_joinPair (hu : isHigh u = true) (hv : isLow v = true) :
    Encoding.encodeUtf16 (Scalar.joinPair u.toNat v.toNat) = [u, v] := by
  rw [isHigh_iff] at hu
  rw [isLow_iff] at hv
  generalize hn : Scalar.joinPair u.toNat v.toNat = n
  rw [Scalar.joinPair] at hn
  have hhigh : Scalar.highOf n = u.toNat := by
    rw [Scalar.highOf]
    omega
  have hlow : Scalar.lowOf n = v.toNat := by
    rw [Scalar.lowOf]
    omega
  rw [Encoding.encodeUtf16, if_neg (by omega), hhigh, hlow, UInt16.ofNat_toNat, UInt16.ofNat_toNat]

/-- One decoding step and the mending of a text agree on what stands at the front: it is encoded
again as it is mended, and mending goes on where decoding does. At a cut nothing is left but a half
alone. -/
theorem mended_step (u : UInt16) (rest : Text) :
    (Encoding.decodeUtf16 (u :: rest) = .truncated ∧ rest = [] ∧
      mended (u :: rest) = replacement) ∨
    ∃ step code, Encoding.decodeUtf16 (u :: rest) = step ∧ step.code? = some code ∧
      mended (u :: rest) = Encoding.encodeUtf16 code ++ mended ((u :: rest).drop step.size) := by
  have hreplaced : Encoding.encodeUtf16 Scalar.replacement = replacement := by decide
  unfold Encoding.decodeUtf16
  dsimp only
  split_ifs with hplain hlow
  · rw [Bool.not_eq_true', ← Bool.not_eq_true, Scalar.isSurrogate_iff] at hplain
    have hcode : Encoding.encodeUtf16 u.toNat = [u] := by
      have hword := u.toNat_lt
      rw [Encoding.encodeUtf16, if_pos (by omega), UInt16.ofNat_toNat]
    refine .inr ⟨_, u.toNat, rfl, rfl, ?_⟩
    rw [mended_plain (by omega), hcode]
    rfl
  · refine .inr ⟨_, Scalar.replacement, rfl, rfl, ?_⟩
    rw [hreplaced]
    exact mended_alone (.inr hlow) fun hhigh => by
      rw [isHigh_eq_false_of_isLow hlow] at hhigh
      cases hhigh
  · rw [Bool.not_eq_true, Bool.not_eq_false', Scalar.isSurrogate_iff] at hplain
    have hhigh : isHigh u = true := by
      rw [Scalar.isLowSurrogate_iff] at hlow
      exact isHigh_iff.mpr (by omega)
    cases rest with
    | nil => exact .inl ⟨rfl, rfl, mended_alone (.inl hhigh) fun _ _ hnone => by cases hnone⟩
    | cons v more =>
      dsimp only
      split_ifs with hpair
      · refine .inr ⟨_, _, rfl, rfl, ?_⟩
        rw [mended_pair hhigh hpair, encodeUtf16_joinPair hhigh hpair]
        rfl
      · refine .inr ⟨_, Scalar.replacement, rfl, rfl, ?_⟩
        rw [hreplaced]
        refine mended_alone (.inl hhigh) ?_
        rintro - _ ⟨⟩
        rwa [Bool.not_eq_true] at hpair

/-- A lenient reading of a text, encoded again, is the mended text, but for a first half that the
end cuts off: that is not read at all. -/
theorem mended_eq_encodeAll (t : Text) :
    let read := accepted false (Encoding.utf16.steps t)
    let left := if .truncated ∈ Encoding.utf16.steps t then replacement else []
    mended t = Encoding.utf16.encodeAll (codesOf read) ++ left ∧
      t.length = sizeAll read + left.length := by
  induction t using Encoding.walk_induction (e := .utf16) with
  | nil =>
    rw [Encoding.steps]
    exact ⟨rfl, rfl⟩
  | cut units hne hcut =>
    rw [Encoding.steps_of_truncated hne hcut, if_pos List.mem_cons_self]
    cases units with
    | nil => exact absurd rfl hne
    | cons u rest =>
      rcases mended_step u rest with ⟨-, rfl, hmended⟩ | ⟨step, code, hstep, hcode, -⟩
      · exact ⟨hmended, rfl⟩
      · rw [← hstep, show Encoding.decodeUtf16 (u :: rest) = .truncated from hcut] at hcode
        cases hcode
  | step units hne hstep ih =>
    cases units with
    | nil => exact absurd rfl hne
    | cons u rest =>
      rcases mended_step u rest with ⟨hcut, -⟩ | ⟨step, code, hdecode, hcode, hmended⟩
      · exact absurd hcut hstep
      · change Encoding.utf16.decode (u :: rest) = step at hdecode
        have hgoes : step.stops false = false := by
          cases step with
          | scalar code size => rfl
          | invalid size => rfl
          | truncated => cases hcode
        have hne' : .truncated ≠ step := by
          rintro rfl
          cases hcode
        have hsize := Encoding.size_le (Encoding.decode_within .utf16 (u :: rest))
        rw [hdecode] at ih hsize
        obtain ⟨hbehind, hlength⟩ := ih
        rw [Encoding.steps_of_decode hne hstep, hdecode, accepted_cons_of_not_stops hgoes]
        intro read left
        have hleft : left = if .truncated ∈ Encoding.utf16.steps ((u :: rest).drop step.size) then
            replacement else [] := if_congr (List.mem_cons.trans (or_iff_right hne')) rfl rfl
        have hread : sizeAll read = step.size + sizeAll (accepted false
            (Encoding.utf16.steps ((u :: rest).drop step.size))) := rfl
        rw [List.length_drop] at hlength
        refine ⟨?_, by rw [hleft, hread]; omega⟩
        rw [hleft, codesOf_cons hcode, Encoding.encodeAll_cons, List.append_assoc, ← hbehind]
        exact hmended

end TextUnits.Text
