import TextUnits.Proofs.Ascii.Comparison
import TextUnits.Proofs.Number.Naturals
import Mathlib.Data.List.Lex
import Mathlib.Tactic.Common

/-!
# Comparison orders texts

Up to their first zeros texts are ordered like words in a dictionary, by the numbers of their units,
and a comparison is negative, zero or positive as one text comes before the other one, is the same
or comes behind it. Comparison up to case is that of the texts in lower case, and a comparison of
so many units is that of the texts cut behind them.
-/

namespace TextUnits.Ascii

/-- A text comes before another one in a dictionary: at the first place where they differ its unit
is the lesser one, or it ends there. -/
def Precedes (a b : Text) : Prop := List.Lex (fun u v => u.toNat < v.toNat) a b

instance (a b : Text) : Decidable (Precedes a b) :=
  inferInstanceAs (Decidable (List.Lex (fun u v : UInt16 => u.toNat < v.toNat) a b))

variable {a b c : Text} {u v : UInt16} {fold : UInt16 → UInt16} {limit : ℕ}

theorem not_precedes_nil (a : Text) : ¬ Precedes a [] := by
  intro h
  cases h

theorem precedes_cons_iff :
    Precedes (u :: a) (v :: b) ↔ u.toNat < v.toNat ∨ u = v ∧ Precedes a b := by
  constructor
  · intro h
    cases h with
    | rel hlt => exact .inl hlt
    | cons hrest => exact .inr ⟨rfl, hrest⟩
  · rintro (hlt | ⟨rfl, hrest⟩)
    · exact .rel hlt
    · exact .cons hrest

theorem Precedes.trans (h : Precedes a b) (hc : Precedes b c) : Precedes a c :=
  List.lex_trans (fun hlt hnext => Nat.lt_trans hlt hnext) h hc

/-- The other way round a comparison has the other sign. -/
theorem compareBy_swap (fold : UInt16 → UInt16) (a b : Text) (limit : ℕ) :
    compareBy fold b a limit = -compareBy fold a b limit := by
  induction limit generalizing a b with
  | zero => rfl
  | succ limit ih =>
    rw [compareBy, compareBy]
    by_cases hsame : fold (a.headD 0) = fold (b.headD 0)
    · rw [if_neg (not_not.mpr hsame), if_neg (not_not.mpr hsame.symm), ih a.tail, hsame]
      split_ifs <;> rfl
    · rw [if_pos hsame, if_pos (Ne.symm hsame), Int.neg_sub]

/-- Within a limit one text is less exactly if it comes first when both are cut behind the limit and
in front of their first zeros. -/
theorem compareBy_neg_iff (a b : Text) (limit : ℕ) :
    compareBy id a b limit < 0 ↔
      Precedes (beforeZero (a.take limit)) (beforeZero (b.take limit)) := by
  induction limit generalizing a b with
  | zero => simp [compareBy, beforeZero, not_precedes_nil]
  | succ limit ih =>
    have hfront : ∀ t : Text, beforeZero (t.take (limit + 1)) =
        if t.headD 0 = 0 then [] else t.headD 0 :: beforeZero (t.tail.take limit) := by
      intro t
      simpa using map_beforeZero_take_succ id t limit
    rw [hfront, hfront, compareBy]
    generalize a.headD 0 = x
    generalize b.headD 0 = y
    simp only [id]
    by_cases hsame : x = y
    · subst hsame
      rw [if_neg (not_not.mpr rfl)]
      by_cases hzero : x = 0
      · rw [if_pos hzero, if_pos hzero, if_pos hzero]
        exact iff_of_false (lt_irrefl 0) (not_precedes_nil [])
      · rw [if_neg hzero, if_neg hzero, if_neg hzero, ih, precedes_cons_iff]
        simp
    · have hne := mt UInt16.toNat_inj.mp hsame
      rw [if_pos hsame]
      split_ifs with hx hy hy
      · exact absurd (hx.trans hy.symm) hsame
      · subst hx
        refine iff_of_true ?_ .nil
        rw [UInt16.toNat_zero] at hne ⊢
        omega
      · subst hy
        refine iff_of_false ?_ (not_precedes_nil _)
        rw [UInt16.toNat_zero]
        omega
      · rw [precedes_cons_iff, or_iff_left fun h => hsame h.1]
        omega

/-- More pairs than both texts have units are not looked at. -/
theorem compareBy_of_length_lt (hfold : fold 0 = 0) (ha : a.length < limit)
    (hb : b.length < limit) (more : ℕ) :
    compareBy fold a b (limit + more) = compareBy fold a b limit := by
  induction limit generalizing a b with
  | zero => exact absurd ha (Nat.not_lt_zero _)
  | succ limit ih =>
    rw [Nat.add_right_comm, compareBy, compareBy]
    by_cases hends : a = [] ∧ b = []
    · obtain ⟨rfl, rfl⟩ := hends
      simp [hfold]
    · have htails : a.tail.length < limit ∧ b.tail.length < limit := by
        simp only [← List.length_eq_zero_iff] at hends
        rw [List.length_tail, List.length_tail]
        omega
      rw [ih htails.1 htails.2]

/-- Cut behind so many units, texts compare as they do within as many pairs. -/
theorem compareBy_take (hfold : fold 0 = 0) (a b : Text) (n limit : ℕ) :
    compareBy fold (a.take n) (b.take n) limit = compareBy fold a b (min n limit) := by
  induction limit generalizing a b n with
  | zero => rw [Nat.min_zero, compareBy, compareBy]
  | succ limit ih =>
    cases n with
    | zero => simp [compareBy, hfold]
    | succ n =>
      have hhead : ∀ t : Text, (t.take (n + 1)).headD 0 = t.headD 0 := by
        intro t
        cases t <;> rfl
      have htail : ∀ t : Text, (t.take (n + 1)).tail = t.tail.take n := by
        intro t
        cases t <;> simp
      rw [Nat.succ_min_succ, compareBy, compareBy, hhead, hhead, htail, htail, ih]

/-- A comparison of folded units is that of the texts with their units folded. -/
theorem compareBy_map (hfold : fold 0 = 0) (a b : Text) (limit : ℕ) :
    compareBy id (a.map fold) (b.map fold) limit = compareBy fold a b limit := by
  induction limit generalizing a b with
  | zero => rfl
  | succ limit ih =>
    have hhead : ∀ t : Text, (t.map fold).headD 0 = fold (t.headD 0) := by
      intro t
      cases t with
      | nil => exact hfold.symm
      | cons => rfl
    rw [compareBy, compareBy, hhead, hhead, ← List.map_tail, ← List.map_tail, ih]
    rfl

/-- A comparison of so many units is a whole comparison of the texts cut behind them. -/
theorem compareBy_enough (hfold : fold 0 = 0) (a b : Text) (n : ℕ) :
    compareBy fold (a.take n) (b.take n) (enough (a.take n) (b.take n)) =
      compareBy fold a b n := by
  have hpairs : (a.take n).length < enough (a.take n) (b.take n) ∧
      (b.take n).length < enough (a.take n) (b.take n) := by
    unfold enough
    omega
  rw [compareBy_take hfold]
  generalize enough (a.take n) (b.take n) = pairs at hpairs ⊢
  rw [List.length_take, List.length_take] at hpairs
  rcases Nat.le_total n pairs with hle | hle
  · rw [Nat.min_eq_left hle]
  · obtain ⟨more, rfl⟩ := Nat.exists_eq_add_of_le hle
    rcases Nat.eq_zero_or_pos more with rfl | hpos
    · rw [Nat.add_zero, Nat.min_self]
    · rw [Nat.min_eq_right hle, compareBy_of_length_lt hfold (by omega) (by omega)]

theorem compare_neg_iff (a b : Text) :
    compare a b < 0 ↔ Precedes (beforeZero a) (beforeZero b) := by
  rw [compare, compareBy_neg_iff, (take_enough a b).1, (take_enough a b).2]

theorem compare_eq_zero_iff (a b : Text) :
    compare a b = 0 ↔ beforeZero a = beforeZero b := by
  have hid : ∀ u : UInt16, id u = 0 ↔ u = 0 := fun _ => Iff.rfl
  rw [compare, compareBy_eq_zero_iff hid, (take_enough a b).1, (take_enough a b).2, List.map_id,
    List.map_id]

/-- Of two texts the first one comes first or is the same in front of the first zeros if it does not
compare as greater. -/
theorem compare_nonpos_iff (a b : Text) :
    compare a b ≤ 0 ↔
      Precedes (beforeZero a) (beforeZero b) ∨ beforeZero a = beforeZero b := by
  rw [← compare_neg_iff, ← compare_eq_zero_iff, Int.le_iff_lt_or_eq]

theorem compare_swap (a b : Text) : compare b a = -compare a b := by
  rw [compare, compareBy_swap, compare, enough, Nat.max_comm, enough]

theorem compareFolded_eq (a b : Text) : compareFolded a b = compare (toLower a) (toLower b) := by
  rw [compare, toLower, toLower, compareBy_map (by decide), compareFolded, enough, enough,
    List.length_map, List.length_map]

/-- Comparison is the order of a dictionary on the texts in front of their first zeros. It is zero
exactly if these are the same, changes its sign with the order of the texts, and is transitive.
Comparison up to case is that of the texts in lower case, and comparison of a natural number of
units that of the texts cut behind them. -/
theorem compare_order (a b c : Text) :
    (compare a b < 0 ↔ Precedes (beforeZero a) (beforeZero b)) ∧
      (0 < compare a b ↔ Precedes (beforeZero b) (beforeZero a)) ∧
      (compare a b = 0 ↔ beforeZero a = beforeZero b) ∧
      compare b a = -compare a b ∧
      (compare a b ≤ 0 → compare b c ≤ 0 → compare a c ≤ 0) ∧
      (compare a b < 0 → compare b c < 0 → compare a c < 0) ∧
      compareFolded a b = compare (toLower a) (toLower b) ∧
      ∀ (count : Double) (n : ℕ), count.toNat? = some n →
        compareUpTo a b count = compare (a.take n) (b.take n) ∧
          compareFoldedUpTo a b count = compareFolded (a.take n) (b.take n) := by
  have hpositive : 0 < compare a b ↔ Precedes (beforeZero b) (beforeZero a) := by
    rw [← compare_neg_iff, compare_swap a b]
    omega
  refine ⟨compare_neg_iff a b, hpositive, compare_eq_zero_iff a b, compare_swap a b,
    fun hab hbc => ?_, fun hab hbc => ?_, compareFolded_eq a b, fun count n hcount => ?_⟩
  · rw [compare_nonpos_iff] at hab hbc ⊢
    rcases hab with hab | hab
    · rcases hbc with hbc | hbc
      · exact .inl (hab.trans hbc)
      · exact .inl (hbc ▸ hab)
    · rwa [hab]
  · rw [compare_neg_iff] at hab hbc ⊢
    exact hab.trans hbc
  · have hlimit : limitOf count a b = n := by
      rw [limitOf, Double.naturalsBelow?_of_toNat? hcount]
      rfl
    rw [compareUpTo, compareFoldedUpTo, hlimit]
    exact ⟨(compareBy_enough rfl a b n).symm, (compareBy_enough (by decide) a b n).symm⟩

/-- What stands behind a zero does not count, upper case comes first, and behind a unit that the
texts share there is nothing to tell them apart. -/
theorem compare_order_zero :
    (compare (Text.ofString "a" ++ 0x00 :: Text.ofString "z") (Text.ofString "aB") ≤ 0 ∧
        compare (Text.ofString "aB") (Text.ofString "ab") ≤ 0 ∧
        compare (Text.ofString "a" ++ 0x00 :: Text.ofString "z") (Text.ofString "ab") ≤ 0) ∧
      (compare (Text.ofString "a" ++ 0x00 :: Text.ofString "z") (Text.ofString "aB") < 0 ∧
        compare (Text.ofString "aB") (Text.ofString "ab") < 0 ∧
        compare (Text.ofString "a" ++ 0x00 :: Text.ofString "z") (Text.ofString "ab") < 0) ∧
      (Double.ofNat 1).toNat? = some 1 ∧
      compareUpTo (Text.ofString "a" ++ 0x00 :: Text.ofString "z") (Text.ofString "aB")
        (Double.ofNat 1) = compare (Text.ofString "a") (Text.ofString "a") := by
  have hfirst :
      compare (Text.ofString "a" ++ 0x00 :: Text.ofString "z") (Text.ofString "aB") < 0 := by decide
  have hnext : compare (Text.ofString "aB") (Text.ofString "ab") < 0 := by decide
  have hone : (Double.ofNat 1).toNat? = some 1 := Double.toNat?_ofNat (by decide)
  obtain ⟨-, -, -, -, htrans, hstrict, -, hcut⟩ := compare_order
    (Text.ofString "a" ++ 0x00 :: Text.ofString "z") (Text.ofString "aB") (Text.ofString "ab")
  exact ⟨⟨hfirst.le, hnext.le, htrans hfirst.le hnext.le⟩, ⟨hfirst, hnext, hstrict hfirst hnext⟩,
    hone, (hcut _ 1 hone).1⟩

end TextUnits.Ascii
