import TextUnits.Ascii
import Mathlib.Data.List.Forall2
import Mathlib.Data.List.TakeWhile

/-!
# When texts compare equal

A comparison looks at pairs of units up to the first zero, which the end of a text counts as. So it
finds no difference exactly if what it looks at of both texts, up to their first zeros, is the same
when it is folded. Folding to lower case makes units the same that are an ASCII letter in either
case.
-/

namespace TextUnits.Ascii

/-- The units of a text in front of its first zero. -/
def beforeZero (t : Text) : Text := t.takeWhile (· ≠ 0)

/-- Units that are the same, or an ASCII letter in upper and in lower case. -/
def SameLetter (u v : UInt16) : Prop :=
  u = v ∨ 0x41 ≤ u.toNat ∧ u.toNat ≤ 0x5A ∧ v.toNat = u.toNat + 0x20 ∨
    0x41 ≤ v.toNat ∧ v.toNat ≤ 0x5A ∧ u.toNat = v.toNat + 0x20

instance (u v : UInt16) : Decidable (SameLetter u v) := instDecidableOr

/-- Texts of one length that are the same unit by unit up to the case of ASCII letters. -/
def SameFolded (a b : Text) : Prop := List.Forall₂ SameLetter a b

instance (a b : Text) : Decidable (SameFolded a b) :=
  inferInstanceAs (Decidable (List.Forall₂ SameLetter a b))

variable {a b t : Text} {u v : UInt16} {fold : UInt16 → UInt16}

theorem beforeZero_cons (u : UInt16) (t : Text) :
    beforeZero (u :: t) = if u = 0 then [] else u :: beforeZero t := by
  rw [beforeZero, List.takeWhile_cons]
  split_ifs with h <;> simp_all [beforeZero]

theorem beforeZero_eq_self (h : 0 ∉ t) : beforeZero t = t := by
  refine List.takeWhile_eq_self_iff.mpr fun u hu => ?_
  exact decide_eq_true fun hzero : u = 0 => h (hzero ▸ hu)

/-- A text is cut in front of its first zero by its first unit, and the end counts as a zero. -/
theorem map_beforeZero_take_succ (fold : UInt16 → UInt16) (t : Text) (limit : Nat) :
    (beforeZero (t.take (limit + 1))).map fold =
      if t.headD 0 = 0 then []
      else fold (t.headD 0) :: (beforeZero (t.tail.take limit)).map fold := by
  cases t with
  | nil => rfl
  | cons u rest =>
    rw [List.take_succ_cons, beforeZero_cons, List.headD_cons, List.tail_cons]
    split_ifs <;> rfl

/-- Within a limit no difference is found exactly if the units up to the limit, in front of the
first zeros, are the same when they are folded. -/
theorem compareBy_eq_zero_iff (hfold : ∀ u, fold u = 0 ↔ u = 0) (a b : Text) (limit : Nat) :
    compareBy fold a b limit = 0 ↔
      (beforeZero (a.take limit)).map fold = (beforeZero (b.take limit)).map fold := by
  induction limit generalizing a b with
  | zero => simp [compareBy, beforeZero]
  | succ limit ih =>
    rw [map_beforeZero_take_succ, map_beforeZero_take_succ, compareBy]
    by_cases hsame : fold (a.headD 0) = fold (b.headD 0)
    · have hzero : a.headD 0 = 0 ↔ b.headD 0 = 0 := by rw [← hfold, hsame, hfold]
      rw [if_neg (not_not.mpr hsame)]
      by_cases ha : a.headD 0 = 0
      · rw [if_pos ((hfold _).mpr ha), if_pos ha, if_pos (hzero.mp ha)]
        exact iff_of_true rfl rfl
      · rw [if_neg (mt (hfold _).mp ha), if_neg ha, if_neg (mt hzero.mpr ha), ih, hsame,
          List.cons_inj_right]
    · have hdifferent : ((fold (a.headD 0)).toNat : Int) - (fold (b.headD 0)).toNat ≠ 0 := by
        have hne := mt UInt16.toNat_inj.mp hsame
        omega
      rw [if_pos hsame]
      refine iff_of_false hdifferent ?_
      split_ifs with ha hb hb
      · exact fun _ => hsame (by rw [ha, hb])
      · exact fun h => by cases h
      · exact fun h => by cases h
      · exact fun h => hsame (List.cons.inj h).1

theorem toNat_lowerUnit (u : UInt16) :
    (lowerUnit u).toNat = if 0x41 ≤ u.toNat ∧ u.toNat ≤ 0x5A then u.toNat + 0x20 else u.toNat := by
  unfold lowerUnit
  split_ifs with h
  · rw [UInt16.toNat_add, Nat.mod_eq_of_lt]
    · rfl
    · change u.toNat + 0x20 < 2 ^ 16
      omega
  · rfl

theorem lowerUnit_eq_zero_iff (u : UInt16) : lowerUnit u = 0 ↔ u = 0 := by
  rw [← UInt16.toNat_inj, ← UInt16.toNat_inj (a := u), toNat_lowerUnit]
  split_ifs with h
  · rw [UInt16.toNat_zero]
    omega
  · rfl

/-- Units have the same lower case exactly if they are the same up to the case of a letter. -/
theorem lowerUnit_eq_iff : lowerUnit u = lowerUnit v ↔ SameLetter u v := by
  rw [← UInt16.toNat_inj, toNat_lowerUnit, toNat_lowerUnit, SameLetter, ← UInt16.toNat_inj]
  split_ifs <;> omega

theorem SameLetter.eq_zero_iff (h : SameLetter u v) : u = 0 ↔ v = 0 := by
  rw [← lowerUnit_eq_zero_iff, lowerUnit_eq_iff.mpr h, lowerUnit_eq_zero_iff]

/-- Texts that are the same up to case are so in front of their first zeros, too. -/
theorem SameFolded.beforeZero (h : SameFolded a b) :
    SameFolded (beforeZero a) (beforeZero b) := by
  induction h with
  | nil => exact .nil
  | @cons u v a b hletter _ ih =>
    rw [beforeZero_cons, beforeZero_cons]
    by_cases hu : u = 0
    · rw [if_pos hu, if_pos (hletter.eq_zero_iff.mp hu)]
      exact .nil
    · rw [if_neg hu, if_neg (mt hletter.eq_zero_iff.mpr hu)]
      exact .cons hletter ih

theorem map_lowerUnit_eq_iff : a.map lowerUnit = b.map lowerUnit ↔ SameFolded a b := by
  rw [SameFolded, ← List.forall₂_eq_eq_eq, List.forall₂_map_left_iff, List.forall₂_map_right_iff]
  simp only [lowerUnit_eq_iff]

/-- A comparison of two whole texts looks at all units of both. -/
theorem take_enough (a b : Text) : a.take (enough a b) = a ∧ b.take (enough a b) = b := by
  have hall : a.length ≤ enough a b ∧ b.length ≤ enough a b := by
    unfold enough
    omega
  exact ⟨List.take_of_length_le hall.1, List.take_of_length_le hall.2⟩

/-- Texts compare equal up to case exactly if they are the same up to case in front of their first
zeros. -/
theorem compareFolded_eq_zero_iff (a b : Text) :
    compareFolded a b = 0 ↔ SameFolded (beforeZero a) (beforeZero b) := by
  rw [compareFolded, compareBy_eq_zero_iff lowerUnit_eq_zero_iff, (take_enough a b).1,
    (take_enough a b).2, map_lowerUnit_eq_iff]

end TextUnits.Ascii
