import TextUnits.Proofs.Number.Naturals
import Mathlib.Algebra.Group.Even

/-!
# Naturals rounded to 53 bits

A natural becomes the nearest one that 53 bits and a power of two write, and of two that are as near
the one whose significand is even. It is rounded as though powers of two had no bound, and what
reaches `2 ^ 1024` then is infinite.
-/

namespace TextUnits.Double

/-- Naturals that a significand of at most 53 bits and a power of two write. -/
def OnGrid (n : ℕ) : Prop := ∃ significand power, significand < 2 ^ 53 ∧ n = significand * 2 ^ power

/-- A natural whose significand, when it has all 53 bits, is even. -/
def EvenOnGrid (n : ℕ) : Prop :=
  ∃ significand power, 2 ^ 52 ≤ significand ∧ significand < 2 ^ 53 ∧ Even significand ∧
    n = significand * 2 ^ power

/-- How far apart two naturals are. -/
def distance (n m : ℕ) : ℕ := ((n : ℤ) - m).natAbs

/-- The natural that another one is rounded to when powers of two have no bound. -/
structure RoundsTo (q n : ℕ) : Prop where
  /-- It has at most 53 bits in front of its zeros. -/
  grid : OnGrid n
  /-- No other natural like this is nearer. -/
  near : ∀ m, OnGrid m → distance n q ≤ distance m q
  /-- If another one is as near, its own significand is even. -/
  even : ∀ m, OnGrid m → m ≠ n → distance m q = distance n q → EvenOnGrid n

/-- The number that a natural becomes; nothing stands for infinity. -/
inductive NearestNumber (q : ℕ) : Option ℕ → Prop where
  /-- It is finite below the first power of two that no number reaches. -/
  | finite {n : ℕ} (h : RoundsTo q n) (hn : n < beyond) : NearestNumber q (some n)
  /-- And infinite from there on. -/
  | infinite {n : ℕ} (h : RoundsTo q n) (hn : beyond ≤ n) : NearestNumber q none

variable {n m q num den k : ℕ}

/-- A multiple of the divisor other than the rounded one is a whole divisor away from that, and so
at least half of it from what was rounded. -/
theorem le_distance_of_ne (tie : Tie) (num : ℕ) (hd : 0 < den) (hk : k ≠ roundDiv tie num den) :
    den ≤ 2 * distance (k * den) num := by
  obtain ⟨hlow, hhigh⟩ := roundDiv_near tie num den hd
  generalize roundDiv tie num den = whole at hlow hhigh hk
  unfold distance
  rcases Nat.lt_or_gt_of_ne hk with hlt | hlt
  · have hstep := Nat.mul_le_mul_right den (Nat.succ_le_of_lt hlt)
    rw [Nat.succ_mul] at hstep
    omega
  · have hstep := Nat.mul_le_mul_right den (Nat.succ_le_of_lt hlt)
    rw [Nat.succ_mul] at hstep
    omega

theorem distance_roundDiv_le (tie : Tie) (num : ℕ) (hd : 0 < den) :
    2 * distance (roundDiv tie num den * den) num ≤ den := by
  obtain ⟨hlow, hhigh⟩ := roundDiv_near tie num den hd
  unfold distance
  omega

/-- No multiple of the divisor is nearer than the rounded one. -/
theorem distance_roundDiv (tie : Tie) (num : ℕ) (hd : 0 < den) (k : ℕ) :
    distance (roundDiv tie num den * den) num ≤ distance (k * den) num := by
  by_cases hk : k = roundDiv tie num den
  · rw [hk]
  · have hfar := le_distance_of_ne tie num hd hk
    have hnear := distance_roundDiv_le tie num hd
    omega

/-- Half a divisor away, a quotient is rounded to an even number. -/
theorem even_roundDiv (hd : 0 < den)
    (h : 2 * distance (roundDiv .toEven num den * den) num = den) :
    Even (roundDiv .toEven num den) := by
  have hsplit := Nat.div_add_mod num den
  have hrest := Nat.mod_lt num hd
  rw [Nat.mul_comm] at hsplit
  unfold distance roundDiv at h
  unfold roundDiv
  dsimp only at h ⊢
  split_ifs at h ⊢ with hbelow habove
  · omega
  · rw [Nat.add_mul] at h
    omega
  · rw [Nat.even_iff]
    omega

/-- A natural of more than 53 bits, in units of the last of its first 53, has 53 bits in front of
the point, unless they carry. -/
theorem roundDiv_bounds (hq : 2 ^ 53 ≤ q) :
    2 ^ 52 ≤ roundDiv .toEven q (2 ^ (q.log2 - 52)) ∧
      roundDiv .toEven q (2 ^ (q.log2 - 52)) ≤ 2 ^ 53 ∧ 2 ^ 52 * 2 ^ (q.log2 - 52) ≤ q := by
  have hlog : 53 ≤ q.log2 := (Nat.le_log2 (by omega)).mpr hq
  have hself : 2 ^ 52 * 2 ^ (q.log2 - 52) ≤ q := by
    rw [← Nat.pow_add, show 52 + (q.log2 - 52) = q.log2 by omega]
    exact Nat.log2_self_le (by omega)
  have hnext : q < 2 ^ 53 * 2 ^ (q.log2 - 52) := by
    rw [← Nat.pow_add, show 53 + (q.log2 - 52) = q.log2 + 1 by omega]
    exact Nat.lt_log2_self
  refine ⟨?_, ?_, hself⟩
  · exact ((Nat.le_div_iff_mul_le (Nat.two_pow_pos _)).mpr hself).trans (div_le_roundDiv _ _ _)
  · obtain ⟨-, hhigh⟩ := roundDiv_near .toEven q _ (Nat.two_pow_pos (q.log2 - 52))
    by_contra hover
    have hstep := Nat.mul_le_mul_right (2 ^ (q.log2 - 52)) (Nat.succ_le_of_lt (not_le.mp hover))
    rw [Nat.succ_mul] at hstep
    omega

/-- What is on the grid is a multiple of a unit or below every significand of 53 bits in that
unit. -/
theorem OnGrid.cases (h : OnGrid m) (power : ℕ) :
    (∃ k, m = k * 2 ^ power) ∨ m < 2 ^ 52 * 2 ^ power := by
  obtain ⟨significand, own, hs, rfl⟩ := h
  rcases Nat.lt_or_ge own power with hlt | hle
  · have hunit := Nat.pow_le_pow_right Nat.two_pos (Nat.succ_le_of_lt hlt)
    rw [Nat.pow_succ] at hunit
    have hless := Nat.mul_lt_mul_of_pos_right hs (Nat.two_pow_pos own)
    exact .inr (by omega)
  · refine .inl ⟨significand * 2 ^ (own - power), ?_⟩
    rw [Nat.mul_assoc, ← Nat.pow_add, Nat.sub_add_cancel hle]

/-- Fifty-three bits or a carry out of them are on the grid, in whatever unit. -/
theorem onGrid_of_le (h : k ≤ 2 ^ 53) (power : ℕ) : OnGrid (k * 2 ^ power) := by
  rcases h.lt_or_eq with hlt | rfl
  · exact ⟨k, power, hlt, rfl⟩
  · exact ⟨2 ^ 52, power + 1, by decide, by rw [Nat.pow_succ]; omega⟩

theorem evenOnGrid_of_even (hlow : 2 ^ 52 ≤ k) (hhigh : k ≤ 2 ^ 53) (heven : Even k) (power : ℕ) :
    EvenOnGrid (k * 2 ^ power) := by
  rcases hhigh.lt_or_eq with hlt | rfl
  · exact ⟨k, power, hlow, hlt, heven, rfl⟩
  · exact ⟨2 ^ 52, power + 1, le_refl _, by decide, by decide, by rw [Nat.pow_succ]; omega⟩

/-- A natural of at most 53 bits stays as it is. -/
theorem roundsTo_of_lt (hq : q < 2 ^ 53) : RoundsTo q q := by
  have hself : distance q q = 0 := by
    unfold distance
    omega
  refine ⟨⟨q, 0, hq, (Nat.mul_one q).symm⟩, fun m _ => ?_, fun m _ hne hsame => ?_⟩
  · rw [hself]
    exact Nat.zero_le _
  · unfold distance at hsame
    omega

/-- A natural is rounded to the nearest one on the grid. -/
theorem roundsTo_nearestNat (q : ℕ) : RoundsTo q (nearestNat q) := by
  rcases Nat.lt_or_ge q (2 ^ 53) with hq | hq
  · rw [nearestNat_of_lt hq]
    exact roundsTo_of_lt hq
  · obtain ⟨hlow, hhigh, hself⟩ := roundDiv_bounds hq
    rw [nearestNat, Nat.pow_eq]
    generalize q.log2 - 52 = power at hlow hhigh hself ⊢
    have hunit := Nat.two_pow_pos power
    have hnearest := distance_roundDiv .toEven q hunit
    -- What is not a multiple of the unit lies below a multiple that is no greater than the natural.
    have hbelow : ∀ m, m < 2 ^ 52 * 2 ^ power →
        distance (roundDiv .toEven q (2 ^ power) * 2 ^ power) q < distance m q := by
      intro m hm
      have hfront := hnearest (2 ^ 52)
      unfold distance at hfront ⊢
      omega
    refine ⟨onGrid_of_le hhigh power, fun m hm => ?_, fun m hm hne hsame => ?_⟩
    · rcases hm.cases power with ⟨k, rfl⟩ | hless
      · exact hnearest k
      · exact (hbelow m hless).le
    · rcases hm.cases power with ⟨k, rfl⟩ | hless
      · have hk : k ≠ roundDiv .toEven q (2 ^ power) := fun h => hne (by rw [h])
        have hfar := le_distance_of_ne .toEven q hunit hk
        have hnear := distance_roundDiv_le .toEven q hunit
        exact evenOnGrid_of_even hlow hhigh (even_roundDiv hunit (by omega)) power
      · exact absurd hsame (hbelow m hless).ne'

/-- A natural becomes the nearest number, or infinite. -/
theorem nearestNumber_finiteNat? (q : ℕ) : NearestNumber q (finiteNat? q) := by
  unfold finiteNat?
  split_ifs with hn
  · exact .finite (roundsTo_nearestNat q) hn
  · exact .infinite (roundsTo_nearestNat q) (not_lt.mp hn)

/-- A safe natural stays as it is. -/
theorem finiteNat?_of_le (h : n ≤ maxSafe) : finiteNat? n = some n := by
  have hbeyond : maxSafe < beyond := by decide +kernel
  rw [finiteNat?, nearestNat_of_le h, if_pos (h.trans_lt hbeyond)]

/-- One beyond the safe naturals stays beyond them. -/
theorem lt_of_mem_finiteNat? (h : maxSafe < n) : ∀ k ∈ finiteNat? n, maxSafe < k := by
  intro k hk
  unfold finiteNat? at hk
  split_ifs at hk
  · cases hk
    exact lt_nearestNat h
  · cases hk

end TextUnits.Double
