/-!
# Rounding a quotient to a whole number

`roundDiv` takes the nearest whole number to a quotient of naturals and leaves the choice
at an exact half to a `Tie` rule. The two laws say that the result is at most half a unit
away and that an exact quotient is returned unchanged.
-/

namespace TextUnits

/-- What becomes of a quotient that lies exactly between two whole numbers. -/
inductive Tie where
  /-- The even neighbour is taken. -/
  | toEven
  /-- The larger neighbour is taken. -/
  | up
  deriving DecidableEq, Repr

/-- Nearest whole number to `num / den`, with `tie` deciding an exact half. -/
def roundDiv (tie : Tie) (num den : Nat) : Nat :=
  let whole := num / den
  let rest := num % den
  if 2 * rest < den then whole
  else if den < 2 * rest then whole + 1
  else
    match tie with
    | .toEven => whole + whole % 2
    | .up => whole + 1

/-- Twice the error of a rounded quotient is at most the divisor, on either side. -/
theorem roundDiv_near (tie : Tie) (num den : Nat) (positive : 0 < den) :
    2 * num ≤ 2 * (roundDiv tie num den * den) + den ∧
      2 * (roundDiv tie num den * den) ≤ 2 * num + den := by
  have split := Nat.div_add_mod num den
  have bound := Nat.mod_lt num positive
  have parity : num / den % 2 = 0 ∨ num / den % 2 = 1 := by omega
  rw [Nat.mul_comm] at split
  unfold roundDiv
  dsimp only
  split
  · omega
  · split
    · rw [Nat.add_mul]; omega
    · cases tie with
      | toEven =>
        dsimp only
        rcases parity with h | h <;> rw [h, Nat.add_mul] <;> omega
      | up => dsimp only; rw [Nat.add_mul]; omega

/-- A quotient without remainder is returned as it is. -/
theorem roundDiv_mul (tie : Tie) (whole den : Nat) (positive : 0 < den) :
    roundDiv tie (whole * den) den = whole := by
  simp [roundDiv, Nat.mul_div_cancel _ positive, positive]

end TextUnits
