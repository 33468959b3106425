import TextUnits.Path.Stretch
import TextUnits.Proofs.Number.Naturals
import TextUnits.Proofs.Path.Runs

/-!
# Steps from stretches with whole places

A stretch that starts at a safe natural and is a safe natural long is a segment. Inside its path no
step from it fails, and the steps lead where those of the segment lead: a place that is moved unit
by unit passes over the same run of units.
-/

namespace TextUnits.Path

/-- The stretch with the places of a segment. -/
def Segment.stretch (s : Segment) : Stretch := ⟨Double.ofNat s.offset, Double.ofNat s.length⟩

variable {path : Text} {s : Segment} {p count fuel : ℕ} {test : Double → Bool}

/-- A place that is moved forwards passes over all naturals that pass the test. -/
theorem moved_one (hsafe : p + count ≤ Double.maxSafe) (hfuel : count ≤ fuel)
    (hpass : ∀ i, p ≤ i → i < p + count → test (Double.ofNat i) = true)
    (hend : test (Double.ofNat (p + count)) = false) :
    moved test one fuel (Double.ofNat p) = Double.ofNat (p + count) := by
  have hone : 1 ≤ Double.maxSafe := by decide
  induction count generalizing p fuel with
  | zero =>
    cases fuel with
    | zero => rfl
    | succ fuel => exact if_neg (Bool.eq_false_iff.mp hend)
  | succ count ih =>
    obtain ⟨fuel, rfl⟩ := Nat.exists_eq_add_of_le' (Nat.one_le_of_lt hfuel)
    have hsum : p + (count + 1) = p + 1 + count := by omega
    rw [hsum] at hsafe hend ⊢
    rw [moved, if_pos (hpass p (Nat.le_refl p) (by omega)), one, Double.add_ofNat (by omega) hone]
    exact ih hsafe (by omega) (fun i hge hlt => hpass i (by omega) (by omega)) hend

/-- A place that is moved backwards passes over all naturals that pass the test. -/
theorem moved_neg_one (hsafe : p ≤ Double.maxSafe) (hcount : count ≤ p) (hfuel : count ≤ fuel)
    (hpass : ∀ i, p - count < i → i ≤ p → test (Double.ofNat i) = true)
    (hend : test (Double.ofNat (p - count)) = false) :
    moved test one.neg fuel (Double.ofNat p) = Double.ofNat (p - count) := by
  induction count generalizing p fuel with
  | zero =>
    cases fuel with
    | zero => rfl
    | succ fuel => exact if_neg (Bool.eq_false_iff.mp hend)
  | succ count ih =>
    obtain ⟨fuel, rfl⟩ := Nat.exists_eq_add_of_le' (Nat.one_le_of_lt hfuel)
    have hdifference : p - (count + 1) = p - 1 - count := by omega
    have hback : (Double.ofNat p).add one.neg = Double.ofNat (p - 1) :=
      Double.sub_ofNat hsafe (by omega)
    rw [hdifference] at hend hpass ⊢
    rw [moved, if_pos (hpass p (by omega) (Nat.le_refl p)), hback]
    exact ih (by omega) (by omega) (by omega) (fun i hge hle => hpass i hge (by omega)) hend

theorem separatorAt_ofNat (h : p ≤ Double.maxSafe) :
    separatorAt path (Double.ofNat p) = path[p]?.any isSeparator := by
  rw [separatorAt, Double.isNaN_ofNat h, Double.trunc?_ofNat h]
  simp

/-- A place inside a path is moved forwards over the run of units that stands there. -/
theorem forwards_ofNat (hsafe : path.length ≤ Double.maxSafe) (hp : p ≤ path.length)
    (overSeparators : Bool) :
    forwards path overSeparators (Double.ofNat p) = Double.ofNat (p +
      Sequence.run (fun u => isSeparator u == overSeparators) (path.drop p)) := by
  obtain ⟨hpass, hend⟩ := passes_behind (fun u => isSeparator u == overSeparators) path p
  have hwithin := Sequence.run_le (fun u => isSeparator u == overSeparators) (path.drop p)
  rw [List.length_drop] at hwithin
  refine moved_one (by omega) (by omega) (fun i hge hlt => ?_) ?_
  · obtain ⟨u, hu, htest⟩ := hpass i hge hlt
    have hi : i < path.length := (List.getElem?_eq_some_iff.mp hu).1
    rw [Double.below_ofNat (by omega), separatorAt_ofNat (by omega), hu]
    simpa [hi] using htest
  · rw [Double.below_ofNat (by omega), separatorAt_ofNat (by omega)]
    generalize p + Sequence.run _ (path.drop p) = i at hend ⊢
    cases hu : path[i]? with
    | none =>
      have hlength := List.getElem?_eq_none_iff.mp hu
      simp [hlength]
    | some u => simpa using fun _ => hend u hu

/-- A place inside a path is moved backwards over the run of units in front of it. -/
theorem backwards_ofNat (hsafe : path.length ≤ Double.maxSafe) (hp : p ≤ path.length)
    (overSeparators : Bool) :
    backwards path overSeparators (Double.ofNat p) = Double.ofNat (p -
      Sequence.run (fun u => isSeparator u == overSeparators) (path.take p).reverse) := by
  obtain ⟨hle, hpass, hend⟩ := passes_front (fun u => isSeparator u == overSeparators) hp
  have hone : 1 ≤ Double.maxSafe := by decide
  have hfront : ∀ i ≤ p, 0 < i →
      separatorAt path ((Double.ofNat i).sub one) = path[i - 1]?.any isSeparator := by
    intro i hi hpos
    rw [one, Double.sub_ofNat (by omega) hpos, separatorAt_ofNat (by omega)]
  rw [backwards, Double.naturalsBelow?_ofNat (by omega)]
  refine moved_neg_one (by omega) hle hle (fun i hgt hi => ?_) ?_
  · obtain ⟨u, hu, htest⟩ := hpass (i - 1) (by omega) (by omega)
    have hpos : 0 < i := by omega
    rw [Double.above_ofNat (by omega), hfront i hi hpos, hu]
    simpa [hpos] using htest
  · rw [Double.above_ofNat (by omega)]
    generalize hstart : p - Sequence.run _ (path.take p).reverse = start at hend ⊢
    rcases Nat.eq_zero_or_pos start with hzero | hpos
    · simp [hzero]
    · have hunit := List.getElem?_eq_getElem (show start - 1 < path.length by omega)
      have hfail := hend (start - 1) (by omega) _ hunit
      rw [hfront start (by omega) hpos, hunit]
      simpa using fun _ => hfail

theorem finish_stretch (h : s.finish ≤ Double.maxSafe) :
    s.stretch.finish = Double.ofNat s.finish := by
  unfold Segment.finish at h
  exact Double.add_ofNat (by omega) (by omega)

/-- A segment inside its path is a stretch inside it. -/
theorem isOutside_stretch (hsafe : path.length ≤ Double.maxSafe) (hs : s.finish ≤ path.length) :
    s.stretch.isOutside path = false := by
  have hfinish : s.offset + s.length ≤ path.length := hs
  rw [Stretch.isOutside, finish_stretch (hs.trans hsafe), Segment.stretch,
    Double.below_ofNat (by omega), Double.below_ofNat (by omega),
    Double.above_ofNat (hs.trans hsafe)]
  simp [hs]

/-- Between two whole places lies the stretch of a segment. -/
theorem between_ofNat {start finish : ℕ} (hsafe : finish ≤ Double.maxSafe) (h : start ≤ finish) :
    Stretch.between (Double.ofNat start) (Double.ofNat finish) =
      (Segment.mk start (finish - start)).stretch := by
  rw [Stretch.between, Double.sub_ofNat hsafe h]
  rfl

theorem isSeparator_beq_true : (fun u => isSeparator u == true) = isSeparator :=
  funext fun _ => beq_true _

theorem isSeparator_beq_false : (fun u => isSeparator u == false) = fun u => !isSeparator u :=
  funext fun _ => beq_false _

/-- The step forwards from a segment inside its path is that of its stretch, which never fails. -/
theorem next?_stretch (hsafe : path.length ≤ Double.maxSafe) (hs : s.finish ≤ path.length) :
    s.stretch.next? path = .ok ((Path.next? path s).map Segment.stretch) := by
  have hrun := Sequence.run_le isSeparator (path.drop s.finish)
  rw [List.length_drop] at hrun
  rw [Stretch.next?, isOutside_stretch hsafe hs, finish_stretch (hs.trans hsafe),
    forwards_ofNat hsafe hs, isSeparator_beq_true, if_neg Bool.false_ne_true]
  unfold Path.next?
  dsimp only
  have hstart : s.finish + Sequence.run isSeparator (path.drop s.finish) ≤ Double.maxSafe := by
    omega
  generalize s.finish + Sequence.run isSeparator (path.drop s.finish) = start at hstart ⊢
  have hdone :
      ((Double.ofNat start).above path.length || (Double.ofNat start).isWhole path.length) =
      decide (path.length ≤ start) := by
    rw [Double.above_ofNat hstart, Double.isWhole_ofNat hstart, ← Bool.decide_or, decide_eq_decide]
    omega
  rw [hdone]
  by_cases hlt : start < path.length
  · have hwithin := Sequence.run_le (fun u => !isSeparator u) (path.drop start)
    rw [List.length_drop] at hwithin
    rw [if_pos hlt, if_neg (by simpa using hlt), forwards_ofNat hsafe hlt.le,
      isSeparator_beq_false, between_ofNat (by omega) (Nat.le_add_right _ _),
      Nat.add_sub_cancel_left]
    rfl
  · rw [if_neg hlt, if_pos (by simpa using hlt)]
    rfl

/-- The step backwards from a segment inside its path is that of its stretch, which never fails. -/
theorem previous?_stretch (hsafe : path.length ≤ Double.maxSafe) (hs : s.finish ≤ path.length) :
    s.stretch.previous? path = .ok ((Path.previous? path s).map Segment.stretch) := by
  have hoffset : s.offset ≤ path.length := Nat.le_of_add_right_le hs
  rw [Stretch.previous?, isOutside_stretch hsafe hs, if_neg Bool.false_ne_true, Segment.stretch,
    Double.isWhole_ofNat (by omega), backwards_ofNat hsafe hoffset, isSeparator_beq_true,
    Path.previous?, before?]
  dsimp only
  by_cases hzero : s.offset = 0
  · rw [if_pos hzero, if_pos (by simp [hzero])]
    rfl
  · rw [if_neg hzero, if_neg (by simp [hzero])]
    have hfinish : s.offset - Sequence.run isSeparator (path.take s.offset).reverse ≤
        path.length := by omega
    generalize s.offset - Sequence.run isSeparator (path.take s.offset).reverse = finish
      at hfinish ⊢
    rw [Double.isWhole_ofNat (by omega)]
    by_cases hroot : finish = 0
    · rw [if_pos hroot, if_pos (by simp [hroot])]
      rfl
    · obtain ⟨hle, -, -⟩ := passes_front (fun u => !isSeparator u) hfinish
      rw [if_neg hroot, if_neg (by simp [hroot]), backwards_ofNat hsafe hfinish,
        isSeparator_beq_false, between_ofNat (by omega) (Nat.sub_le _ _), Nat.sub_sub_self hle]
      rfl

end TextUnits.Path
