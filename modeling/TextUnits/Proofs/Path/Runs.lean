import TextUnits.Path
import TextUnits.Proofs.Scan.Within
import Mathlib.Data.List.TakeWhile
import Mathlib.Tactic.Common

/-!
# Runs between the separators of a path

The segments of a path other than the root are its runs: the longest stretches without a separator
that are not empty. A place lies in one run at most, and one segment follows another when nothing
but separators stands between them. Steps are told by this alone: `next?` gives the run that follows
a segment and `previous?` the segment that a run follows, so each undoes the other.
-/

namespace TextUnits

/-- The items of a run pass its test. -/
theorem Sequence.exists_of_lt_run {β : Type} {test : β → Bool} {xs : List β} {i : Nat}
    (h : i < run test xs) : ∃ x, xs[i]? = some x ∧ test x = true := by
  have hfront := List.takeWhile_prefix (l := xs) test
  have hi : i < xs.length := h.trans_le hfront.length_le
  refine ⟨xs[i], List.getElem?_eq_getElem hi, ?_⟩
  rw [← hfront.getElem h]
  exact List.mem_takeWhile_imp (List.getElem_mem h)

/-- The item behind a run does not pass its test. -/
theorem Sequence.not_of_getElem?_run {β : Type} {test : β → Bool} (xs : List β) {x : β}
    (h : xs[run test xs]? = some x) : test x = false := by
  rw [← List.head?_drop] at h
  exact not_of_mem_head?_drop_run test xs x h

namespace Path

/-- A separator, `/` or `\`, stands at a place of a path. -/
def Separates (path : Text) (i : Nat) : Prop := path[i]? = some 0x2F ∨ path[i]? = some 0x5C

instance (path : Text) (i : Nat) : Decidable (Separates path i) := instDecidableOr

/-- A longest stretch of a path that is not empty and holds no separator. -/
structure IsRun (path : Text) (s : Segment) : Prop where
  /-- It is not empty. -/
  nonempty : 0 < s.length
  /-- It lies within the path. -/
  within : s.finish ≤ path.length
  /-- It holds no separator. -/
  plain : ∀ i, s.offset ≤ i → i < s.finish → ¬ Separates path i
  /-- It does not go on in front. -/
  front : s.offset = 0 ∨ Separates path (s.offset - 1)
  /-- It does not go on behind. -/
  behind : s.finish = path.length ∨ Separates path s.finish

/-- A stretch is a run of a path or its root, which a path has that starts with a separator. -/
def IsSegment (path : Text) (s : Segment) : Prop :=
  s = ⟨0, 0⟩ ∧ Separates path 0 ∨ IsRun path s

/-- Nothing but separators stands between the end of a stretch and a place behind it. -/
def Closes (path : Text) (s : Segment) (o : Nat) : Prop :=
  s.finish ≤ o ∧ ∀ i, s.finish ≤ i → i < o → Separates path i

/-- A stretch stands behind another one with nothing but separators, one at least, between them. -/
def Follows (path : Text) (s t : Segment) : Prop := s.finish < t.offset ∧ Closes path s t.offset

variable {path : Text} {s t u : Segment} {o i : Nat}

theorem separates_iff : Separates path i ↔ ∃ u, path[i]? = some u ∧ isSeparator u = true := by
  unfold Separates isSeparator
  cases path[i]? with
  | none => simp
  | some u => simp

theorem Separates.lt (h : Separates path i) : i < path.length := by
  obtain ⟨u, hu, -⟩ := separates_iff.mp h
  exact (List.getElem?_eq_some_iff.mp hu).1

/-- Units from a place on that pass a test, and the one that ends them. -/
theorem passes_behind (test : UInt16 → Bool) (path : Text) (o : Nat) :
    (∀ i, o ≤ i → i < o + Sequence.run test (path.drop o) →
        ∃ u, path[i]? = some u ∧ test u = true) ∧
      ∀ u, path[o + Sequence.run test (path.drop o)]? = some u → test u = false := by
  refine ⟨fun i hle hlt => ?_, fun u hu => Sequence.not_of_getElem?_run (path.drop o) ?_⟩
  · have hi : i - o < Sequence.run test (path.drop o) := by omega
    obtain ⟨u, hu, htest⟩ := Sequence.exists_of_lt_run hi
    rw [List.getElem?_drop, Nat.add_sub_cancel' hle] at hu
    exact ⟨u, hu, htest⟩
  · rw [List.getElem?_drop]
    exact hu

/-- Units in front of a place that pass a test, and the one that ends them. -/
theorem passes_front (test : UInt16 → Bool) (ho : o ≤ path.length) :
    Sequence.run test (path.take o).reverse ≤ o ∧
      (∀ i, o - Sequence.run test (path.take o).reverse ≤ i → i < o →
        ∃ u, path[i]? = some u ∧ test u = true) ∧
      ∀ i, i + 1 = o - Sequence.run test (path.take o).reverse →
        ∀ u, path[i]? = some u → test u = false := by
  have hlength : (path.take o).length = o := List.length_take_of_le ho
  have hmirror : ∀ i < o, (path.take o).reverse[i]? = path[o - 1 - i]? := by
    intro i hi
    rw [List.getElem?_reverse (hlength.symm ▸ hi), hlength, List.getElem?_take, if_pos (by omega)]
  have hle : Sequence.run test (path.take o).reverse ≤ o := by
    have hwithin := Sequence.run_le test (path.take o).reverse
    rwa [List.length_reverse, hlength] at hwithin
  refine ⟨hle, fun i hge hlt => ?_,
    fun i hi u hu => Sequence.not_of_getElem?_run (path.take o).reverse ?_⟩
  · have hi : o - 1 - i < Sequence.run test (path.take o).reverse := by omega
    obtain ⟨u, hu, htest⟩ := Sequence.exists_of_lt_run hi
    rw [hmirror _ (by omega), show o - 1 - (o - 1 - i) = i by omega] at hu
    exact ⟨u, hu, htest⟩
  · rw [hmirror _ (by omega), show o - 1 - Sequence.run test (path.take o).reverse = i by omega]
    exact hu

/-- What stands at a place of a path separates segments or does not. -/
theorem not_separates_iff (h : i < path.length) :
    ¬ Separates path i ↔ ∃ u, path[i]? = some u ∧ (!isSeparator u) = true := by
  rw [separates_iff, List.getElem?_eq_getElem h]
  simp

/-- From a unit that is no separator on there are none up to the next one or the end. -/
theorem plain_segmentAt (ho : o < path.length) (hplain : ¬ Separates path o) :
    o < (segmentAt path o).finish ∧ (segmentAt path o).finish ≤ path.length ∧
      (∀ i, o ≤ i → i < (segmentAt path o).finish → ¬ Separates path i) ∧
      ((segmentAt path o).finish = path.length ∨ Separates path (segmentAt path o).finish) := by
  obtain ⟨hpass, hend⟩ := passes_behind (fun u => !isSeparator u) path o
  have hle := Sequence.run_le (fun u => !isSeparator u) (path.drop o)
  rw [List.length_drop] at hle
  unfold Segment.finish segmentAt
  dsimp only
  generalize Sequence.run (fun u => !isSeparator u) (path.drop o) = count at hpass hend hle ⊢
  have hbehind : ∀ i, i = o + count → i < path.length → Separates path i := by
    rintro i rfl hi
    have hu := List.getElem?_eq_getElem hi
    exact separates_iff.mpr ⟨_, hu, by simpa using hend _ hu⟩
  have hpos : 0 < count := Nat.pos_of_ne_zero fun hzero => hplain (hbehind o (by omega) ho)
  refine ⟨by omega, by omega, fun i hge hlt => ?_, ?_⟩
  · exact (not_separates_iff (by omega)).mpr (hpass i hge hlt)
  · by_cases hlt : o + count < path.length
    · exact .inr (hbehind _ rfl hlt)
    · exact .inl (by omega)

/-- At the start of a path, or behind a separator, a unit that is no separator starts a run. -/
theorem isRun_segmentAt (ho : o < path.length) (hplain : ¬ Separates path o)
    (hfront : o = 0 ∨ Separates path (o - 1)) : IsRun path (segmentAt path o) := by
  obtain ⟨hlt, hwithin, hall, hbehind⟩ := plain_segmentAt ho hplain
  exact ⟨Nat.lt_add_right_iff_pos.mp hlt, hwithin, hall, hfront, hbehind⟩

/-- What stands in front of the end of a path, or of a separator, ends a run unless it is a
separator. -/
theorem exists_isRun_of_finish (ho : 0 < o) (hwithin : o ≤ path.length)
    (hplain : ¬ Separates path (o - 1)) (hbehind : o = path.length ∨ Separates path o) :
    IsRun path ⟨o - Sequence.run (fun u => !isSeparator u) (path.take o).reverse,
      Sequence.run (fun u => !isSeparator u) (path.take o).reverse⟩ := by
  obtain ⟨hle, hpass, hend⟩ := passes_front (fun u => !isSeparator u) hwithin
  generalize Sequence.run (fun u => !isSeparator u) (path.take o).reverse = length at hle hpass hend
  have hfinish : (Segment.mk (o - length) length).finish = o := Nat.sub_add_cancel hle
  have hfront : ∀ i, i + 1 = o - length → Separates path i := by
    intro i hi
    have hu := List.getElem?_eq_getElem (show i < path.length by omega)
    exact separates_iff.mpr ⟨_, hu, by simpa using hend i hi _ hu⟩
  refine ⟨Nat.pos_of_ne_zero fun hzero => ?_, hfinish.symm ▸ hwithin, fun i hge hlt => ?_, ?_,
    hfinish.symm ▸ hbehind⟩
  · exact hplain (hfront (o - 1) (by dsimp only at hzero; omega))
  · rw [hfinish] at hlt
    exact (not_separates_iff (by omega)).mpr (hpass i hge hlt)
  · rcases Nat.eq_zero_or_pos (o - length) with hzero | hpos
    · exact .inl hzero
    · exact .inr (hfront _ (Nat.sub_add_cancel hpos))

/-- What is no separator lies in a run. -/
theorem exists_isRun_of_plain (hi : i < path.length) (hplain : ¬ Separates path i) :
    ∃ s, IsRun path s ∧ s.offset ≤ i ∧ i < s.finish := by
  obtain ⟨hlt, hwithin, hall, hbehind⟩ := plain_segmentAt hi hplain
  have hle := (passes_front (fun u => !isSeparator u) hwithin).1
  have hrun := exists_isRun_of_finish (by omega) hwithin (hall _ (by omega) (by omega)) hbehind
  have hfinish := Nat.sub_add_cancel hle
  refine ⟨_, hrun, Nat.le_of_not_lt fun hbefore => ?_, hlt.trans_eq hfinish.symm⟩
  -- A run that starts behind the place would start behind a separator that is none.
  have hfront := hrun.front.resolve_left (Nat.ne_of_gt (Nat.zero_lt_of_lt hbefore))
  exact hall _ (Nat.le_sub_one_of_lt hbefore) (by dsimp only; omega) hfront

namespace IsRun

theorem lt (h : IsRun path s) : s.offset < s.finish := Nat.lt_add_of_pos_right h.nonempty

/-- A run starts at a unit that is no separator. -/
theorem not_separates (h : IsRun path s) : ¬ Separates path s.offset :=
  h.plain _ (Nat.le_refl _) h.lt

/-- A run that starts no later than another one ends reaches no farther. -/
theorem finish_le (hs : IsRun path s) (ht : IsRun path t) (h : t.offset ≤ s.finish) :
    t.finish ≤ s.finish := by
  rcases hs.behind with hend | hsep
  · exact hend ▸ ht.within
  · exact Nat.le_of_not_lt fun hlt => ht.plain _ h hlt hsep

/-- Runs that start at one place are the same. -/
theorem eq_of_offset (hs : IsRun path s) (ht : IsRun path t) (h : s.offset = t.offset) : s = t := by
  have hslt := hs.lt
  have htlt := ht.lt
  have hle := hs.finish_le ht (by omega)
  have hge := ht.finish_le hs (by omega)
  cases s
  cases t
  simp only [Segment.finish] at *
  congr
  omega

/-- A run that starts before another one ends in front of it. -/
theorem finish_lt (hs : IsRun path s) (ht : IsRun path t) (h : s.offset < t.offset) :
    s.finish < t.offset := by
  have hfront : Separates path (t.offset - 1) := ht.front.resolve_left (by omega)
  have hle : s.finish ≤ t.offset - 1 := Nat.le_of_not_lt fun hlt =>
    hs.plain _ (by omega) hlt hfront
  omega

end IsRun

namespace IsSegment

theorem within (h : IsSegment path s) : s.finish ≤ path.length := by
  rcases h with ⟨rfl, -⟩ | hrun
  · exact Nat.zero_le _
  · exact hrun.within

/-- A segment ends with the path or in front of a separator. -/
theorem behind (h : IsSegment path s) : s.finish = path.length ∨ Separates path s.finish := by
  rcases h with ⟨rfl, hroot⟩ | hrun
  · exact .inr hroot
  · exact hrun.behind

theorem ne_nil (h : IsSegment path s) : path ≠ [] := by
  rcases h with ⟨-, hroot⟩ | hrun
  · exact List.ne_nil_of_length_pos (Nat.zero_lt_of_lt hroot.lt)
  · exact List.ne_nil_of_length_pos (Nat.zero_lt_of_lt (hrun.lt.trans_le hrun.within))

/-- A segment that starts with the path is the first one; the others are runs behind it. -/
theorem eq_or_lt (ht : IsSegment path t) (hzero : t.offset = 0) (hs : IsSegment path s) :
    s = t ∨ IsRun path s ∧ t.finish < s.offset := by
  rcases hs with ⟨rfl, hroot⟩ | hs <;> rcases ht with ⟨rfl, hfirst⟩ | ht
  · exact .inl rfl
  · exact absurd (hzero ▸ hroot) ht.not_separates
  · refine .inr ⟨hs, Nat.pos_of_ne_zero fun heq => ?_⟩
    exact hs.not_separates (heq ▸ hfirst)
  · rcases Nat.eq_zero_or_pos s.offset with heq | hpos
    · exact .inl (hs.eq_of_offset ht (heq.trans hzero.symm))
    · exact .inr ⟨hs, ht.finish_lt hs (hzero ▸ hpos)⟩

/-- Segments that nothing but separators part from one place are the same. -/
theorem eq_of_closes (hs : IsSegment path s) (ht : IsSegment path t) (hsc : Closes path s o)
    (htc : Closes path t o) : s = t := by
  -- Of two runs the last units would part them, and a run does not stand behind the root alone.
  have hnot : ∀ {s t}, IsRun path t → Closes path s o → Closes path t o →
      ¬ s.finish < t.finish := by
    intro s t ht hsc htc hlt
    have htlt := ht.lt
    have hto := htc.1
    exact ht.plain (t.finish - 1) (by omega) (by omega) (hsc.2 _ (by omega) (by omega))
  rcases hs with ⟨rfl, hroot⟩ | hs <;> rcases ht with ⟨rfl, -⟩ | ht
  · rfl
  · exact absurd (Nat.zero_lt_of_lt ht.lt) (hnot ht hsc htc)
  · exact absurd (Nat.zero_lt_of_lt hs.lt) (hnot hs htc hsc)
  · have hst := hnot ht hsc htc
    have hts := hnot hs htc hsc
    rcases Nat.lt_trichotomy s.offset t.offset with hlt | heq | hlt
    · have := hs.finish_lt ht hlt
      have := ht.lt
      omega
    · exact hs.eq_of_offset ht heq
    · have := ht.finish_lt hs hlt
      have := hs.lt
      omega

end IsSegment

/-- Runs that follow one stretch are the same. -/
theorem IsRun.eq_of_follows (ht : IsRun path t) (hu : IsRun path u) (hst : Follows path s t)
    (hsu : Follows path s u) : t = u := by
  rcases Nat.lt_trichotomy t.offset u.offset with hlt | heq | hlt
  · exact absurd (hsu.2.2 _ hst.1.le hlt) ht.not_separates
  · exact ht.eq_of_offset hu heq
  · exact absurd (hst.2.2 _ hsu.1.le hlt) hu.not_separates

/-- Behind a segment comes the run that follows it, or there are only separators. -/
theorem next?_cases (hs : IsSegment path s) :
    (∃ t, next? path s = some t ∧ IsRun path t ∧ Follows path s t) ∨
      next? path s = none ∧ Closes path s path.length := by
  obtain ⟨hpass, hend⟩ := passes_behind isSeparator path s.finish
  have hle := Nat.le_add_right s.finish (Sequence.run isSeparator (path.drop s.finish))
  unfold next?
  dsimp only
  generalize s.finish + Sequence.run isSeparator (path.drop s.finish) = start at hpass hend hle ⊢
  have hbetween : ∀ i, s.finish ≤ i → i < start → Separates path i :=
    fun i hge hlt => separates_iff.mpr (hpass i hge hlt)
  have hplain : ¬ Separates path start := by
    intro hsep
    obtain ⟨u, hu, htest⟩ := separates_iff.mp hsep
    exact Bool.false_ne_true ((hend u hu).symm.trans htest)
  by_cases hstart : start < path.length
  · -- A segment ends in front of a separator, so at least one is passed over.
    have hlt : s.finish < start := by
      rcases hs.behind with heq | hsep
      · omega
      · exact Nat.lt_of_le_of_ne hle fun heq => hplain (heq ▸ hsep)
    refine .inl ⟨_, if_pos hstart, isRun_segmentAt hstart hplain (.inr ?_), hlt, hle, hbetween⟩
    exact hbetween _ (Nat.le_sub_one_of_lt hlt) (by omega)
  · refine .inr ⟨if_neg hstart, hs.within, fun i hge hlt => hbetween i hge (by omega)⟩

/-- The segment behind a segment is the run that follows it. -/
theorem next?_eq_some_iff (hs : IsSegment path s) :
    next? path s = some t ↔ IsRun path t ∧ Follows path s t := by
  refine ⟨fun h => ?_, fun ⟨ht, hst⟩ => ?_⟩
  · rcases next?_cases hs with ⟨u, hu, hrun⟩ | ⟨hnone, -⟩
    · cases h.symm.trans hu
      exact hrun
    · cases h.symm.trans hnone
  · rcases next?_cases hs with ⟨u, hu, hrun, hsu⟩ | ⟨-, -, hseps⟩
    · exact hu.trans (congrArg some (hrun.eq_of_follows ht hsu hst))
    · exact absurd (hseps _ hst.1.le (Nat.lt_of_lt_of_le ht.lt ht.within)) ht.not_separates

/-- In front of the end of a path, or of a run that is not its first segment, stands the segment
that nothing but separators part from there. -/
theorem before?_closes (ho : 0 < o) (hwithin : o ≤ path.length)
    (hbound : o = path.length ∨ Separates path (o - 1)) :
    ∃ s, before? path o = some s ∧ IsSegment path s ∧ Closes path s o := by
  obtain ⟨hle, hpass, hend⟩ := passes_front isSeparator hwithin
  unfold before?
  dsimp only
  rw [if_neg ho.ne']
  generalize Sequence.run isSeparator (path.take o).reverse = count at hle hpass hend ⊢
  have hbetween : ∀ i, o - count ≤ i → i < o → Separates path i :=
    fun i hge hlt => separates_iff.mpr (hpass i hge hlt)
  by_cases hzero : o - count = 0
  · rw [if_pos hzero]
    refine ⟨_, rfl, .inl ⟨rfl, hbetween 0 (by omega) ho⟩, Nat.zero_le o, fun i _ hlt => ?_⟩
    exact hbetween i (by omega) hlt
  · rw [if_neg hzero]
    have hplain : ¬ Separates path (o - count - 1) := by
      intro hsep
      obtain ⟨u, hu, htest⟩ := separates_iff.mp hsep
      exact Bool.false_ne_true ((hend _ (by omega) u hu).symm.trans htest)
    have hbehind : o - count = path.length ∨ Separates path (o - count) := by
      rcases Nat.eq_zero_or_pos count with rfl | hpos
      · rcases hbound with heq | hsep
        · exact .inl heq
        · exact absurd hsep hplain
      · exact .inr (hbetween _ (Nat.le_refl _) (by omega))
    have hrun := exists_isRun_of_finish (by omega) (by omega) hplain hbehind
    have hsize := (passes_front (fun u => !isSeparator u) (show o - count ≤ path.length by omega)).1
    have hfinish := Nat.sub_add_cancel hsize
    refine ⟨_, rfl, .inr hrun, ?_, fun i hge hlt => hbetween i ?_ hlt⟩
    · exact hfinish.trans_le (Nat.sub_le o count)
    · exact hfinish.symm.trans_le hge

/-- A run that is not the first segment stands behind a separator; what nothing but separators part
from its start, it follows. -/
theorem IsRun.follows_of_closes (ht : IsRun path t) (hs : IsSegment path s) (hpos : 0 < t.offset)
    (h : Closes path s t.offset) : Follows path s t := by
  refine ⟨Nat.lt_of_le_of_ne h.1 fun heq => ?_, h⟩
  have hsep : Separates path (t.offset - 1) := ht.front.resolve_left hpos.ne'
  rcases hs with ⟨rfl, -⟩ | hs
  · exact hpos.ne heq
  · have := hs.lt
    exact hs.plain (t.offset - 1) (by omega) (by omega) hsep

/-- The segment in front of a run is the one that it follows. -/
theorem previous?_eq_some_iff (ht : IsRun path t) :
    previous? path t = some s ↔ IsSegment path s ∧ Follows path s t := by
  rcases Nat.eq_zero_or_pos t.offset with hzero | hpos
  · rw [previous?, before?, if_pos hzero]
    refine iff_of_false (by simp) fun h => ?_
    have := h.2.1
    omega
  · have hwithin : t.offset ≤ path.length := ht.lt.le.trans ht.within
    obtain ⟨u, hu, husegment, hclose⟩ :=
      before?_closes hpos hwithin (.inr (ht.front.resolve_left hpos.ne'))
    rw [previous?, hu, Option.some.injEq]
    refine ⟨fun h => ?_, fun ⟨hs, hst⟩ => husegment.eq_of_closes hs hclose hst.2⟩
    rw [← h]
    exact ⟨husegment, ht.follows_of_closes husegment hpos hclose⟩

/-- The root has no segment in front of it. -/
theorem previous?_root (path : Text) : previous? path ⟨0, 0⟩ = none := by
  rw [previous?, before?, if_pos rfl]

/-- A path that is not empty starts with a segment. -/
theorem first?_spec (h : path ≠ []) :
    ∃ s, first? path = some s ∧ s.offset = 0 ∧ IsSegment path s := by
  have hlength : 0 < path.length := List.length_pos_iff.mpr h
  refine ⟨segmentAt path 0, ?_, rfl, ?_⟩
  · exact if_neg (mt List.isEmpty_iff.mp h)
  · by_cases hroot : Separates path 0
    · obtain ⟨hpass, -⟩ := passes_behind (fun u => !isSeparator u) path 0
      have hlength : (segmentAt path 0).length = 0 := Nat.eq_zero_of_not_pos fun hpos =>
        (not_separates_iff hlength).mpr (hpass 0 (Nat.le_refl 0) (by rwa [Nat.zero_add])) hroot
      exact .inl ⟨congrArg (Segment.mk 0) hlength, hroot⟩
    · exact .inr (isRun_segmentAt hlength hroot (.inl rfl))

/-- The last segment of a path has only separators behind it. -/
theorem last?_spec (h : path ≠ []) :
    ∃ s, last? path = some s ∧ IsSegment path s ∧ Closes path s path.length := by
  obtain ⟨s, hs, hspec⟩ := before?_closes (List.length_pos_iff.mpr h) (Nat.le_refl _) (.inl rfl)
  exact ⟨s, (if_neg (mt List.isEmpty_iff.mp h)).trans hs, hspec⟩

end Path

end TextUnits
