import TextUnits.Proofs.Path.Stretches

/-!
# Walks along a path

A walk goes on by steps until a step gives nothing. Forwards from the first segment it meets the
root, if the path has one, and then the runs of the path from the first to the last, so that only
separators are passed over. Backwards from the last segment it meets the same segments the other way
round, because each step backwards undoes the step forwards that led there.
-/

namespace TextUnits.Path

/-- The segments that a walk meets, from where it starts to where its step gives nothing. -/
inductive Walk (step : Segment → Option Segment) : Option Segment → List Segment → Prop where
  /-- There is nothing to meet. -/
  | done : Walk step none []
  /-- A segment is met, and the walk goes on with the step from there. -/
  | visit {s : Segment} {later : List Segment} (h : Walk step (step s) later) :
      Walk step (some s) (s :: later)

variable {path : Text} {s t : Segment} {start : Option Segment} {met : List Segment}

theorem Follows.finish_lt (h : Follows path s t) (ht : IsRun path t) : s.finish < t.finish :=
  h.1.trans ht.lt

/-- From a segment on the walk forwards never has to be stopped: each step leads farther. -/
theorem forward_some (hs : IsSegment path s) :
    forward path (some s) = s :: forward path (next? path s) := by
  rw [forward]
  rcases next?_cases hs with ⟨t, ht, hrun, hfollows⟩ | ⟨hnone, -⟩
  · rw [ht]
    dsimp only
    rw [if_pos (hfollows.finish_lt hrun)]
  · rw [hnone, forward]

theorem backward_some (hs : IsSegment path s) :
    backward path (some s) = s :: backward path (previous? path s) := by
  rw [backward]
  cases hprevious : previous? path s with
  | none => rw [backward]
  | some t =>
    have hlt : t.offset < s.offset := by
      rcases hs with ⟨rfl, -⟩ | hrun
      · rw [previous?_root] at hprevious
        cases hprevious
      · have hfollows := ((previous?_eq_some_iff hrun).mp hprevious).2
        exact (Nat.le_add_right _ _).trans_lt hfollows.1
    dsimp only
    rw [if_pos hlt]

/-- Segments from one on are met by the walk forwards, which ends. -/
theorem forward_walk (hs : ∀ s ∈ start, IsSegment path s) :
    Walk (next? path) start (forward path start) := by
  induction start using forward.induct path with
  | case1 =>
    rw [forward]
    exact .done
  | case2 s ih =>
    have hsegment := hs s rfl
    rw [forward_some hsegment]
    refine .visit ?_
    rcases next?_cases hsegment with ⟨t, ht, hrun, hfollows⟩ | ⟨hnone, -⟩
    · rw [ht]
      refine ih t ht (hfollows.finish_lt hrun) fun u hu => ?_
      cases hu
      exact .inr hrun
    · rw [hnone, forward]
      exact .done

/-- A walk backwards from a segment meets the segments that are listed from there. -/
theorem backward_eq_of_walk (h : Walk (previous? path) start met)
    (hs : ∀ s ∈ start, IsSegment path s) : backward path start = met := by
  induction h with
  | done => rw [backward]
  | @visit s later _ ih =>
    have hsegment := hs s rfl
    rw [backward_some hsegment, ih fun t ht => ?_]
    rcases hsegment with ⟨rfl, -⟩ | hrun
    · rw [previous?_root] at ht
      cases ht
    · exact ((previous?_eq_some_iff hrun).mp ht).1

/-- A walk that meets segments can be walked the other way round if each of its steps can be
undone: from the last segment that it meets, and on from the first one. -/
theorem Walk.reverse {next previous : Segment → Option Segment} {behind : List Segment}
    (h : Walk next start met) (hs : ∀ s ∈ start, Walk previous (previous s) behind)
    (hback : ∀ s ∈ met, ∀ t, next s = some t → previous t = some s) :
    ∀ s ∈ met.getLast?, Walk previous (some s) (met.reverse ++ behind) := by
  induction h generalizing behind with
  | done => intro s hs; cases hs
  | @visit s later hwalk ih =>
    have hfirst : Walk previous (some s) (s :: behind) := .visit (hs s rfl)
    rw [List.forall_mem_cons] at hback
    rw [List.reverse_cons, List.append_assoc, List.singleton_append]
    cases hnext : next s with
    | none =>
      rw [hnext] at hwalk
      cases hwalk
      intro t ht
      cases ht
      exact hfirst
    | some t =>
      rw [hnext] at hwalk ih
      have hlast : (s :: later).getLast? = later.getLast? := by
        cases hwalk
        rfl
      rw [hlast]
      refine ih (fun u hu => ?_) hback.2
      cases hu
      rw [hback.1 t hnext]
      exact hfirst

/-- The walk forwards from a segment meets that segment and the runs behind it, in order and with a
separator between each two. -/
theorem Walk.mem_iff (h : Walk (next? path) start met) (hs : IsSegment path s)
    (hstart : start = some s) :
    (∀ t, t ∈ met ↔ t = s ∨ IsRun path t ∧ s.finish < t.offset) ∧
      met.Pairwise fun t u => t.finish < u.offset := by
  induction h generalizing s with
  | done => cases hstart
  | @visit first later hwalk ih =>
    obtain rfl : first = s := Option.some.inj hstart
    rcases next?_cases hs with ⟨next, hnext, hrun, hfollows⟩ | ⟨hnone, hclose⟩
    · obtain ⟨hmem, hordered⟩ := ih (.inr hrun) hnext
      have hlt := hrun.lt
      have hbehind : ∀ t, t ∈ later ↔ IsRun path t ∧ first.finish < t.offset := by
        intro t
        rw [hmem]
        refine ⟨?_, fun ⟨ht, hst⟩ => ?_⟩
        · rintro (rfl | ⟨ht, hnt⟩)
          · exact ⟨hrun, hfollows.1⟩
          · exact ⟨ht, hfollows.1.trans (hlt.trans hnt)⟩
        · rcases Nat.lt_trichotomy t.offset next.offset with hless | heq | hmore
          · exact absurd (hfollows.2.2 _ hst.le hless) ht.not_separates
          · exact .inl (ht.eq_of_offset hrun heq)
          · exact .inr ⟨ht, hrun.finish_lt ht hmore⟩
      refine ⟨fun t => ?_, List.pairwise_cons.mpr ⟨fun t ht => ((hbehind t).mp ht).2, hordered⟩⟩
      rw [List.mem_cons, hbehind]
    · rw [hnone] at hwalk
      cases hwalk
      refine ⟨fun t => ?_, List.pairwise_singleton _ _⟩
      rw [List.mem_singleton]
      refine ⟨.inl, fun h => h.resolve_right fun ⟨ht, hst⟩ => ?_⟩
      exact ht.not_separates (hclose.2 _ hst.le (ht.lt.trans_le ht.within))

/-- The walk forwards from the first segment of a path ends, and meets the listed segments. -/
theorem segments_walk (path : Text) : Walk (next? path) (first? path) (segments path) := by
  refine forward_walk fun s hs => ?_
  by_cases hempty : path = []
  · subst hempty
    cases hs
  · obtain ⟨first, hfirst, -, hsegment⟩ := first?_spec hempty
    cases hs.symm.trans hfirst
    exact hsegment

/-- The segments of a path are its runs and its root, in order and with a separator between each
two. -/
theorem segments_spec (path : Text) :
    (∀ s, s ∈ segments path ↔ IsSegment path s) ∧
      (segments path).Pairwise fun s t => s.finish < t.offset := by
  by_cases hempty : path = []
  · have hnone : segments path = [] := by
      rw [hempty, segments, first?, List.isEmpty_nil, if_pos rfl, forward]
    rw [hnone]
    exact ⟨fun s => iff_of_false List.not_mem_nil fun h => h.ne_nil hempty, .nil⟩
  · obtain ⟨first, hfirst, hzero, hsegment⟩ := first?_spec hempty
    obtain ⟨hmem, hordered⟩ := (segments_walk path).mem_iff hsegment hfirst
    refine ⟨fun s => (hmem s).trans ⟨?_, fun h => hsegment.eq_or_lt hzero h⟩, hordered⟩
    rintro (rfl | ⟨hrun, -⟩)
    · exact hsegment
    · exact .inr hrun

/-- No unit of a segment is a separator. -/
theorem IsSegment.plain_text (h : IsSegment path s) : ∀ u ∈ s.text path, u ≠ 0x2F ∧ u ≠ 0x5C := by
  intro u hu
  obtain ⟨i, hi⟩ := List.mem_iff_getElem?.mp hu
  rw [Segment.text, List.getElem?_take] at hi
  split_ifs at hi with hlt
  rw [List.getElem?_drop] at hi
  rcases h with ⟨rfl, -⟩ | hrun
  · exact absurd hlt (Nat.not_lt_zero i)
  · have hplain := hrun.plain (s.offset + i) (Nat.le_add_right _ _) (Nat.add_lt_add_left hlt _)
    rw [Separates, hi, Option.some.injEq, Option.some.injEq, not_or] at hplain
    exact hplain

/-- The runs of a path are what is listed behind its root. -/
theorem exists_runs (path : Text) :
    ∃ runs, segments path = (if Separates path 0 then [⟨0, 0⟩] else []) ++ runs ∧
      ∀ s, s ∈ runs ↔ IsRun path s := by
  obtain ⟨hmem, hordered⟩ := segments_spec path
  by_cases hroot : Separates path 0
  · obtain ⟨first, hfirst, hzero, hsegment⟩ := first?_spec (IsSegment.ne_nil (.inl ⟨rfl, hroot⟩))
    obtain rfl : first = ⟨0, 0⟩ := by
      rcases hsegment with ⟨rfl, -⟩ | hrun
      · rfl
      · exact absurd (hzero ▸ hroot) hrun.not_separates
    have hlist : segments path = ⟨0, 0⟩ :: forward path (next? path ⟨0, 0⟩) := by
      rw [segments, hfirst, forward_some hsegment]
    rw [hlist] at hmem hordered
    refine ⟨_, by rw [if_pos hroot, hlist]; rfl, fun s => ⟨fun hs => ?_, fun hrun => ?_⟩⟩
    · rcases (hmem s).mp (List.mem_cons_of_mem _ hs) with ⟨rfl, -⟩ | hrun
      · exact absurd ((List.pairwise_cons.mp hordered).1 _ hs) (Nat.lt_irrefl 0)
      · exact hrun
    · refine (List.mem_cons.mp ((hmem s).mpr (.inr hrun))).resolve_left ?_
      rintro rfl
      exact Nat.lt_irrefl 0 hrun.nonempty
  · refine ⟨segments path, by rw [if_neg hroot]; rfl, fun s => (hmem s).trans ?_⟩
    exact or_iff_right fun h => hroot h.2

/-- The listed segments are the root, which a path has that starts with a separator, and behind it
exactly the runs of the path. So they hold every unit but the separators and no separator, and each
starts behind the end of the one before. -/
theorem segments_runs (path : Text) :
    Walk (next? path) (first? path) (segments path) ∧
      (∃ runs, segments path = (if Separates path 0 then [⟨0, 0⟩] else []) ++ runs ∧
        ∀ s, s ∈ runs ↔ IsRun path s) ∧
      ((segments path).Pairwise fun s t => s.finish < t.offset) ∧
      (∀ s ∈ segments path, s.finish ≤ path.length ∧ ∀ u ∈ s.text path, u ≠ 0x2F ∧ u ≠ 0x5C) ∧
      ∀ i < path.length, ¬ Separates path i →
        ∃ s ∈ segments path, s.offset ≤ i ∧ i < s.finish := by
  obtain ⟨hmem, hordered⟩ := segments_spec path
  refine ⟨segments_walk path, exists_runs path, hordered, fun s hs => ?_, fun i hi hplain => ?_⟩
  · have hsegment := (hmem s).mp hs
    exact ⟨hsegment.within, hsegment.plain_text⟩
  · obtain ⟨s, hrun, hlow, hhigh⟩ := exists_isRun_of_plain hi hplain
    exact ⟨s, (hmem s).mpr (.inr hrun), hlow, hhigh⟩

/-- Separators of both kinds, several of them in a row and one at the end part two runs. -/
theorem segments_runs_mixed :
    segments (Text.ofString "//a\\\\b/") = [⟨0, 0⟩, ⟨2, 1⟩, ⟨5, 1⟩] ∧
      ((⟨5, 1⟩ : Segment) ∈ segments (Text.ofString "//a\\\\b/") ∧
        ∀ u ∈ (⟨5, 1⟩ : Segment).text (Text.ofString "//a\\\\b/"), u ≠ 0x2F ∧ u ≠ 0x5C) ∧
      (2 < (Text.ofString "//a\\\\b/").length ∧ ¬ Separates (Text.ofString "//a\\\\b/") 2 ∧
        ∃ s ∈ segments (Text.ofString "//a\\\\b/"), s.offset ≤ 2 ∧ 2 < s.finish) := by
  have hlist : segments (Text.ofString "//a\\\\b/") = [⟨0, 0⟩, ⟨2, 1⟩, ⟨5, 1⟩] := by
    with_unfolding_all rfl
  have hmem : (⟨5, 1⟩ : Segment) ∈ segments (Text.ofString "//a\\\\b/") := by
    rw [hlist]
    decide
  obtain ⟨-, -, -, hplain, hheld⟩ := segments_runs (Text.ofString "//a\\\\b/")
  exact ⟨hlist, ⟨hmem, (hplain _ hmem).2⟩, by decide, by decide, hheld 2 (by decide) (by decide)⟩

/-- The step from the last segment that a walk meets gives nothing. -/
theorem Walk.step_getLast? {step : Segment → Option Segment} (h : Walk step start met) :
    ∀ s ∈ met.getLast?, step s = none := by
  induction h with
  | done => intro s hs; cases hs
  | @visit first later hwalk ih =>
    cases hstep : step first with
    | none =>
      rw [hstep] at hwalk
      cases hwalk
      intro s hs
      cases hs
      exact hstep
    | some t =>
      rw [hstep] at hwalk
      cases hwalk
      exact ih

/-- The segment that is found first from the end of a path is the last one listed. -/
theorem getLast?_segments (path : Text) : (segments path).getLast? = last? path := by
  obtain ⟨hmem, -⟩ := segments_spec path
  cases hlast : (segments path).getLast? with
  | none =>
    by_cases hempty : path = []
    · rw [hempty]
      rfl
    · obtain ⟨s, -, -, hsegment⟩ := first?_spec hempty
      have hs := (hmem s).mpr hsegment
      rw [List.getLast?_eq_none_iff.mp hlast] at hs
      cases hs
  | some s =>
    have hsegment := (hmem s).mp (List.mem_of_getLast? hlast)
    obtain ⟨t, ht, htsegment, hclose⟩ := last?_spec hsegment.ne_nil
    have hnone := (segments_walk path).step_getLast? s hlast
    rcases next?_cases hsegment with ⟨u, hu, -⟩ | ⟨-, hend⟩
    · cases hnone.symm.trans hu
    · rw [ht, hsegment.eq_of_closes htsegment hend hclose]

/-- A step forwards from a segment is undone by a step backwards. -/
theorem previous?_of_next? (hs : IsSegment path s) (h : next? path s = some t) :
    previous? path t = some s := by
  obtain ⟨hrun, hfollows⟩ := (next?_eq_some_iff hs).mp h
  exact (previous?_eq_some_iff hrun).mpr ⟨hs, hfollows⟩

/-- A step backwards from a segment is undone by a step forwards. -/
theorem next?_of_previous? (hs : IsSegment path s) (h : previous? path s = some t) :
    next? path t = some s := by
  rcases hs with ⟨rfl, -⟩ | hrun
  · rw [previous?_root] at h
    cases h
  · obtain ⟨hsegment, hfollows⟩ := (previous?_eq_some_iff hrun).mp h
    exact (next?_eq_some_iff hsegment).mpr ⟨hrun, hfollows⟩

/-- The walk backwards from the last segment of a path ends, and meets the listed segments the other
way round. -/
theorem reverse_walk (path : Text) :
    Walk (previous? path) (last? path) (segments path).reverse := by
  obtain ⟨hmem, -⟩ := segments_spec path
  have hback : ∀ s ∈ segments path, ∀ t, next? path s = some t → previous? path t = some s :=
    fun s hs t => previous?_of_next? ((hmem s).mp hs)
  have hfirst : ∀ s ∈ first? path, Walk (previous? path) (previous? path s) [] := by
    intro s hs
    by_cases hempty : path = []
    · subst hempty
      cases hs
    · obtain ⟨first, hfirst, hzero, -⟩ := first?_spec hempty
      cases hs.symm.trans hfirst
      rw [previous?, before?, if_pos hzero]
      exact .done
  have hwalk := (segments_walk path).reverse hfirst hback
  rw [getLast?_segments, List.append_nil] at hwalk
  cases hlast : last? path with
  | none =>
    rw [List.getLast?_eq_none_iff.mp ((getLast?_segments path).trans hlast)]
    exact .done
  | some s => exact hwalk s hlast

/-- Walking a path backwards from its last segment meets exactly the segments of the walk forwards,
the other way round; both walks end, and each step undoes the other one. In a path whose length is
a safe number, steps between stretches lead to the same segments and do not fail. -/
theorem walks_opposite (path : Text) :
    Walk (next? path) (first? path) (segments path) ∧
      Walk (previous? path) (last? path) (segments path).reverse ∧
      backward path (last? path) = (segments path).reverse ∧
      (∀ s ∈ segments path, (∀ t, next? path s = some t → previous? path t = some s) ∧
        ∀ t, previous? path s = some t → next? path t = some s) ∧
      (path.length ≤ Double.maxSafe → ∀ s ∈ segments path,
        s.stretch.next? path = .ok ((next? path s).map Segment.stretch) ∧
          s.stretch.previous? path = .ok ((previous? path s).map Segment.stretch)) := by
  obtain ⟨hmem, -⟩ := segments_spec path
  have hlast : ∀ s ∈ last? path, IsSegment path s := fun s hs =>
    (hmem s).mp (List.mem_of_getLast? ((getLast?_segments path).trans hs))
  refine ⟨segments_walk path, reverse_walk path, backward_eq_of_walk (reverse_walk path) hlast,
    fun s hs => ?_, fun hsafe s hs => ?_⟩
  · have hsegment := (hmem s).mp hs
    exact ⟨fun t => previous?_of_next? hsegment, fun t => next?_of_previous? hsegment⟩
  · have hwithin := ((hmem s).mp hs).within
    exact ⟨next?_stretch hsafe hwithin, previous?_stretch hsafe hwithin⟩

/-- From `b` in `\a//b` the step backwards leads to `a`, and the step forwards from there back. -/
theorem walks_opposite_inner :
    ((⟨4, 1⟩ : Segment) ∈ segments (Text.ofString "\\a//b") ∧
        (⟨1, 1⟩ : Segment) ∈ segments (Text.ofString "\\a//b")) ∧
      previous? (Text.ofString "\\a//b") ⟨4, 1⟩ = some ⟨1, 1⟩ ∧
      next? (Text.ofString "\\a//b") ⟨1, 1⟩ = some ⟨4, 1⟩ ∧
      (Text.ofString "\\a//b").length ≤ Double.maxSafe ∧
      (Segment.mk 4 1).stretch.previous? (Text.ofString "\\a//b") =
        .ok ((previous? (Text.ofString "\\a//b") ⟨4, 1⟩).map Segment.stretch) := by
  have hlater : (⟨4, 1⟩ : Segment) ∈ segments (Text.ofString "\\a//b") := by
    with_unfolding_all decide
  have hearlier : (⟨1, 1⟩ : Segment) ∈ segments (Text.ofString "\\a//b") := by
    with_unfolding_all decide
  have hsafe : (Text.ofString "\\a//b").length ≤ Double.maxSafe := by decide
  have hnext : next? (Text.ofString "\\a//b") ⟨1, 1⟩ = some ⟨4, 1⟩ := by decide
  obtain ⟨-, -, -, hundo, hstretch⟩ := walks_opposite (Text.ofString "\\a//b")
  have hprevious := (hundo _ hearlier).1 _ hnext
  exact ⟨⟨hlater, hearlier⟩, hprevious, (hundo _ hlater).2 _ hprevious, hsafe,
    (hstretch hsafe _ hlater).2⟩

end TextUnits.Path
