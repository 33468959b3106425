import TextUnits.Proofs.Path.Runs
import Mathlib.Data.List.Induction

/-!
# Extensions of last segments

One pass forwards notes the last `.` and the last separator, and the extension is cut off behind
the `.` if no separator stands behind it. The last segment is found by a pass backwards. In a path
that does not end with a separator it is what stands behind the last one, so a `.` of another
segment does not count, and the extension is what stands behind the last `.` of the last segment.
-/

namespace TextUnits.Path

/-- As many units of a text as reach to the last one that passes a test, that one included; 0 if
none does. -/
inductive UpToLast (test : UInt16 → Prop) : Text → Nat → Prop where
  /-- No unit passes. -/
  | none {t : Text} (h : ∀ u ∈ t, ¬ test u) : UpToLast test t 0
  /-- A unit passes and none behind it does. -/
  | found {front back : Text} {u : UInt16} (hu : test u) (h : ∀ v ∈ back, ¬ test v) :
    UpToLast test (front ++ u :: back) (front.length + 1)

/-- What stands behind the last occurrence of a unit in a text; nothing if it does not occur. -/
inductive BehindLast (mark : UInt16) : Text → Text → Prop where
  /-- The unit stands between two parts, and not in the second one. -/
  | found {front back : Text} (h : mark ∉ back) : BehindLast mark (front ++ mark :: back) back
  /-- The unit does not occur. -/
  | absent {t : Text} (h : mark ∉ t) : BehindLast mark t []

/-- A pass has counted the units of a text and knows where the last marks in it stand. -/
structure Marks.Tells (m : Marks) (path : Text) : Prop where
  passed : m.passed = path.length
  dot : UpToLast (· = 0x2E) path m.dot
  separator : UpToLast (isSeparator · = true) path m.separator

variable {path t ext other : Text} {test : UInt16 → Prop} {mark u : UInt16} {m : Marks} {n i : ℕ}

/-- Only one text stands behind the last occurrence of a unit. -/
theorem BehindLast.unique (h : BehindLast mark t ext) (ho : BehindLast mark t other) :
    ext = other := by
  -- Of two occurrences the first one has the other one behind it.
  have hsame : ∀ {more back behind : Text}, mark :: back = more ++ mark :: behind → mark ∉ back →
      back = behind := by
    intro more back behind hsplit hback
    cases more with
    | nil => exact (List.cons.inj hsplit).2
    | cons v more =>
      rw [(List.cons.inj hsplit).2] at hback
      exact absurd (List.mem_append_right more List.mem_cons_self) hback
  cases h with
  | absent hnone =>
    cases ho with
    | absent => rfl
    | found => exact absurd (by simp) hnone
  | @found front _ hback =>
    generalize hwhole : front ++ mark :: ext = whole at ho
    cases ho with
    | absent hnone => exact absurd (by simp [← hwhole]) hnone
    | @found before _ hbehind =>
      rcases List.append_eq_append_iff.mp hwhole with ⟨more, -, hsplit⟩ | ⟨more, -, hsplit⟩
      · exact hsame hsplit hback
      · exact (hsame hsplit hbehind).symm

/-- A unit at the end that does not pass the test leaves the last one where it is. -/
theorem UpToLast.append (h : UpToLast test t n) (hu : ¬ test u) : UpToLast test (t ++ [u]) n := by
  have hbehind : ∀ {back : Text}, (∀ v ∈ back, ¬ test v) → ∀ v ∈ back ++ [u], ¬ test v :=
    fun hback => List.forall_mem_append.mpr ⟨hback, List.forall_mem_singleton.mpr hu⟩
  cases h with
  | none hnone => exact .none (hbehind hnone)
  | found hv hnone =>
    rw [List.append_assoc]
    exact .found hv (hbehind hnone)

/-- Behind the last unit that passes none does. -/
theorem UpToLast.not_of_getElem? (h : UpToLast test t n) (hi : n ≤ i) (hu : t[i]? = some u) :
    ¬ test u := by
  cases h with
  | none hnone => exact hnone u (List.mem_of_getElem? hu)
  | @found front back v hv hnone =>
    obtain ⟨k, rfl⟩ := Nat.exists_eq_add_of_le hi
    rw [List.getElem?_append_right (by omega),
      show front.length + 1 + k - front.length = k + 1 by omega, List.getElem?_cons_succ] at hu
    exact hnone u (List.mem_of_getElem? hu)

theorem UpToLast.not_of_mem_drop (h : UpToLast test t n) (hi : n ≤ i) (hu : u ∈ t.drop i) :
    ¬ test u := by
  obtain ⟨k, hk⟩ := List.mem_iff_getElem?.mp hu
  rw [List.getElem?_drop] at hk
  exact h.not_of_getElem? (hi.trans (Nat.le_add_right i k)) hk

/-- The last unit that passes stands at the end of what is counted. -/
theorem UpToLast.exists_getElem? (h : UpToLast test t n) (hn : 0 < n) :
    ∃ u, t[n - 1]? = some u ∧ test u := by
  cases h with
  | none => exact absurd hn (Nat.lt_irrefl 0)
  | @found front back v hv => exact ⟨v, by simp, hv⟩

theorem UpToLast.le_length (h : UpToLast test t n) : n ≤ t.length := by
  rcases Nat.eq_zero_or_pos n with rfl | hpos
  · exact Nat.zero_le _
  · obtain ⟨u, hu, -⟩ := h.exists_getElem? hpos
    have hlt := (List.getElem?_eq_some_iff.mp hu).1
    omega

/-- From in front of the last occurrence of a unit on, the text behind it is what is behind all
units up to it. -/
theorem UpToLast.behindLast_drop (h : UpToLast (· = mark) t n) (hi : i < n) :
    BehindLast mark (t.drop i) (t.drop n) := by
  cases h with
  | none => exact absurd hi (Nat.not_lt_zero i)
  | @found front back v hv hnone =>
    subst hv
    rw [List.drop_append_of_le_length (Nat.le_of_lt_succ hi), ← List.drop_drop, List.drop_left]
    exact .found fun hmem => hnone _ hmem rfl

/-- Behind the last occurrence of a unit there is no other one. -/
theorem UpToLast.behindLast_nil (h : UpToLast (· = mark) t n) (hi : n ≤ i) :
    BehindLast mark (t.drop i) [] :=
  .absent fun hmem => h.not_of_mem_drop hi hmem rfl

/-- One more unit keeps what a pass tells of the units in front of it. -/
theorem Marks.Tells.pass (h : m.Tells path) (u : UInt16) : (m.pass u).Tells (path ++ [u]) := by
  have hpassed : m.passed + 1 = (path ++ [u]).length := by
    rw [h.passed, List.length_append, List.length_singleton]
  have hlast : ∀ {test : UInt16 → Prop}, test u → UpToLast test (path ++ [u]) (m.passed + 1) := by
    intro test hu
    rw [h.passed]
    exact .found hu (List.forall_mem_nil _)
  unfold Marks.pass
  dsimp only
  split_ifs with hdot hseparator
  · refine ⟨hpassed, hlast hdot, h.separator.append ?_⟩
    rw [hdot]
    decide
  · exact ⟨hpassed, h.dot.append hdot, hlast hseparator⟩
  · exact ⟨hpassed, h.dot.append hdot, h.separator.append hseparator⟩

/-- A pass over a whole path tells where its last marks stand. -/
theorem marks_tells (path : Text) : (marks path).Tells path := by
  induction path using List.reverseRecOn with
  | nil => exact ⟨rfl, .none (List.forall_mem_nil _), .none (List.forall_mem_nil _)⟩
  | append_singleton path u ih =>
    rw [marks, List.foldl_append]
    exact ih.pass u

/-- Behind the last separator there is none. -/
theorem UpToLast.not_separates (h : UpToLast (isSeparator · = true) path n) (hi : n ≤ i) :
    ¬ Separates path i := by
  intro hsep
  obtain ⟨u, hu, htest⟩ := separates_iff.mp hsep
  exact h.not_of_getElem? hi hu htest

/-- The last segment of a path that does not end with a separator starts behind the last one and
reaches to the end. -/
theorem exists_last? (hne : path ≠ []) (hend : ¬ Separates path (path.length - 1))
    (h : UpToLast (isSeparator · = true) path n) :
    ∃ s, last? path = some s ∧ s.text path = path.drop n := by
  obtain ⟨s, hs, hsegment, hfinish, hbetween⟩ := last?_spec hne
  have hlength : 0 < path.length := List.length_pos_iff.mpr hne
  have hwhole : s.finish = path.length := by
    by_contra hshort
    exact hend (hbetween _ (by omega) (by omega))
  have hrun : IsRun path s := by
    refine hsegment.resolve_left ?_
    rintro ⟨rfl, -⟩
    exact hlength.ne hwhole
  have hle : s.offset ≤ n := by
    rcases hrun.front with hzero | hsep
    · omega
    · exact Nat.le_of_not_lt fun hlt => h.not_separates (Nat.le_sub_one_of_lt hlt) hsep
  have hge : n ≤ s.offset := by
    by_contra hlt
    obtain ⟨u, hu, htest⟩ := h.exists_getElem? (by omega)
    have hsep := separates_iff.mpr ⟨u, hu, htest⟩
    exact hrun.plain (n - 1) (by omega) (hwhole ▸ hsep.lt) hsep
  refine ⟨s, hs, ?_⟩
  rw [Segment.text, Nat.le_antisymm hle hge, List.take_of_length_le]
  rw [List.length_drop, ← hwhole, Segment.finish]
  omega

/-- The extension of a path that ends with a separator, or is empty, is empty. The extension of any
other one is what stands behind the last `.` of its last segment, and empty if there is none in it.
It holds neither a `.` nor a separator. -/
theorem extension_behindLast (path : Text) :
    (path = [] ∨ Separates path (path.length - 1) → extension path = []) ∧
      (path ≠ [] → ¬ Separates path (path.length - 1) →
        ∃ s, last? path = some s ∧ BehindLast 0x2E (s.text path) (extension path)) ∧
      ∀ u ∈ extension path, u ≠ 0x2E ∧ u ≠ 0x2F ∧ u ≠ 0x5C := by
  obtain ⟨-, hdot, hseparator⟩ := marks_tells path
  unfold extension
  generalize (marks path).dot = dot at hdot ⊢
  generalize (marks path).separator = separator at hseparator ⊢
  refine ⟨fun h => ?_, fun hne hend => ?_, fun u hu => ?_⟩
  · have hreached : path.length ≤ separator := by
      rcases h with rfl | hsep
      · exact Nat.zero_le _
      · by_contra hlt
        exact hseparator.not_separates (by omega) hsep
    exact if_neg (Nat.not_lt.mpr (hdot.le_length.trans hreached))
  · obtain ⟨s, hs, htext⟩ := exists_last? hne hend hseparator
    refine ⟨s, hs, ?_⟩
    rw [htext]
    split_ifs with hbehind
    · exact hdot.behindLast_drop hbehind
    · exact hdot.behindLast_nil (Nat.le_of_not_lt hbehind)
  · split_ifs at hu with hbehind
    · have hplain := hseparator.not_of_mem_drop hbehind.le hu
      exact ⟨hdot.not_of_mem_drop (Nat.le_refl dot) hu, by simpa [isSeparator] using hplain⟩
    · cases hu

/-- Dots of directories do not count, and of several in the last segment the last one does. -/
theorem extension_behindLast_archive :
    (Separates (Text.ofString "a.b/") ((Text.ofString "a.b/").length - 1) ∧
        extension (Text.ofString "a.b/") = []) ∧
      (Text.ofString "a.d\\.b/c.tar.gz" ≠ [] ∧
        ¬ Separates (Text.ofString "a.d\\.b/c.tar.gz")
          ((Text.ofString "a.d\\.b/c.tar.gz").length - 1) ∧
        extension (Text.ofString "a.d\\.b/c.tar.gz") = Text.ofString "gz") ∧
      (0x67 ∈ extension (Text.ofString "a.d\\.b/c.tar.gz") ∧
        (0x67 : UInt16) ≠ 0x2E ∧ (0x67 : UInt16) ≠ 0x2F ∧ (0x67 : UInt16) ≠ 0x5C) := by
  have htrailing : Separates (Text.ofString "a.b/") ((Text.ofString "a.b/").length - 1) := by decide
  have hne : Text.ofString "a.d\\.b/c.tar.gz" ≠ [] := by decide
  have hend : ¬ Separates (Text.ofString "a.d\\.b/c.tar.gz")
      ((Text.ofString "a.d\\.b/c.tar.gz").length - 1) := by decide
  have hlast : last? (Text.ofString "a.d\\.b/c.tar.gz") = some ⟨7, 8⟩ := by decide
  have htext : (Segment.mk 7 8).text (Text.ofString "a.d\\.b/c.tar.gz") =
      Text.ofString "c.tar" ++ 0x2E :: Text.ofString "gz" := by decide
  obtain ⟨-, hsegment, hplain⟩ := extension_behindLast (Text.ofString "a.d\\.b/c.tar.gz")
  obtain ⟨s, hs, hbehind⟩ := hsegment hne hend
  obtain rfl := Option.some.inj (hlast.symm.trans hs)
  rw [htext] at hbehind
  have hext := hbehind.unique (.found (by decide))
  have hmem : 0x67 ∈ extension (Text.ofString "a.d\\.b/c.tar.gz") := by
    rw [hext]
    decide
  exact ⟨⟨htrailing, (extension_behindLast _).1 (.inr htrailing)⟩, ⟨hne, hend, hext⟩, hmem,
    hplain _ hmem⟩

end TextUnits.Path
