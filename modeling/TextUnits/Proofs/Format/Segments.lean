import TextUnits.Proofs.Format.Pieces
import Mathlib.Data.List.TakeWhile
import Mathlib.Tactic.Common

/-!
# Segments of a format string

A format string is a row of segments: units that stand for themselves, and directives. What a
directive says depends on its own units alone, although a length modifier is read as long as
possible: the unit that names the conversion stands behind it. So a format string that is parted
between two segments has the segments of its parts.
-/

namespace TextUnits.Format

/-- A part of a format string that is read as a whole. -/
inductive Segment where
  /-- A unit that stands for itself. -/
  | literal (u : UInt16)
  /-- A directive, with the units behind its `%` and what they say. -/
  | directive (units : Text) (d : Directive)
  deriving DecidableEq, Repr

/-- The units that a segment takes. -/
def Segment.units : Segment → Text
  | literal u => [u]
  | directive units _ => 0x25 :: units

/-- The segments of a format string. -/
def segments : Text → List Segment
  | [] => []
  | u :: rest =>
    if u = 0x25 then
      let parsed := Directive.parse rest
      .directive (rest.take (rest.length - parsed.2.length)) parsed.1 :: segments parsed.2
    else .literal u :: segments rest
termination_by t => t.length
decreasing_by
  · have := Directive.length_parse rest
    simp only [List.length_cons]
    omega
  · simp

/-- The format string that segments make up. -/
def spelling (parts : List Segment) : Text := parts.flatMap Segment.units

/-- The boundary between two texts does not lie inside a directive of both together. -/
def Parted (front back : Text) : Prop :=
  ∃ before behind, segments (front ++ back) = before ++ behind ∧ spelling before = front

/-- Arguments that a size takes. -/
def Size.arguments : Size → Nat
  | number _ | infinite => 0
  | argument => 1

/-- Arguments that the width and the precision of a directive take. -/
def Directive.sizeArguments (d : Directive) : Nat :=
  d.width.arguments + (d.precision.map Size.arguments).getD 0

/-- Arguments that a directive takes: one for every size that is not written, and one for its
conversion unless that stands for itself. A directive that is cut off takes none. -/
def Directive.arguments (d : Directive) : Nat :=
  match d.conversion with
  | none => 0
  | some letter => d.sizeArguments + if conversionOf letter = .literal then 0 else 1

/-- Arguments that a segment takes. -/
def Segment.arguments : Segment → Nat
  | literal _ => 0
  | directive _ d => d.arguments

/-- Arguments that segments take together. -/
def argumentsOf : List Segment → Nat
  | [] => 0
  | s :: rest => s.arguments + argumentsOf rest

variable {x y later : Text}

namespace Directive

/-- Text that is left over is longer than what stands behind it. -/
theorem ne_nil_of_append (hy : y ≠ []) (h : (y ++ later).length ≤ (x ++ later).length) :
    x ≠ [] := by
  have hpos := List.length_pos_iff.mpr hy
  rw [List.length_append, List.length_append] at h
  exact List.length_pos_iff.mp (by omega)

/-- Flags that end in front of a unit do not depend on what stands behind that unit. -/
theorem readFlags_of_append {flags read : Flags} (hy : y ≠ [])
    (h : readFlags flags (x ++ later) = (read, y ++ later)) : readFlags flags x = (read, y) := by
  induction x generalizing flags with
  | nil =>
    have hle := length_readFlags flags ([] ++ later)
    rw [h] at hle
    exact absurd rfl (ne_nil_of_append hy hle)
  | cons u rest ih =>
    rw [List.cons_append, readFlags] at h
    rw [readFlags]
    split_ifs at h ⊢ with hzero
    · rw [Prod.mk.injEq, List.append_cancel_right_eq] at h
      rw [h.1, h.2]
    · cases hf : flag? flags u with
      | some more =>
        rw [hf] at h
        exact ih h
      | none =>
        rw [hf, Prod.mk.injEq, ← List.cons_append, List.append_cancel_right_eq] at h
        rw [h.1, h.2]

/-- A size that ends in front of a unit does not depend on what stands behind that unit. -/
theorem readSize_of_append {size : Size} (hy : y ≠ [])
    (h : readSize (x ++ later) = (size, y ++ later)) : readSize x = (size, y) := by
  have hle := length_readSize (x ++ later)
  rw [h] at hle
  have hx := ne_nil_of_append hy hle
  cases x with
  | nil => exact absurd rfl hx
  | cons u rest =>
    rw [List.cons_append, readSize] at h
    rw [readSize]
    split_ifs at h ⊢ with hstar
    · rw [Prod.mk.injEq, List.append_cancel_right_eq] at h
      rw [h.1, h.2]
    · dsimp only at h ⊢
      rw [Prod.mk.injEq, ← List.cons_append] at h
      obtain ⟨hsize, hrest⟩ := h
      -- The digits end within the first part, since something of it is left over.
      have hlength := congrArg List.length hrest
      have hpos := List.length_pos_iff.mpr hy
      rw [List.length_drop, List.length_append, List.length_append] at hlength
      have hdigits : ((u :: rest) ++ later).takeWhile isDigit = (u :: rest).takeWhile isDigit := by
        rw [List.takeWhile_append]
        split_ifs with hall
        · rw [List.takeWhile_append, if_pos hall, List.length_append] at hlength
          omega
        · rfl
      have hwithin := (List.takeWhile_prefix (l := u :: rest) isDigit).length_le
      rw [hdigits] at hsize hrest
      rw [List.drop_append_of_le_length hwithin, List.append_cancel_right_eq] at hrest
      rw [hsize, hrest]

/-- A precision that ends in front of a unit does not depend on what stands behind that unit. -/
theorem readPrecision_of_append {size : Option Size} (hy : y ≠ [])
    (h : readPrecision (x ++ later) = (size, y ++ later)) : readPrecision x = (size, y) := by
  have hle := length_readPrecision (x ++ later)
  rw [h] at hle
  have hx := ne_nil_of_append hy hle
  cases x with
  | nil => exact absurd rfl hx
  | cons u rest =>
    by_cases hpoint : u = 0x2E
    · subst hpoint
      change (let r := readSize (rest ++ later); (some r.1, r.2)) = (size, y ++ later) at h
      rw [Prod.mk.injEq] at h
      have hread := readSize_of_append hy (Prod.ext rfl h.2)
      change (let r := readSize rest; (some r.1, r.2)) = (size, y)
      rw [hread, ← h.1]
    · have hnone : ∀ t, readPrecision (u :: t) = (none, u :: t) := by
        intro t
        unfold readPrecision
        split
        · rename_i heq
          exact absurd (List.cons.inj heq).1 hpoint
        · rfl
      rw [List.cons_append, hnone, Prod.mk.injEq, ← List.cons_append,
        List.append_cancel_right_eq] at h
      rw [hnone, h.1, h.2]

/-- A length modifier by its first unit: some of them go on with further units. -/
theorem readLength_cons (u : UInt16) (rest : Text) :
    readLength (u :: rest) =
      if u = 0x68 then (false, if [0x68] <+: rest then rest.drop 1 else rest)
      else if u = 0x6C then (true, if [0x6C] <+: rest then rest.drop 1 else rest)
      else if u = 0x6A ∨ u = 0x7A ∨ u = 0x74 then (true, rest)
      else if u = 0x49 then
        if [0x36, 0x34] <+: rest then (true, rest.drop 2)
        else if [0x33, 0x32] <+: rest then (false, rest.drop 2)
        else (true, rest)
      else (false, u :: rest) := by
  unfold readLength
  split
  case h_2 hnone h =>
    cases h
    rw [if_pos rfl, if_neg]
    rintro ⟨t, rfl⟩
    exact hnone _ rfl
  case h_4 hnone h =>
    cases h
    rw [if_neg (by decide), if_pos rfl, if_neg]
    rintro ⟨t, rfl⟩
    exact hnone _ rfl
  case h_10 hfirst hsecond h =>
    cases h
    rw [if_neg (by decide), if_neg (by decide), if_neg (by decide), if_pos rfl, if_neg, if_neg]
    · rintro ⟨t, rfl⟩
      exact hsecond _ rfl
    · rintro ⟨t, rfl⟩
      exact hfirst _ rfl
  case h_11 _ hh _ hl hj hz ht _ _ hi =>
    rw [if_neg fun he => hh rest (by rw [he]), if_neg fun he => hl rest (by rw [he]), if_neg,
      if_neg fun he => hi rest (by rw [he])]
    rintro (he | he | he)
    · exact hj rest (by rw [he])
    · exact hz rest (by rw [he])
    · exact ht rest (by rw [he])
  all_goals
    rename_i h
    cases h
    rfl

/-- Units that begin a text and are not left over begin its first part. -/
theorem prefix_of_drop {start : Text} (hy : y ≠ []) (hs : start <+: x ++ later)
    (h : (x ++ later).drop start.length = y ++ later) : start <+: x ∧ x.drop start.length = y := by
  have hpos := List.length_pos_iff.mpr hy
  have hlength := congrArg List.length h
  rw [List.length_drop, List.length_append, List.length_append] at hlength
  have hle : start.length ≤ x.length := by omega
  rw [List.drop_append_of_le_length hle, List.append_cancel_right_eq] at h
  exact ⟨List.prefix_of_prefix_length_le hs (List.prefix_append x later) hle, h⟩

/-- A length modifier that ends in front of a unit does not depend on what stands behind that
unit. -/
theorem readLength_of_append {wide : Bool} (hy : y ≠ [])
    (h : readLength (x ++ later) = (wide, y ++ later)) : readLength x = (wide, y) := by
  have hle := length_readLength (x ++ later)
  rw [h] at hle
  have hx := ne_nil_of_append hy hle
  cases x with
  | nil => exact absurd rfl hx
  | cons u rest =>
    have hnot : ∀ start : Text, ¬ start <+: rest ++ later → ¬ start <+: rest :=
      fun start hn hs => hn (hs.trans (List.prefix_append rest later))
    have hsame : ∀ t : Text, t ++ later = y ++ later → t = y :=
      fun t => List.append_cancel_right
    rw [List.cons_append, readLength_cons] at h
    rw [readLength_cons]
    split_ifs at h with hh hdouble hl hdouble hj hi hlong hshort <;>
      rw [Prod.mk.injEq] at h <;> obtain ⟨rfl, h⟩ := h
    · obtain ⟨hs, hd⟩ := prefix_of_drop hy hdouble h
      rw [if_pos hh, if_pos hs, ← hd]
      rfl
    · rw [if_pos hh, if_neg (hnot _ hdouble), hsame _ h]
    · obtain ⟨hs, hd⟩ := prefix_of_drop hy hdouble h
      rw [if_neg hh, if_pos hl, if_pos hs, ← hd]
      rfl
    · rw [if_neg hh, if_pos hl, if_neg (hnot _ hdouble), hsame _ h]
    · rw [if_neg hh, if_neg hl, if_pos hj, hsame _ h]
    · obtain ⟨hs, hd⟩ := prefix_of_drop hy hlong h
      rw [if_neg hh, if_neg hl, if_neg hj, if_pos hi, if_pos hs, ← hd]
      rfl
    · obtain ⟨hs, hd⟩ := prefix_of_drop hy hshort h
      rw [if_neg hh, if_neg hl, if_neg hj, if_pos hi, if_neg (hnot _ hlong), if_pos hs, ← hd]
      rfl
    · rw [if_neg hh, if_neg hl, if_neg hj, if_pos hi, if_neg (hnot _ hlong),
        if_neg (hnot _ hshort), hsame _ h]
    · rw [if_neg hh, if_neg hl, if_neg hj, if_neg hi, hsame (u :: rest) h]

theorem readFlags_suffix (flags : Flags) (t : Text) : (readFlags flags t).2 <:+ t := by
  induction t generalizing flags with
  | nil => exact List.suffix_refl []
  | cons u rest ih =>
    rw [readFlags]
    split_ifs
    · exact List.suffix_cons u rest
    · cases flag? flags u with
      | some more => exact (ih more).trans (List.suffix_cons u rest)
      | none => exact List.suffix_refl _

theorem readSize_suffix (t : Text) : (readSize t).2 <:+ t := by
  cases t with
  | nil => exact List.suffix_refl []
  | cons u rest =>
    rw [readSize]
    split_ifs
    · exact List.suffix_cons u rest
    · exact List.drop_suffix _ _

theorem readPrecision_suffix (t : Text) : (readPrecision t).2 <:+ t := by
  unfold readPrecision
  split
  · rename_i rest
    exact (readSize_suffix rest).trans (List.suffix_cons _ rest)
  · exact List.suffix_refl _

theorem readLength_suffix (t : Text) : (readLength t).2 <:+ t := by
  cases t with
  | nil => exact List.suffix_refl []
  | cons u rest =>
    have hdrop : ∀ n, rest.drop n <:+ u :: rest :=
      fun n => (List.drop_suffix n rest).trans (List.suffix_cons u rest)
    rw [readLength_cons]
    split_ifs
    · exact hdrop 1
    · exact hdrop 0
    · exact hdrop 1
    · exact hdrop 0
    · exact hdrop 0
    · exact hdrop 2
    · exact hdrop 2
    · exact hdrop 0
    · exact List.suffix_refl _

/-- What stands behind a directive is an end of the text that the directive was read from. -/
theorem parse_suffix (t : Text) : (parse t).2 <:+ t := by
  have hflags := readFlags_suffix .none t
  have hwidth := readSize_suffix (readFlags .none t).2
  have hprecision := readPrecision_suffix (readSize (readFlags .none t).2).2
  have hlength := readLength_suffix (readPrecision (readSize (readFlags .none t).2).2).2
  exact (List.tail_suffix _).trans (hlength.trans (hprecision.trans (hwidth.trans hflags)))

/-- Nothing stands behind a directive that is cut off. -/
theorem behind_of_cut {t : Text} (h : (parse t).1.conversion = none) : (parse t).2 = [] := by
  have hnil := List.head?_eq_none_iff.mp h
  change List.tail _ = []
  rw [hnil]
  rfl

theorem exists_of_suffix {t : Text} (hy : y ≠ []) (h : y ++ later <:+ t) :
    ∃ z, z ≠ [] ∧ t = z ++ later := by
  obtain ⟨front, rfl⟩ := h
  exact ⟨front ++ y, List.append_ne_nil_of_right_ne_nil front hy, (List.append_assoc _ _ _).symm⟩

/-- A directive that names its conversion does not depend on what stands behind it. -/
theorem parse_of_append {d : Directive} (hc : d.conversion ≠ none)
    (h : parse (x ++ later) = (d, y ++ later)) : parse x = (d, y) := by
  obtain ⟨letter, hletter⟩ := Option.ne_none_iff_exists'.mp hc
  rcases hflags : readFlags .none (x ++ later) with ⟨flags, behindFlags⟩
  rcases hwidth : readSize behindFlags with ⟨width, behindWidth⟩
  rcases hprecision : readPrecision behindWidth with ⟨precision, behindPrecision⟩
  rcases hlength : readLength behindPrecision with ⟨wide, behindLength⟩
  have hwhole : parse (x ++ later) =
      (⟨flags, width, precision, wide, behindLength.head?⟩, behindLength.tail) := by
    simp only [parse, hflags, hwidth, hprecision, hlength]
  rw [hwhole, Prod.mk.injEq] at h
  obtain ⟨rfl, htail⟩ := h
  -- What each part of the directive leaves ends with the later text.
  have hleft : behindLength = (letter :: y) ++ later := by
    cases behindLength with
    | nil => cases hletter
    | cons u rest =>
      cases hletter
      exact congrArg (letter :: ·) htail
  subst hleft
  have hsuffix := readLength_suffix behindPrecision
  rw [hlength] at hsuffix
  obtain ⟨afterPrecision, hthird, rfl⟩ := exists_of_suffix (List.cons_ne_nil letter y) hsuffix
  have hsuffix := readPrecision_suffix behindWidth
  rw [hprecision] at hsuffix
  obtain ⟨afterWidth, hsecond, rfl⟩ := exists_of_suffix hthird hsuffix
  have hsuffix := readSize_suffix behindFlags
  rw [hwidth] at hsuffix
  obtain ⟨afterFlags, hfirst, rfl⟩ := exists_of_suffix hsecond hsuffix
  simp only [parse, readFlags_of_append hfirst hflags, readSize_of_append hsecond hwidth,
    readPrecision_of_append hthird hprecision,
    readLength_of_append (List.cons_ne_nil letter y) hlength]
  rfl

end Directive

/-- The segments of a text that starts with a unit. -/
theorem segments_cons (u : UInt16) (rest : Text) :
    segments (u :: rest) =
      if u = 0x25 then
        .directive (rest.take (rest.length - (Directive.parse rest).2.length))
          (Directive.parse rest).1 :: segments (Directive.parse rest).2
      else .literal u :: segments rest := by
  rw [segments]

theorem segments_nil : segments [] = [] := by
  rw [segments]

theorem spelling_cons (s : Segment) (rest : List Segment) :
    spelling (s :: rest) = s.units ++ spelling rest :=
  List.flatMap_cons

theorem spelling_append (before behind : List Segment) :
    spelling (before ++ behind) = spelling before ++ spelling behind :=
  List.flatMap_append

/-- The units in front of an end of a text are what the end leaves of it. -/
theorem take_of_append {whole front final : Text} (h : whole = front ++ final) :
    whole.take (whole.length - final.length) = front := by
  rw [h, List.length_append, Nat.add_sub_cancel, List.take_left]

/-- Segments make up the text that they are read from. -/
theorem spelling_segments (t : Text) : spelling (segments t) = t := by
  induction t using segments.induct with
  | case1 =>
    rw [segments_nil]
    rfl
  | case2 rest parsed ih =>
    obtain ⟨front, hfront⟩ := Directive.parse_suffix rest
    rw [segments_cons, if_pos rfl, spelling_cons, ih, Segment.units, take_of_append hfront.symm,
      List.cons_append, hfront]
  | case3 u rest hu ih =>
    rw [segments_cons, if_neg hu, spelling_cons, ih]
    rfl

/-- A directive that ends within the first part of a text is read from that part alone. -/
theorem parse_of_parted {d : Directive} {front back rest : Text}
    (h : Directive.parse (front ++ back) = (d, rest ++ back)) :
    Directive.parse front = (d, rest) := by
  by_cases hc : d.conversion = none
  · -- A directive that is cut off takes all of the text, so the second part is empty.
    have hcut : (Directive.parse (front ++ back)).1.conversion = none := by rw [h, hc]
    have hnil := Directive.behind_of_cut hcut
    rw [h] at hnil
    obtain ⟨rfl, rfl⟩ := List.append_eq_nil_iff.mp hnil
    rwa [List.append_nil, List.append_nil] at h
  · exact Directive.parse_of_append hc h

/-- A text that is parted between two segments has the segments of its parts. -/
theorem segments_of_append {front back : Text} {before behind : List Segment}
    (h : segments (front ++ back) = before ++ behind) (hs : spelling before = front) :
    segments front = before ∧ segments back = behind := by
  induction before generalizing front with
  | nil =>
    subst hs
    exact ⟨segments_nil, h⟩
  | cons s rest ih =>
    rw [spelling_cons] at hs
    cases front with
    | nil => cases s <;> cases hs
    | cons u front =>
      rw [List.cons_append, segments_cons] at h
      split_ifs at h with hu
      · subst hu
        rcases hparse : Directive.parse (front ++ back) with ⟨d, left⟩
        have hsuffix := Directive.parse_suffix (front ++ back)
        rw [hparse] at h hsuffix
        obtain ⟨taken, htaken⟩ := hsuffix
        rw [take_of_append htaken.symm, List.cons_append, List.cons.injEq] at h
        obtain ⟨rfl, hrest⟩ := h
        obtain rfl : taken ++ spelling rest = front := (List.cons.inj hs).2
        -- Behind the directive stand the rest of the first part and all of the second.
        rw [List.append_assoc, List.append_cancel_left_eq] at htaken
        dsimp only at htaken hrest
        subst htaken
        obtain ⟨hbefore, hback⟩ := ih hrest rfl
        rw [segments_cons, if_pos rfl, parse_of_parted hparse, take_of_append rfl, hbefore]
        exact ⟨rfl, hback⟩
      · rw [List.cons_append, List.cons.injEq] at h
        obtain ⟨rfl, hrest⟩ := h
        obtain ⟨hu', hfront⟩ := List.cons.inj hs
        obtain ⟨hbefore, hback⟩ := ih hrest hfront
        rw [segments_cons, if_neg hu, hbefore]
        exact ⟨rfl, hback⟩

end TextUnits.Format
