import TextUnits.Fault.Template
import TextUnits.Proofs.Number.Reading

/-!
# Rendering of message templates

The loop over a template goes from place to place: over one unit, or over a name in braces as a
whole. It ends after no more rounds than the template has units, and one round to see the end, with
what `render` gives. A template of literals and names is rendered piece by piece, so that what is
put in for a name is not looked at again. Where the loop meets a brace that opens a name and is not
closed, it gives the template back.
-/

namespace TextUnits.Template

/-- A part of a template. -/
inductive Piece where
  /-- Text that stands for itself. -/
  | literal (t : Text)
  /-- A name in braces. -/
  | name (n : Text)
  deriving DecidableEq

namespace Piece

/-- A literal holds no opening brace. A name holds no closing one, and its first unit is no opening
one. -/
def Plain : Piece → Prop
  | literal t => opening ∉ t
  | name n => closing ∉ n ∧ n.head? ≠ some opening

instance (p : Piece) : Decidable p.Plain := by
  cases p <;> unfold Plain <;> infer_instance

/-- How a piece stands in a template. -/
def written : Piece → Text
  | literal t => t
  | name n => opening :: (n ++ [closing])

/-- What stands in its place in the message: for a name its value, or nothing without one. -/
def shown (lookup : Text → Option Text) : Piece → Text
  | literal t => t
  | name n => (lookup n).getD []

end Piece

/-- Where the loop over a template stands. -/
structure Loop where
  /-- Units of the template that it has passed. -/
  place : ℕ
  /-- What it has written. -/
  result : Text
  deriving DecidableEq

namespace Loop

/-- The loop before its first round. -/
def start : Loop := ⟨0, []⟩

/-- One round: where the loop stands behind it, or the message with which it ends. -/
def round (lookup : Text → Option Text) (template : Text) (s : Loop) : Loop ⊕ Text :=
  match template[s.place]? with
  | none => .inr s.result
  | some u =>
    if u = opening ∧ template[s.place + 1]? ≠ some opening then
      match (template.drop (s.place + 1)).idxOf? closing with
      | none => .inr template
      | some n =>
        .inl ⟨s.place + 1 + n + 1,
          s.result ++ (lookup ((template.drop (s.place + 1)).take n)).getD []⟩
    else .inl ⟨s.place + 1, s.result ++ [u]⟩

/-- The loop ends after a number of rounds with a message. -/
inductive Ends (lookup : Text → Option Text) (template : Text) : Loop → ℕ → Text → Prop where
  /-- In this round. -/
  | now {s : Loop} {t : Text} (h : s.round lookup template = .inr t) : Ends lookup template s 1 t
  /-- In a later one. -/
  | later {s next : Loop} {n : ℕ} {t : Text} (h : s.round lookup template = .inl next)
      (hn : Ends lookup template next n t) : Ends lookup template s (n + 1) t

/-- Where the loop comes to. -/
inductive Reached (lookup : Text → Option Text) (template : Text) : Loop → Prop where
  /-- It starts at the front. -/
  | first : Reached lookup template start
  /-- It goes on by rounds. -/
  | next {s next : Loop} (hs : Reached lookup template s)
      (h : s.round lookup template = .inl next) : Reached lookup template next

/-- The unit at hand opens a name that no brace closes. -/
def Unclosed (template : Text) (s : Loop) : Prop :=
  template[s.place]? = some opening ∧ template[s.place + 1]? ≠ some opening ∧
    closing ∉ template.drop (s.place + 1)

instance (template : Text) (s : Loop) : Decidable (s.Unclosed template) :=
  inferInstanceAs (Decidable (_ ∧ _ ∧ _))

variable {lookup : Text → Option Text} {template t : Text} {s : Loop} {n : ℕ}

/-- A loop ends in one way only. -/
theorem Ends.unique (h : Ends lookup template s n t) {m : ℕ} {other : Text}
    (ho : Ends lookup template s m other) : t = other := by
  induction h generalizing m with
  | now h =>
    cases ho with
    | now ho => exact Sum.inr.inj (h.symm.trans ho)
    | later ho => cases h.symm.trans ho
  | later h _ ih =>
    cases ho with
    | now ho => cases h.symm.trans ho
    | later ho hrest =>
      cases Sum.inl.inj (h.symm.trans ho)
      exact ih hrest

/-- How the loop ends where it has come to is how it ends from the start. -/
theorem Reached.ends (hs : Reached lookup template s) (h : Ends lookup template s n t) :
    ∃ m, Ends lookup template start m t := by
  induction hs generalizing n with
  | first => exact ⟨n, h⟩
  | next _ hround ih => exact ih (.later hround h)

theorem round_of_unclosed (h : s.Unclosed template) : s.round lookup template = .inr template := by
  obtain ⟨hopen, hsingle, hclose⟩ := h
  rw [round, hopen]
  dsimp only
  rw [if_pos ⟨rfl, hsingle⟩, List.idxOf?_eq_none_iff.mpr hclose]

end Loop

variable {lookup : Text → Option Text} {template front rest t : Text}

/-- A cut is at the first place of the mark. -/
theorem cut?_eq_idxOf? (mark : UInt16) (t : Text) :
    Text.cut? mark t = (t.idxOf? mark).map fun n => (t.take n, t.drop (n + 1)) := by
  induction t with
  | nil => rfl
  | cons u rest ih =>
    rw [Text.cut?, List.idxOf?_cons]
    by_cases hu : u = mark
    · rw [if_pos hu, if_pos (beq_iff_eq.mpr hu)]
      rfl
    · rw [if_neg hu, if_neg (mt beq_iff_eq.mp hu), ih, Option.map_map, Option.map_map]
      rfl

/-- A round in front of a unit, by what stands behind it. -/
theorem round_append (lookup : Text → Option Text) (front rest result : Text) (u : UInt16) :
    Loop.round lookup (front ++ u :: rest) ⟨front.length, result⟩ =
      if u = opening ∧ rest.head? ≠ some opening then
        match Text.cut? closing rest with
        | none => .inr (front ++ u :: rest)
        | some (name, _) =>
          .inl ⟨front.length + name.length + 2, result ++ (lookup name).getD []⟩
      else .inl ⟨front.length + 1, result ++ [u]⟩ := by
  have hunit : (front ++ u :: rest)[front.length]? = some u := by
    rw [List.getElem?_append_right (le_refl _), Nat.sub_self]
    rfl
  have hsecond : (front ++ u :: rest)[front.length + 1]? = rest.head? := by
    rw [List.getElem?_append_right (Nat.le_add_right _ _), Nat.add_sub_cancel_left,
      List.head?_eq_getElem?]
    rfl
  have hbehind : (front ++ u :: rest).drop (front.length + 1) = rest := by
    rw [← List.drop_drop, List.drop_left]
    rfl
  rw [Loop.round, hunit, hsecond, hbehind, cut?_eq_idxOf?]
  dsimp only
  split_ifs with hopen
  · cases hclose : rest.idxOf? closing with
    | none => rfl
    | some n =>
      have hlt : n < rest.length := (List.idxOf?_eq_some_iff.mp hclose).1
      simp only [Option.map_some, List.length_take, Nat.min_eq_left hlt.le, Sum.inl.injEq,
        Loop.mk.injEq, and_true]
      omega
  · rfl

/-- From the front of a rest the loop ends as the rest is expanded. -/
theorem ends_expand? (lookup : Text → Option Text) (front rest result : Text) :
    ∃ n ≤ rest.length + 1, Loop.Ends lookup (front ++ rest) ⟨front.length, result⟩ n
      ((expand? lookup rest).elim (front ++ rest) (result ++ ·)) := by
  fun_induction expand? lookup rest generalizing front result with
  | case1 =>
    refine ⟨1, le_refl _, .now ?_⟩
    rw [Loop.round, List.append_nil, List.getElem?_eq_none (le_refl _)]
    dsimp only [Option.elim_some]
    rw [List.append_nil]
  | case2 u rest hopen hcut =>
    refine ⟨1, Nat.le_add_left 1 _, .now ?_⟩
    rw [round_append, if_pos hopen, hcut]
    rfl
  | case3 u rest hopen name behind hcut ih =>
    have hround := round_append lookup front rest result u
    rw [if_pos hopen, hcut] at hround
    have hparts : front ++ u :: rest = front ++ u :: (name ++ [closing]) ++ behind := by
      rw [Text.eq_of_cut? hcut]
      simp only [List.append_assoc, List.cons_append, List.nil_append]
    have hplace : (front ++ u :: (name ++ [closing])).length = front.length + name.length + 2 := by
      simp only [List.length_append, List.length_cons, List.length_nil]
      omega
    obtain ⟨n, hn, hends⟩ :=
      ih (front ++ u :: (name ++ [closing])) (result ++ (lookup name).getD [])
    rw [← hparts, hplace] at hends
    have hless := Text.length_of_cut? hcut
    refine ⟨n + 1, by rw [List.length_cons]; omega, .later hround ?_⟩
    simpa only [Option.elim_map, Function.comp_def, List.append_assoc] using hends
  | case4 u rest hopen ih =>
    have hround := round_append lookup front rest result u
    rw [if_neg hopen] at hround
    obtain ⟨n, hn, hends⟩ := ih (front ++ [u]) (result ++ [u])
    rw [List.length_append, List.length_singleton] at hends
    refine ⟨n + 1, by rw [List.length_cons]; omega, .later hround ?_⟩
    simpa only [Option.elim_map, Function.comp_def, List.append_assoc, List.singleton_append]
      using hends

/-- The loop ends on every template, with the message. -/
theorem ends_render (lookup : Text → Option Text) (template : Text) :
    ∃ n ≤ template.length + 1, Loop.start.Ends lookup template n (render lookup template) := by
  obtain ⟨n, hn, hends⟩ := ends_expand? lookup [] template []
  refine ⟨n, hn, ?_⟩
  rw [render]
  cases hexpand : expand? lookup template with
  | none =>
    rw [hexpand] at hends
    exact hends
  | some t =>
    rw [hexpand] at hends
    exact hends

/-- Where the loop meets an unclosed name, the template is given back. -/
theorem render_of_unclosed {s : Loop} (hs : s.Reached lookup template) (h : s.Unclosed template) :
    render lookup template = template := by
  obtain ⟨_, hback⟩ := hs.ends (.now (Loop.round_of_unclosed h))
  obtain ⟨_, -, hends⟩ := ends_render lookup template
  exact hends.unique hback

/-- Units in front of the first opening brace stand for themselves. -/
theorem expand?_append (h : opening ∉ front) (rest : Text) :
    expand? lookup (front ++ rest) = (expand? lookup rest).map (front ++ ·) := by
  induction front with
  | nil => exact Option.map_id'.symm
  | cons u more ih =>
    rw [List.mem_cons, not_or] at h
    rw [List.cons_append, expand?, if_neg fun hopen => h.1 hopen.1.symm, ih h.2, Option.map_map]
    rfl

/-- A name in braces gives its value. -/
theorem expand?_name {n : Text} (h : Piece.Plain (.name n)) (rest : Text) :
    expand? lookup (Piece.written (.name n) ++ rest) =
      (expand? lookup rest).map ((lookup n).getD [] ++ ·) := by
  obtain ⟨hclose, hopen⟩ := h
  have hcut : Text.cut? closing (n ++ closing :: rest) = some (n, rest) :=
    Numeral.cut?_append hclose rest
  have hfirst : (n ++ closing :: rest).head? ≠ some opening := by
    cases n with
    | nil => exact fun hsame => absurd (Option.some.inj hsame) (by decide)
    | cons u more => exact hopen
  have hwritten : Piece.written (.name n) ++ rest = opening :: (n ++ closing :: rest) := by
    rw [Piece.written, List.cons_append, List.append_assoc, List.singleton_append]
  rw [hwritten, expand?, if_pos ⟨rfl, hfirst⟩]
  split
  · cases hcut.symm.trans ‹_›
  · cases hcut.symm.trans ‹_›
    rfl

/-- Literals and names are expanded piece by piece. -/
theorem expand?_pieces {pieces : List Piece} (h : ∀ p ∈ pieces, p.Plain) :
    expand? lookup (pieces.flatMap Piece.written) =
      some (pieces.flatMap (Piece.shown lookup)) := by
  induction pieces with
  | nil => rw [List.flatMap_nil, List.flatMap_nil, expand?]
  | cons p more ih =>
    obtain ⟨hp, hmore⟩ := List.forall_mem_cons.mp h
    rw [List.flatMap_cons, List.flatMap_cons]
    cases p with
    | literal t =>
      rw [Piece.written, expand?_append hp, ih hmore]
      rfl
    | name n =>
      rw [expand?_name hp, ih hmore]
      rfl

/-- A template of literals and names is rendered piece by piece. -/
theorem render_flatMap {pieces : List Piece} (h : ∀ p ∈ pieces, p.Plain)
    (lookup : Text → Option Text) :
    render lookup (pieces.flatMap Piece.written) = pieces.flatMap (Piece.shown lookup) := by
  rw [render, expand?_pieces h, Option.getD_some]

/-- The text of a value that the context itself holds under a name. -/
def ownText? (context : Context) (name : Text) : Option Text :=
  (context.own? name).map Datum.toText

/-- Looking a name up sees the context itself alone: the name is none that every record answers to,
unless the context holds it. -/
def SeesOwn (context : Context) (name : Text) : Prop :=
  Datum.isInherited name = true → (context.own? name).isSome = true

instance (context : Context) (name : Text) : Decidable (SeesOwn context name) :=
  inferInstanceAs (Decidable (_ → _))

theorem lookup_eq_ownText? {context : Context} {name : Text} (h : SeesOwn context name) :
    context.lookup name = ownText? context name := by
  unfold Context.lookup ownText?
  cases hown : context.own? name with
  | some value => rfl
  | none =>
    cases hinherited : Datum.inheritedText name with
    | none => rfl
    | some t =>
      have hheld := h (by rw [Datum.isInherited, hinherited]; rfl)
      rw [hown] at hheld
      cases hheld

/-- What a template of literals and names gives depends on the values of its names alone. -/
theorem shown_congr {pieces : List Piece} {lookup other : Text → Option Text}
    (h : ∀ n, .name n ∈ pieces → lookup n = other n) :
    pieces.flatMap (Piece.shown lookup) = pieces.flatMap (Piece.shown other) := by
  refine List.flatMap_congr fun p hp => ?_
  cases p with
  | literal t => rfl
  | name n => rw [Piece.shown, Piece.shown, h n hp]

/-- A template of literals and names becomes its literals with the texts of the values between them,
each as it is, and nothing where a name has no value. A template in which the loop meets an unclosed
name stays as it is. The loop ends on every template. -/
theorem render_pieces (template : Text) :
    (∀ pieces : List Piece, (∀ p ∈ pieces, p.Plain) → template = pieces.flatMap Piece.written →
      (∀ lookup, render lookup template = pieces.flatMap (Piece.shown lookup)) ∧
        ∀ context : Context, (∀ n, .name n ∈ pieces → SeesOwn context n) →
          render context.lookup template = pieces.flatMap (Piece.shown (ownText? context))) ∧
      ∀ lookup,
        (∀ s : Loop, s.Reached lookup template → s.Unclosed template →
          render lookup template = template) ∧
        ∃ n ≤ template.length + 1, Loop.start.Ends lookup template n (render lookup template) := by
  have hpieces : ∀ pieces : List Piece, (∀ p ∈ pieces, p.Plain) →
      template = pieces.flatMap Piece.written →
      ∀ lookup, render lookup template = pieces.flatMap (Piece.shown lookup) := by
    rintro pieces hplain rfl lookup
    exact render_flatMap hplain lookup
  refine ⟨fun pieces hplain hwritten => ⟨hpieces pieces hplain hwritten, fun context hown => ?_⟩,
    fun lookup => ⟨fun s hs h => render_of_unclosed hs h, ends_render lookup template⟩⟩
  rw [hpieces pieces hplain hwritten]
  exact shown_congr fun n hn => lookup_eq_ownText? (hown n hn)

/-- A value with braces of its own is put in as it is, and a name that is not closed behind a closed
one leaves the template as it is. -/
theorem render_pieces_braces :
    let context : Context := [(Text.ofString "a", .text (Text.ofString "\x7bb\x7d"))]
    let pieces : List Piece := [.name (Text.ofString "a"), .literal (Text.ofString " "),
      .name (Text.ofString "b")]
    ((∀ p ∈ pieces, p.Plain) ∧
        Text.ofString "\x7ba\x7d \x7bb\x7d" = pieces.flatMap Piece.written ∧
        (∀ n, .name n ∈ pieces → SeesOwn context n) ∧
        render context.lookup (Text.ofString "\x7ba\x7d \x7bb\x7d") =
          Text.ofString "\x7bb\x7d ") ∧
      (Loop.Reached context.lookup (Text.ofString "\x7ba\x7d\x7bb")
          ⟨3, Text.ofString "\x7bb\x7d"⟩ ∧
        Loop.Unclosed (Text.ofString "\x7ba\x7d\x7bb") ⟨3, Text.ofString "\x7bb\x7d"⟩ ∧
        render context.lookup (Text.ofString "\x7ba\x7d\x7bb") =
          Text.ofString "\x7ba\x7d\x7bb") := by
  intro context pieces
  have hplain : ∀ p ∈ pieces, p.Plain := by decide
  have hwritten : Text.ofString "\x7ba\x7d \x7bb\x7d" = pieces.flatMap Piece.written := by decide
  have hown : ∀ n, .name n ∈ pieces → SeesOwn context n := by
    intro n hn
    simp only [pieces, List.mem_cons, Piece.name.injEq, List.not_mem_nil, reduceCtorEq, or_false,
      false_or] at hn
    rcases hn with rfl | rfl <;> decide
  have hreached : Loop.Reached context.lookup (Text.ofString "\x7ba\x7d\x7bb")
      ⟨3, Text.ofString "\x7bb\x7d"⟩ :=
    .next .first (by rfl)
  have hunclosed : Loop.Unclosed (Text.ofString "\x7ba\x7d\x7bb")
      ⟨3, Text.ofString "\x7bb\x7d"⟩ := by decide
  exact ⟨⟨hplain, hwritten, hown,
      ((render_pieces (Text.ofString "\x7ba\x7d \x7bb\x7d")).1 pieces hplain hwritten).2 context
        hown⟩,
    hreached, hunclosed,
    ((render_pieces (Text.ofString "\x7ba\x7d\x7bb")).2 context.lookup).1 _ hreached hunclosed⟩

end TextUnits.Template
