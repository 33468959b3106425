import TextUnits.Fault.Report
import TextUnits.Proofs.Fault.Templates
import TextUnits.Proofs.Number.Wholes

/-!
# Messages and their places

A place is told behind the message of an error as ` at line ` and the text of its line. Taking such
an ending off gives the message back when the line is told in digits, which is so for naturals below
10^21. It is taken off even if it belongs to the message itself, so an error without a place keeps
its message only if that does not end as a place is told.
-/

namespace TextUnits

open Numeral

variable {t front line digits : Text}

namespace Coordinate

/-- The coordinate of a number that is a natural. -/
def IsNatural (c : Coordinate) (n : ℕ) : Prop := ∃ x : Double, x.toNat? = some n ∧ c = ofNumber x

variable {c : Coordinate} {n : ℕ}

/-- A line of a source is a natural. -/
theorem isNatural_whole (h : n ≤ Double.maxSafe) : (whole n).IsNatural n := by
  refine ⟨Double.ofNat n, Double.toNat?_ofNat h, ?_⟩
  have hsafe : (Double.ofNat n).toSafeInt? = some (n : ℤ) := by
    rw [Double.toSafeInt?, Double.toInt?_ofNat h]
    exact if_pos h
  rw [ofNumber, hsafe]
  dsimp only
  rw [if_neg fun hzero => Bool.false_ne_true ((Double.isNegative_ofNat h).symm.trans hzero.2)]

/-- A safe natural is told by its numeral. -/
theorem IsNatural.text_eq (h : c.IsNatural n) (hn : n ≤ Double.maxSafe) : c.text = decimal n := by
  obtain ⟨x, hx, rfl⟩ := h
  have hint := Double.toInt?_of_toNat? hx
  have hsafe : x.toSafeInt? = some (n : ℤ) := by
    rw [Double.toSafeInt?, hint]
    exact if_pos hn
  rw [ofNumber, hsafe]
  dsimp only
  split_ifs with hzero
  · -- the zero with a sign is told like the other one
    obtain rfl : n = 0 := by exact_mod_cast hzero.1
    obtain ⟨negative, significand, power, hform, hratio, -⟩ := Double.exists_form_of_toInt? hint
    obtain rfl : significand = 0 := by
      rw [Int.natAbs_natCast, Nat.zero_mul, Double.ratio] at hratio
      split_ifs at hratio
      · exact (Nat.mul_eq_zero.mp hratio).resolve_right (Nat.two_pow_pos _).ne'
      · exact hratio
    rw [text, Double.text, hform, decimal, text_of_lt (by norm_num)]
    rfl
  · rw [text, decimalInt, if_neg (by omega), Int.natAbs_natCast]

/-- A natural is told in digits exactly below 10^21. -/
theorem IsNatural.digits_text_iff (h : c.IsNatural n) :
    c.text ≠ [] ∧ Digits c.text ↔ n < 10 ^ 21 := by
  rcases Nat.lt_or_ge Double.maxSafe n with hlarge | hsmall
  · obtain ⟨x, hx, rfl⟩ := h
    have hunsafe : x.toSafeInt? = none := by
      rw [Double.toSafeInt?, Double.toInt?_of_toNat? hx]
      exact if_neg (not_le.mpr hlarge)
    have htext : (ofNumber x).text = x.text := by
      rw [ofNumber, hunsafe]
      rfl
    rw [htext]
    exact Double.digits_text_iff hx hlarge
  · rw [h.text_eq hsmall]
    have hlt : n < 10 ^ 21 := Nat.lt_of_le_of_lt hsmall (by decide)
    exact iff_of_true ⟨decimal_ne_nil n, digits_decimal n⟩ hlt

end Coordinate

namespace Report

/-- A text ends as a place is told whose line has digits alone. -/
def EndsInPlace (t : Text) : Prop :=
  ∃ front digits, t = front ++ (Text.ofString " at line " ++ digits) ∧ digits ≠ [] ∧ Digits digits

/-- A text is parted by the digits at its end and the mark in front of them. -/
theorem dropPlace_of_after? {rest : Text}
    (hafter : Sequence.after? (Text.ofString " at line ").reverse
      (t.reverse.dropWhile Ascii.isDigit) = some rest)
    (hdigits : t.reverse.takeWhile Ascii.isDigit ≠ []) : dropPlace t = rest.reverse := by
  unfold dropPlace
  dsimp only
  split
  · rename_i other hother
    obtain rfl : other = rest := Option.some.inj (hother.symm.trans hafter)
    exact if_neg fun hempty => hdigits (List.isEmpty_iff.mp hempty)
  · rename_i hnone
    cases hnone.symm.trans hafter

/-- The telling of a line in digits is taken off. -/
theorem dropPlace_append (front : Text) (hne : digits ≠ []) (hd : Digits digits) :
    dropPlace (front ++ (Text.ofString " at line " ++ digits)) = front := by
  have hreversed : (front ++ (Text.ofString " at line " ++ digits)).reverse =
      digits.reverse ++ ((Text.ofString " at line ").reverse ++ front.reverse) := by
    simp only [List.reverse_append, List.append_assoc]
  have hall : ∀ u ∈ digits.reverse, Ascii.isDigit u = true := fun u hu =>
    hd u (List.mem_reverse.mp hu)
  have hafter : Sequence.after? (Text.ofString " at line ").reverse
      ((front ++ (Text.ofString " at line " ++ digits)).reverse.dropWhile Ascii.isDigit) =
        some front.reverse := by
    rw [hreversed, List.dropWhile_append_of_pos hall]
    exact Sequence.after?_append _ _
  have hdigits : (front ++ (Text.ofString " at line " ++ digits)).reverse.takeWhile
      Ascii.isDigit ≠ [] := by
    rw [hreversed, List.takeWhile_append_of_pos hall]
    exact List.append_ne_nil_of_left_ne_nil (List.reverse_ne_nil_iff.mpr hne) _
  rw [dropPlace_of_after? hafter hdigits, List.reverse_reverse]

/-- Nothing is taken off, or the telling of a line in digits. -/
theorem dropPlace_cases (t : Text) : dropPlace t = t ∨ EndsInPlace t := by
  unfold dropPlace
  dsimp only
  split
  · rename_i rest hafter
    have hdrop := Sequence.eq_append_of_after? hafter
    change List.dropWhile Ascii.isDigit t.reverse = _ at hdrop
    split_ifs with hempty
    · exact .inl rfl
    · have hparts : t.reverse.takeWhile Ascii.isDigit ++ _ = t.reverse :=
        List.takeWhile_append_dropWhile
      rw [hdrop] at hparts
      refine .inr ⟨rest.reverse, (t.reverse.takeWhile Ascii.isDigit).reverse, ?_, ?_, ?_⟩
      · have hsame := congrArg List.reverse hparts
        simpa only [List.reverse_append, List.reverse_reverse, List.append_assoc] using hsame.symm
      · rw [Ne, List.reverse_eq_nil_iff, ← List.isEmpty_iff]
        exact hempty
      · intro u hu
        exact List.mem_takeWhile_imp (List.mem_reverse.mp hu)
  · exact .inl rfl

/-- A text is left as it is exactly when it does not end as a place is told. -/
theorem dropPlace_eq_self_iff : dropPlace t = t ↔ ¬ EndsInPlace t := by
  refine ⟨?_, (dropPlace_cases t).resolve_right⟩
  rintro hsame ⟨front, digits, rfl, hne, hd⟩
  rw [dropPlace_append front hne hd, List.self_eq_append_right, List.append_eq_nil_iff] at hsame
  exact hne hsame.2

/-- The telling of a line is taken off exactly when it is made of digits. -/
theorem dropPlace_append_iff :
    dropPlace (front ++ (Text.ofString " at line " ++ line)) = front ↔ line ≠ [] ∧ Digits line := by
  refine ⟨fun hdrop => ?_, fun h => dropPlace_append front h.1 h.2⟩
  rcases dropPlace_cases (front ++ (Text.ofString " at line " ++ line)) with hsame | hends
  · rw [hdrop, List.self_eq_append_right, List.append_eq_nil_iff] at hsame
    exact absurd hsame.1 (by decide)
  · obtain ⟨other, digits, hparts, hne, hd⟩ := hends
    rw [hparts, dropPlace_append other hne hd] at hdrop
    rw [hdrop, List.append_cancel_left_eq, List.append_cancel_left_eq] at hparts
    rw [hparts]
    exact ⟨hne, hd⟩

/-- The message that a context gives from the template of a registered error. -/
def rendered (code : Code) (context : Context) : Text :=
  Template.render context.lookup (Text.ofString code.entry.template)

/-- The place that a registered error is made with: lexer errors have the one that is given or the
start of the source, and others have none. -/
def carried (code : Code) (place : Option Location) : Option Location :=
  if code.category = .lexer then some (place.getD startOfSource) else none

theorem ofId?_id (code : Code) : Code.ofId? (Text.ofString code.id) = some code := by
  cases code <;> decide

theorem create_id (code : Code) (context : Context) (place : Option Location) :
    create (Text.ofString code.id) context place =
      .ok (ofCode code context (carried code place)) := by
  rw [create, ofId?_id]
  rfl

/-- The line of a place that is carried is a natural when the one that is given is. -/
theorem isNatural_of_carried {code : Code} {place : Option Location} {p : Location}
    (h : ∀ p ∈ place, ∃ n, p.line.IsNatural n) (hp : carried code place = some p) :
    ∃ n, p.line.IsNatural n := by
  unfold carried at hp
  split_ifs at hp
  obtain rfl := Option.some.inj hp
  cases place with
  | some given => exact h given rfl
  | none => exact ⟨1, Coordinate.isNatural_whole (by decide)⟩

/-- The message of an error whose template is made of some pieces. -/
theorem rendered_eq {code : Code} (pieces : List Template.Piece) (h : ∀ p ∈ pieces, p.Plain)
    (hw : Text.ofString code.entry.template = pieces.flatMap Template.Piece.written)
    (context : Context) :
    rendered code context = pieces.flatMap (Template.Piece.shown context.lookup) := by
  rw [rendered, hw, Template.render_flatMap h]

/-- A registered error has the message of its template, with the place behind it when it carries
one. A host is given that message without the place, and the command line shows it of a lexer error,
exactly when the line is below 10^21 and, for an error without a place, when the message does not
end as a place is told. -/
theorem create_details (code : Code) (context : Context) (place : Option Location)
    (h : ∀ p ∈ place, ∃ n, p.line.IsNatural n) :
    ∃ r, create (Text.ofString code.id) context place = .ok r ∧ r.place? = carried code place ∧
      (r.place? = none → r.message = rendered code context ∧
        (r.details = rendered code context ↔ ¬ EndsInPlace (rendered code context))) ∧
      (∀ p, r.place? = some p → (∃ n, p.line.IsNatural n) ∧
        r.message = rendered code context ++ (Text.ofString " at line " ++ p.line.text) ∧
        (∀ n, p.line.IsNatural n → (n ≤ Double.maxSafe → p.line.text = decimal n) ∧
          (r.details = rendered code context ↔ n < 10 ^ 21)) ∧
        r.line = Text.ofString "Lexer error at line " ++ p.line.text ++ Text.ofString ": " ++
          r.details ++ tag code) ∧
      ∀ formatter, r.shown (some formatter) = formatter ⟨code, r.details, r.place?⟩ := by
  refine ⟨_, create_id code context place, rfl, fun hnone => ?_, fun p hp => ?_,
    fun formatter => rfl⟩
  · change carried code place = none at hnone
    have hmessage : (ofCode code context (carried code place)).message = rendered code context := by
      rw [hnone]
      exact List.append_nil _
    refine ⟨hmessage, ?_⟩
    rw [details, hmessage]
    exact dropPlace_eq_self_iff
  · change carried code place = some p at hp
    have hlexer : code.category = .lexer := by
      unfold carried at hp
      split_ifs at hp with hcategory
      exact hcategory
    refine ⟨isNatural_of_carried h hp, by rw [hp]; rfl, fun n hn => ⟨hn.text_eq, ?_⟩, ?_⟩
    · rw [← hn.digits_text_iff, hp]
      exact dropPlace_append_iff
    · rw [ofCode, hp, hlexer]
      rfl

/-- A message that ends as a place is told keeps its end when the place itself is taken off. -/
theorem create_details_again :
    let context : Context := [(Text.ofString "text", .text (Text.ofString "1e at line 7"))]
    let message := Text.ofString "Malformed numeric literal 1e at line 7"
    (∀ p ∈ some (Location.inSource 4 9), ∃ n, p.line.IsNatural n) ∧
      ∃ r, create (Text.ofString Code.malformedNumber.id) context
          (some (Location.inSource 4 9)) = .ok r ∧
        r.place? = some (Location.inSource 4 9) ∧ EndsInPlace message ∧ r.details = message ∧
        r.shown (some Data.message) = message := by
  intro context message
  have hfour : (Location.inSource 4 9).line.IsNatural 4 := Coordinate.isNatural_whole (by decide)
  have hline : ∀ p ∈ some (Location.inSource 4 9), ∃ n, p.line.IsNatural n := by
    rintro p ⟨⟩
    exact ⟨4, hfour⟩
  obtain ⟨r, hcreate, hcarried, -, hsome, hshown⟩ :=
    create_details .malformedNumber context (some (Location.inSource 4 9)) hline
  have hplace : r.place? = some (Location.inSource 4 9) := hcarried.trans rfl
  have hmessage : rendered .malformedNumber context = message :=
    rendered_eq [.literal (Text.ofString "Malformed numeric literal "),
      .name (Text.ofString "text")] (by decide) (by decide) context
  have hends : EndsInPlace message :=
    ⟨Text.ofString "Malformed numeric literal 1e", Text.ofString "7", by decide, by decide,
      by decide⟩
  have hdetails : r.details = message :=
    hmessage ▸ (((hsome _ hplace).2.2.1 4 hfour).2.mpr (by norm_num))
  exact ⟨hline, r, hcreate, hplace, hends, hdetails, (hshown Data.message).trans hdetails⟩

/-- An error without a place whose message ends as one is told loses the end of its message. -/
theorem exists_details_ne_rendered :
    let context : Context := [(Text.ofString "reason", .text (Text.ofString "x at line 5"))]
    ∃ r, create (Text.ofString "TEXT-S002") context none = .ok r ∧ r.place? = none ∧
      r.message = rendered .invalidStringArgument context ∧
      r.details = Text.ofString "Invalid string argument: x" ∧
      r.details ≠ rendered .invalidStringArgument context := by
  intro context
  have hmessage : rendered .invalidStringArgument context =
      Text.ofString "Invalid string argument: x at line 5" :=
    rendered_eq [.literal (Text.ofString "Invalid string argument: "),
      .name (Text.ofString "reason")] (by decide) (by decide) context
  have hdetails : dropPlace (rendered .invalidStringArgument context) =
      Text.ofString "Invalid string argument: x" := by
    rw [hmessage]
    decide
  have hwhole : (ofCode .invalidStringArgument context none).message =
      rendered .invalidStringArgument context := List.append_nil _
  refine ⟨ofCode .invalidStringArgument context none,
    create_id .invalidStringArgument context none, rfl, hwhole, ?_, ?_⟩
  · rw [details, hwhole, hdetails]
  · rw [details, hwhole, hdetails, hmessage]
    decide

end Report

end TextUnits
