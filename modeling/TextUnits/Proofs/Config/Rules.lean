import TextUnits.Config.Load
import Mathlib.Tactic.Common

/-!
# What a configuration may hold

A configuration is documented as a record of sections, each a record of fields that obey their
rules. The check accepts just these, but for one kind of name: under a name that every record
answers to, a section may hold anything. What is accepted gives every field the value that stands
under its name, and where none stands the default; what is not accepted is told as one error.
-/

namespace TextUnits

/-- The values that a rule is for. -/
inductive FieldRule.Obeyed : FieldRule → Datum → Prop where
  /-- A flag is a truth value. -/
  | flag (b : Bool) : Obeyed .flag (.bool b)
  /-- A marker is a text with at least one unit. -/
  | marker (u : UInt16) (more : Text) : Obeyed .marker (.text (u :: more))
  /-- A separator is a text of just one unit. -/
  | separator (u : UInt16) : Obeyed .separator (.text [u])

/-- A rule accepts the values that it is for. -/
theorem FieldRule.accepts_iff {rule : FieldRule} {value : Datum} :
    rule.accepts value = true ↔ rule.Obeyed value := by
  constructor
  · intro h
    unfold accepts at h
    split at h
    · exact .flag _
    · rename_i t
      cases t with
      | nil => cases h
      | cons u more => exact .marker u more
    · rename_i t
      obtain ⟨u, rfl⟩ := List.length_eq_one_iff.mp (of_decide_eq_true h)
      exact .separator u
    · cases h
  · rintro (b | ⟨u, more⟩ | u) <;> rfl

/-- Names of the members of a record. -/
def Datum.memberNames : Datum → List Text
  | .record members => members.map (·.1)
  | _ => []

/-- A search for what is wrong with a value finds nothing when the value is a record of members that
nothing is wrong with. -/
theorem Datum.findSome?_eq_none_iff (wrong? : Text × Datum → Option Text) (refusal : Text)
    (value : Datum) :
    (match value with
      | .record members => members.findSome? wrong?
      | _ => some refusal) = none ↔
      ∃ members, value = .record members ∧ ∀ entry ∈ members, wrong? entry = none := by
  split
  · rename_i members
    rw [List.findSome?_eq_none_iff]
    constructor
    · exact fun h => ⟨members, rfl, h⟩
    · rintro ⟨_, ⟨⟩, h⟩
      exact h
  · rename_i hrecord
    refine iff_of_false (Option.some_ne_none refusal) ?_
    rintro ⟨members, rfl, -⟩
    exact hrecord members rfl

namespace ConfigSection

variable {s : ConfigSection} {key : Text} {rule : FieldRule} {value : Datum}

/-- The value is a record of fields that obey their rules. Only under an excused name may it hold
anything. -/
def Admits (s : ConfigSection) (excused : Text → Prop) (value : Datum) : Prop :=
  ∃ members, value = .record members ∧ ∀ entry ∈ members,
    (∃ field ∈ s.fields, entry.1 = Text.ofString field.1 ∧ field.2.Obeyed entry.2) ∨
      excused entry.1

/-- A section is found under its name only. -/
theorem ofName?_eq_some_iff : ofName? key = some s ↔ key = Text.ofString s.name := by
  constructor
  · intro h
    have hname := List.find?_some h
    exact (of_decide_eq_true hname).symm
  · rintro rfl
    cases s <;> rfl

/-- Each field is found under its name. -/
theorem rule?_of_mem : ∀ s : ConfigSection, ∀ field ∈ s.fields,
    s.rule? (Text.ofString field.1) = some field.2 := by
  rintro (_ | _ | _) <;> decide

/-- No field has a name that every record answers to. -/
theorem isInherited_of_mem : ∀ s : ConfigSection, ∀ field ∈ s.fields,
    Datum.isInherited (Text.ofString field.1) = false := by
  rintro (_ | _ | _) <;> decide

/-- The fields of a section with their rules are told by their names. -/
theorem rule?_eq_some_iff :
    s.rule? key = some rule ↔
      ∃ field ∈ s.fields, key = Text.ofString field.1 ∧ field.2 = rule := by
  constructor
  · intro h
    obtain ⟨field, hfind, hrule⟩ := Option.map_eq_some_iff.mp h
    have hname := List.find?_some hfind
    exact ⟨field, List.mem_of_find?_eq_some hfind, (of_decide_eq_true hname).symm, hrule⟩
  · rintro ⟨field, hmem, rfl, rfl⟩
    exact rule?_of_mem s field hmem

/-- Nothing is wrong with a value under the name of a field that it obeys, nor with any value under
a name that every record answers to. -/
theorem fieldProblem?_eq_none_iff :
    s.fieldProblem? key value = none ↔
      (∃ field ∈ s.fields, key = Text.ofString field.1 ∧ field.2.Obeyed value) ∨
        Datum.isInherited key = true := by
  unfold fieldProblem?
  dsimp only
  cases hrule : s.rule? key with
  | some rule =>
    obtain ⟨field, hmem, rfl, rfl⟩ := rule?_eq_some_iff.mp hrule
    have hown := isInherited_of_mem s field hmem
    dsimp only
    simp only [ite_eq_left_iff, reduceCtorEq, imp_false, not_not, FieldRule.accepts_iff]
    constructor
    · intro hobeyed
      exact .inl ⟨field, hmem, rfl, hobeyed⟩
    · rintro (⟨other, hother, hname, hobeyed⟩ | hinherited)
      · rw [hname, rule?_of_mem s other hother, Option.some.injEq] at hrule
        rwa [← hrule]
      · rw [hown] at hinherited
        cases hinherited
  | none =>
    have hunknown : ¬ ∃ field ∈ s.fields, key = Text.ofString field.1 ∧ field.2.Obeyed value := by
      rintro ⟨field, hmem, rfl, -⟩
      rw [rule?_of_mem s field hmem] at hrule
      cases hrule
    dsimp only
    simp only [ite_eq_left_iff, reduceCtorEq, imp_false, not_not, or_iff_right hunknown]

/-- Nothing is wrong with a record of fields that obey their rules or have such a name. -/
theorem problem?_eq_none_iff :
    s.problem? value = none ↔ s.Admits (Datum.isInherited · = true) value := by
  have hmembers := Datum.findSome?_eq_none_iff (fun field => s.fieldProblem? field.1 field.2)
    (Text.ofString (s.name ++ " must be a mapping")) value
  simp only [fieldProblem?_eq_none_iff] at hmembers
  exact hmembers

/-- Without an excuse no member may have a name that every record answers to. -/
theorem admits_iff_of_inherited :
    s.Admits (fun _ => False) value ↔
      s.Admits (Datum.isInherited · = true) value ∧
        ∀ name ∈ value.memberNames, Datum.isInherited name = false := by
  constructor
  · rintro ⟨members, rfl, h⟩
    refine ⟨⟨members, rfl, fun entry hentry => ?_⟩, fun name hname => ?_⟩
    · exact (h entry hentry).imp_right False.elim
    · obtain ⟨entry, hentry, rfl⟩ := List.mem_map.mp hname
      obtain ⟨field, hfield, hkey, -⟩ := (h entry hentry).resolve_right id
      rw [hkey]
      exact isInherited_of_mem s field hfield
  · rintro ⟨⟨members, rfl, h⟩, hown⟩
    refine ⟨members, rfl, fun entry hentry => .inl ?_⟩
    have hname := hown entry.1 (List.mem_map_of_mem hentry)
    exact (h entry hentry).resolve_right (Bool.eq_false_iff.mp hname)

end ConfigSection

namespace Config

variable {d value : Datum} {name : Text} {s : ConfigSection} {key : String}

/-- The value is a record of sections under their names. -/
def Admits (excused : Text → Prop) (d : Datum) : Prop :=
  ∃ sections, d = .record sections ∧ ∀ entry ∈ sections,
    ∃ s : ConfigSection, entry.1 = Text.ofString s.name ∧ s.Admits excused entry.2

/-- Names that the sections of a record hold values under. -/
def keys : Datum → List Text
  | .record sections => sections.flatMap fun entry => entry.2.memberNames
  | _ => []

/-- The fields of a configuration under their names. -/
def values (c : Config) : ConfigSection → List (String × Datum)
  | .lexer =>
    [("skipWhitespace", .bool c.lexer.skipWhitespace),
     ("skipNewlines", .bool c.lexer.skipNewlines),
     ("skipComments", .bool c.lexer.skipComments),
     ("allowDashesInIdentifiers", .bool c.lexer.allowDashes),
     ("lineCommentOpener", .text c.lexer.lineOpener),
     ("blockCommentOpener", .text c.lexer.blockOpener),
     ("blockCommentCloser", .text c.lexer.blockCloser)]
  | .format =>
    [("thousandsSeparator", .text c.format.group), ("decimalSeparator", .text c.format.decimal)]
  | .transcode =>
    [("forbidBom", .bool c.transcode.forbidMark),
     ("errorOnInvalidCodePoint", .bool c.transcode.refuseInvalid)]

/-- These are all fields that there are rules for. -/
theorem map_fst_values (c : Config) (s : ConfigSection) :
    (c.values s).map (·.1) = s.fields.map (·.1) := by
  cases s <;> rfl

theorem sectionProblem?_eq_none_iff :
    sectionProblem? name value = none ↔
      ∃ s : ConfigSection, name = Text.ofString s.name ∧
        s.Admits (Datum.isInherited · = true) value := by
  unfold sectionProblem?
  simp only [← ConfigSection.ofName?_eq_some_iff, ← ConfigSection.problem?_eq_none_iff]
  cases ConfigSection.ofName? name with
  | some s => simp
  | none => simp

theorem check_eq_ok_iff : check d = .ok () ↔ Admits (Datum.isInherited · = true) d := by
  have hcheck : check d = .ok () ↔ problem? d = none := by
    unfold check
    cases problem? d <;> simp
  have hsections := Datum.findSome?_eq_none_iff (fun entry => sectionProblem? entry.1 entry.2)
    (Text.ofString "configuration must be a mapping") d
  simp only [sectionProblem?_eq_none_iff] at hsections
  exact hcheck.trans hsections

/-- What is not accepted is refused with what is wrong with it. -/
theorem exists_of_check_ne_ok (h : check d ≠ .ok ()) :
    ∃ details, check d = .error (.invalidConfig details) := by
  unfold check at h ⊢
  cases hproblem : problem? d with
  | none => exact absurd (by rw [hproblem]) h
  | some details => exact ⟨details, rfl⟩

/-- What the check refuses is not loaded, and what it accepts is laid over the defaults. -/
theorem ofDatum_eq (d : Datum) :
    ofDatum d = (check d).map fun _ => Config.default.overlay d := by
  unfold ofDatum
  cases check d <;> rfl

theorem admits_iff_of_inherited :
    Admits (fun _ => False) d ↔
      Admits (Datum.isInherited · = true) d ∧ ∀ name ∈ keys d, Datum.isInherited name = false := by
  constructor
  · rintro ⟨sections, rfl, h⟩
    refine ⟨⟨sections, rfl, fun entry hentry => ?_⟩, fun name hname => ?_⟩
    · obtain ⟨s, hs, hadmits⟩ := h entry hentry
      exact ⟨s, hs, (ConfigSection.admits_iff_of_inherited.mp hadmits).1⟩
    · obtain ⟨entry, hentry, hmember⟩ := List.mem_flatMap.mp hname
      obtain ⟨s, -, hadmits⟩ := h entry hentry
      exact (ConfigSection.admits_iff_of_inherited.mp hadmits).2 name hmember
  · rintro ⟨⟨sections, rfl, h⟩, hown⟩
    refine ⟨sections, rfl, fun entry hentry => ?_⟩
    obtain ⟨s, hs, hadmits⟩ := h entry hentry
    refine ⟨s, hs, ConfigSection.admits_iff_of_inherited.mpr ⟨hadmits, fun name hname => ?_⟩⟩
    exact hown name (List.mem_flatMap.mpr ⟨entry, hentry, hname⟩)

/-- A member of a record is one of its entries. -/
theorem mem_of_member? (h : member? d key = some value) :
    ∃ members, d = .record members ∧ (Text.ofString key, value) ∈ members := by
  cases d with
  | record members =>
    obtain ⟨entry, hfind, rfl⟩ := Option.map_eq_some_iff.mp h
    have hname := List.find?_some hfind
    rw [← of_decide_eq_true hname]
    exact ⟨members, rfl, List.mem_of_find?_eq_some hfind⟩
  | _ => cases h

/-- A field of an accepted record obeys its rule. -/
theorem obeyed_of_field? {field : String × FieldRule} (h : check d = .ok ())
    (hfield : field ∈ s.fields) (hvalue : field? d s field.1 = some value) :
    field.2.Obeyed value := by
  obtain ⟨contents, hsection, hmember⟩ := Option.bind_eq_some_iff.mp hvalue
  obtain ⟨sections, rfl, hentry⟩ := mem_of_member? hsection
  obtain ⟨members, rfl, hmem⟩ := mem_of_member? hmember
  obtain ⟨_, ⟨⟩, hsections⟩ := check_eq_ok_iff.mp h
  obtain ⟨other, hname, _, ⟨⟩, hmembers⟩ := hsections _ hentry
  have hsame : some s = some other :=
    (ConfigSection.ofName?_eq_some_iff.mpr rfl).symm.trans
      (ConfigSection.ofName?_eq_some_iff.mpr hname)
  cases hsame
  have hrule := ConfigSection.rule?_of_mem s field hfield
  rcases hmembers _ hmem with ⟨found, hfound, hkey, hobeyed⟩ | hinherited
  · dsimp only at hkey
    rw [hkey, ConfigSection.rule?_of_mem s found hfound, Option.some.injEq] at hrule
    rwa [← hrule]
  · dsimp only at hinherited
    rw [ConfigSection.isInherited_of_mem s field hfield] at hinherited
    cases hinherited

/-- A flag of an accepted record is the value given for it, or what holds without it. -/
theorem bool_flag (h : check d = .ok ()) (hfield : (key, .flag) ∈ s.fields) (otherwise : Bool) :
    Datum.bool (flag d s key otherwise) = (field? d s key).getD (.bool otherwise) := by
  unfold flag
  cases hvalue : field? d s key with
  | none => rfl
  | some value =>
    cases obeyed_of_field? h hfield hvalue with
    | flag b => rfl

/-- A marker or separator of an accepted record is the value given for it, or what holds without
it. -/
theorem text_text (h : check d = .ok ())
    (hfield : (key, .marker) ∈ s.fields ∨ (key, .separator) ∈ s.fields) (otherwise : Text) :
    Datum.text (text d s key otherwise) = (field? d s key).getD (.text otherwise) := by
  unfold text
  cases hvalue : field? d s key with
  | none => rfl
  | some value =>
    rcases hfield with hmarker | hseparator
    · cases obeyed_of_field? h hmarker hvalue with
      | marker u more => rfl
    · cases obeyed_of_field? h hseparator hvalue with
      | separator u => rfl

/-- An accepted record gives every field that it holds its value, and leaves the others. -/
theorem values_overlay (h : check d = .ok ()) (c : Config) (s : ConfigSection) :
    (c.overlay d).values s =
      (c.values s).map fun field => (field.1, (field? d s field.1).getD field.2) := by
  cases s <;> simp (disch := decide) only [values, overlay, List.map_cons, List.map_nil,
    bool_flag h, text_text h]

/-- Let a record be given, where no value stands for a record without sections. The check accepts it
exactly when it has the documented shape, but for values under names that every record answers to;
so it accepts exactly the documented shape as long as no section of what it accepts holds such a
name. What is not accepted is told as one error. What is accepted is loaded, and each field is the
value given for it, or else the default. -/
theorem check_emptyWhenNull (d : Datum) :
    let given := emptyWhenNull d
    (check given = .ok () ↔ Admits (Datum.isInherited · = true) given) ∧
    ((check given = .ok () ↔ Admits (fun _ => False) given) ↔
      (check given = .ok () → ∀ name ∈ keys given, Datum.isInherited name = false)) ∧
    (check given ≠ .ok () → ∃ fault, check given = .error fault ∧ ofDatum given = .error fault ∧
      fault.report.code?.map Code.id = some "TEXT-C002") ∧
    (check given = .ok () → ∃ c, ofDatum given = .ok c ∧ ∀ s, c.values s =
      (Config.default.values s).map fun field =>
        (field.1, (field? given s field.1).getD field.2)) := by
  intro given
  refine ⟨check_eq_ok_iff, ?_, fun hfails => ?_, fun h => ?_⟩
  · rw [admits_iff_of_inherited, ← check_eq_ok_iff]
    exact iff_self_and
  · obtain ⟨details, hcheck⟩ := exists_of_check_ne_ok hfails
    exact ⟨_, hcheck, by rw [ofDatum_eq, hcheck]; rfl, rfl⟩
  · exact ⟨_, by rw [ofDatum_eq, h]; rfl, values_overlay h Config.default⟩

/-- A section that holds a value under the name of what every record is made by is accepted, though
no field has that name. -/
theorem check_constructor :
    let given := emptyWhenNull (.record [(Text.ofString "lexer",
      .record [(Text.ofString "constructor", .ofNat 1)])])
    check given = .ok () ∧ ¬ Admits (fun _ => False) given := by
  intro given
  have hcheck : check given = .ok () := by rfl
  refine ⟨hcheck, fun hadmits => ?_⟩
  have hown := (admits_iff_of_inherited.mp hadmits).2 (Text.ofString "constructor") (by decide)
  exact absurd hown (by decide)

end Config

end TextUnits
