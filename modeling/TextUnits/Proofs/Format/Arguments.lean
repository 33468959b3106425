import TextUnits.Fault.Report
import TextUnits.Proofs.Format.Runs
import Mathlib.Data.List.Basic

/-!
# Slots and arguments

The directives of a format string have slots that take the arguments from left to right: one for a
width and one for a precision that are not written, and one for the value. Formatting succeeds if
there is an argument for every slot and each is taken. Otherwise it fails for the first argument
that its slot does not take, or if there is none, for the first one that is missing.
-/

namespace TextUnits.Format

/-- Slots that take an integer: `*` for a size, and the letters of integer conversions. -/
def integerSlots : Text := Text.ofString "*diuxXobBp"

/-- Letters whose slot takes any number. -/
def numberSlots : Text := Text.ofString "feEgGaA"

/-- Letters that take an argument; any other unit stands for itself. -/
def valueLetters : Text := Text.ofString "scndiuxXobBpfeEgGaA"

/-- The types of arguments that a slot takes, whatever the value. -/
def TakesType (slot : UInt16) : Argument → Prop
  | .integer _ => slot ∈ integerSlots ∨ slot ∈ numberSlots
  | .number _ => slot ∈ integerSlots ∨ slot ∈ numberSlots ∨ slot = 0x63
  | .text _ => slot = 0x73 ∨ slot = 0x63
  | .null => slot = 0x73
  | .counter _ => slot = 0x6E
  | .record => False

/-- What a slot asks of a value: a number is finite where an integer is made of it, and where a
character is, it is a code point; a text has a first character then. -/
def InRange (slot : UInt16) : Argument → Prop
  | .number x =>
    (slot ∈ integerSlots → x.isFinite = true) ∧
      (slot = 0x63 → ∃ code ∈ x.toNat?, code ≤ 0x10FFFF)
  | .text t => slot = 0x63 → t ≠ []
  | .integer _ | .null | .counter _ | .record => True

/-- An argument has a type that its slot takes, and a value that it takes of that type. -/
def Accepts (slot : UInt16) (a : Argument) : Prop := TakesType slot a ∧ InRange slot a

instance (slot : UInt16) (a : Argument) : Decidable (TakesType slot a) :=
  match a with
  | .integer _ => inferInstanceAs (Decidable (slot ∈ integerSlots ∨ slot ∈ numberSlots))
  | .number _ =>
    inferInstanceAs (Decidable (slot ∈ integerSlots ∨ slot ∈ numberSlots ∨ slot = 0x63))
  | .text _ => inferInstanceAs (Decidable (slot = 0x73 ∨ slot = 0x63))
  | .null => inferInstanceAs (Decidable (slot = 0x73))
  | .counter _ => inferInstanceAs (Decidable (slot = 0x6E))
  | .record => inferInstanceAs (Decidable False)

instance (slot : UInt16) (a : Argument) : Decidable (InRange slot a) :=
  match a with
  | .number x =>
    inferInstanceAs (Decidable ((slot ∈ integerSlots → x.isFinite = true) ∧
      (slot = 0x63 → ∃ code ∈ x.toNat?, code ≤ 0x10FFFF)))
  | .text t => inferInstanceAs (Decidable (slot = 0x63 → t ≠ []))
  | .integer _ | .null | .counter _ | .record => inferInstanceAs (Decidable True)

instance (slot : UInt16) (a : Argument) : Decidable (Accepts slot a) :=
  inferInstanceAs (Decidable (TakesType slot a ∧ InRange slot a))

/-- The slots of a size. -/
def Size.slots : Size → List UInt16
  | number _ | infinite => []
  | argument => [0x2A]

/-- The slots of the width and the precision of a directive. -/
def Directive.sizeSlots (d : Directive) : List UInt16 :=
  d.width.slots ++ (d.precision.map Size.slots).getD []

/-- The slots of a directive. One that is cut off has none. -/
def Directive.slots (d : Directive) : List UInt16 :=
  match d.conversion with
  | none => []
  | some letter => d.sizeSlots ++ if letter ∈ valueLetters then [letter] else []

/-- The slots of a segment. -/
def Segment.slots : Segment → List UInt16
  | literal _ => []
  | directive _ d => d.slots

/-- The slots of a format string from left to right. -/
def slotsOf (fmt : Text) : List UInt16 := (segments fmt).flatMap Segment.slots

/-- What formatting fails for when slots take arguments from left to right: the first that its slot
does not take, or the first that is missing. The arguments are counted from those taken before. -/
def faultOf? (taken : Nat) : List UInt16 → List Argument → Option Fault
  | [], _ => none
  | _ :: _, [] => some (.argumentMissing (taken + 1))
  | slot :: slots, a :: args =>
    if Accepts slot a then faultOf? (taken + 1) slots args else some (mismatch slot a)

/-- A program that takes an argument for each slot, and fails if one of the slots does. -/
def Reads {α : Type} (slots : List UInt16) (program : Supply → Except Fault (α × Supply)) : Prop :=
  ∀ s, match faultOf? s.taken slots s.left with
    | some fault => program s = .error fault
    | none => ∃ a, program s = .ok (a, ⟨s.taken + slots.length, s.left.drop slots.length⟩)

/-- A result that is there exactly for an argument that the slot takes. -/
structure Checks {α : Type} (slot : UInt16) (a : Argument) (result : Except Fault α) : Prop where
  /-- The argument is taken. -/
  ok : Accepts slot a → ∃ b, result = .ok b
  /-- It is not, and the fault names the slot. -/
  error : ¬ Accepts slot a → result = .error (mismatch slot a)

variable {α β : Type} {slot letter : UInt16} {slots more : List UInt16} {a : Argument}
  {taken : Nat} {args : List Argument}

section Faults

theorem faultOf?_nil (taken : Nat) (args : List Argument) : faultOf? taken [] args = none := by
  cases args <;> rfl

/-- The slots of two parts fail for the first part, or else for the second one. -/
theorem faultOf?_append (taken : Nat) (slots more : List UInt16) (args : List Argument) :
    faultOf? taken (slots ++ more) args =
      (faultOf? taken slots args).or
        (faultOf? (taken + slots.length) more (args.drop slots.length)) := by
  induction slots generalizing taken args with
  | nil => rw [faultOf?_nil]; rfl
  | cons slot slots ih =>
    cases args with
    | nil => rfl
    | cons a args =>
      rw [List.cons_append, faultOf?, faultOf?]
      split_ifs
      · rw [ih, List.length_cons, List.drop_succ_cons, Nat.add_right_comm, Nat.add_assoc]
      · rfl

/-- If all arguments that there are for slots are taken, one is missing or none. -/
theorem faultOf?_of_accepts (h : ∀ p ∈ slots.zip args, Accepts p.1 p.2) (taken : Nat) :
    faultOf? taken slots args =
      if args.length < slots.length then some (.argumentMissing (taken + args.length + 1))
      else none := by
  induction slots generalizing taken args with
  | nil =>
    rw [faultOf?_nil]
    exact (if_neg (Nat.not_lt_zero _)).symm
  | cons slot slots ih =>
    cases args with
    | nil => exact (if_pos (Nat.succ_pos _)).symm
    | cons a args =>
      rw [List.zip_cons_cons, List.forall_mem_cons] at h
      rw [faultOf?, if_pos h.1, ih h.2, List.length_cons, List.length_cons,
        Nat.add_right_comm taken 1]
      simp only [Nat.succ_lt_succ_iff, Nat.add_assoc]

/-- An argument that its slot does not take is the fault if those in front of it are taken. -/
theorem faultOf?_of_not_accepts {before after : List (UInt16 × Argument)}
    (hzip : slots.zip args = before ++ (slot, a) :: after) (h : ∀ p ∈ before, Accepts p.1 p.2)
    (ha : ¬ Accepts slot a) (taken : Nat) : faultOf? taken slots args = some (mismatch slot a) := by
  induction before generalizing slots args taken with
  | nil =>
    cases slots with
    | nil => cases hzip
    | cons first slots =>
      cases args with
      | nil => cases hzip
      | cons b args =>
        cases hzip
        exact if_neg ha
  | cons p before ih =>
    cases slots with
    | nil => cases hzip
    | cons first slots =>
      cases args with
      | nil => cases hzip
      | cons b args =>
        rw [List.zip_cons_cons, List.cons_append, List.cons.injEq] at hzip
        obtain ⟨rfl, hzip⟩ := hzip
        rw [List.forall_mem_cons] at h
        rw [faultOf?, if_pos h.1]
        exact ih hzip h.2 _

end Faults

section Programs

theorem reads_ok (f : Supply → α) : Reads [] fun s => .ok (f s, s) := by
  intro s
  rw [faultOf?_nil]
  exact ⟨f s, rfl⟩

/-- A program that goes on with another has the slots of both. -/
theorem Reads.bind {x : Supply → Except Fault (α × Supply)}
    {next : α × Supply → Except Fault (β × Supply)} (hx : Reads slots x)
    (hn : ∀ a, Reads more fun s => next (a, s)) :
    Reads (slots ++ more) fun s => x s >>= next := by
  intro s
  have hfirst := hx s
  rw [faultOf?_append]
  cases hf : faultOf? s.taken slots s.left with
  | some fault =>
    rw [hf] at hfirst
    dsimp only at hfirst ⊢
    rw [hfirst]
    rfl
  | none =>
    rw [hf] at hfirst
    obtain ⟨a, ha⟩ := hfirst
    have hsecond := hn a ⟨s.taken + slots.length, s.left.drop slots.length⟩
    dsimp only [Option.or] at hsecond ⊢
    rw [ha, List.length_append, ← Nat.add_assoc, ← List.drop_drop]
    exact hsecond

/-- A program that makes its result of one argument. -/
theorem reads_take {x : Argument → Except Fault β} (hx : ∀ a, Checks slot a (x a))
    (f : Supply → β → α) :
    Reads [slot] fun s => s.take >>= fun taken => x taken.1 >>= fun b => .ok (f s b, taken.2) := by
  rintro ⟨taken, args⟩
  cases args with
  | nil => rfl
  | cons a args =>
    rw [faultOf?, faultOf?_nil]
    by_cases ha : Accepts slot a
    · obtain ⟨b, hb⟩ := (hx a).ok ha
      rw [if_pos ha]
      refine ⟨f ⟨taken, a :: args⟩ b, ?_⟩
      change (x a >>= fun b => .ok (f _ b, Supply.mk (taken + 1) args)) = _
      rw [hb]
      rfl
    · rw [if_neg ha]
      change (x a >>= fun b => .ok (f _ b, Supply.mk (taken + 1) args)) = _
      rw [(hx a).error ha]
      rfl

end Programs

section Conversions

theorem Checks.map {x : Except Fault α} (h : Checks slot a x) (f : α → β) :
    Checks slot a (x >>= fun b => .ok (f b)) := by
  constructor
  · intro ha
    obtain ⟨b, rfl⟩ := h.ok ha
    exact ⟨f b, rfl⟩
  · intro ha
    rw [h.error ha]
    rfl

theorem checks_ok (h : Accepts slot a) (b : α) : Checks slot a (.ok b) :=
  ⟨fun _ => ⟨b, rfl⟩, fun hn => absurd h hn⟩

theorem checks_error (h : ¬ Accepts slot a) :
    Checks slot a (.error (mismatch slot a) : Except Fault α) :=
  ⟨fun ha => absurd ha h, fun _ => rfl⟩

/-- The integer of an argument. -/
theorem checks_integerOf (h : slot ∈ integerSlots) (a : Argument) :
    Checks slot a (integerOf slot a) := by
  have hall : ∀ slot ∈ integerSlots, slot ≠ 0x63 ∧ slot ≠ 0x73 ∧ slot ≠ 0x6E :=
    List.forall_iff_forall_mem.mp (by decide)
  obtain ⟨hcharacter, htext, hcounter⟩ := hall slot h
  cases a with
  | integer n =>
    have ha : Accepts slot (.integer n) := ⟨.inl h, trivial⟩
    exact checks_ok ha n
  | number x =>
    have hiff : Accepts slot (.number x) ↔ x.isFinite = true := by
      simp [Accepts, TakesType, InRange, h, hcharacter]
    cases hx : x.form with
    | finite negative significand power =>
      have htrunc : ∃ n, x.trunc? = some n := by
        rw [Double.trunc?, hx]
        exact ⟨_, rfl⟩
      obtain ⟨n, hn⟩ := htrunc
      rw [integerOf, hn]
      exact checks_ok (hiff.mpr (by rw [Double.isFinite, hx])) n
    | _ =>
      have htrunc : x.trunc? = none := by rw [Double.trunc?, hx]
      rw [integerOf, htrunc]
      refine checks_error (mt hiff.mp ?_)
      rw [Double.isFinite, hx]
      exact Bool.false_ne_true
  | text t => exact checks_error fun ha => ha.1.elim htext hcharacter
  | null => exact checks_error fun ha => htext ha.1
  | counter x => exact checks_error fun ha => hcounter ha.1
  | record => exact checks_error fun ha => ha.1

/-- The floating point number of an argument. -/
theorem checks_numberOf (h : slot ∈ numberSlots) (a : Argument) :
    Checks slot a (numberOf slot a) := by
  have hall : ∀ slot ∈ numberSlots,
      slot ∉ integerSlots ∧ slot ≠ 0x63 ∧ slot ≠ 0x73 ∧ slot ≠ 0x6E :=
    List.forall_iff_forall_mem.mp (by decide)
  obtain ⟨hinteger, hcharacter, htext, hcounter⟩ := hall slot h
  cases a with
  | integer n =>
    have ha : Accepts slot (.integer n) := ⟨.inr h, trivial⟩
    exact checks_ok ha _
  | number x =>
    have ha : Accepts slot (.number x) :=
      ⟨.inr (.inl h), fun hi => absurd hi hinteger, fun hc => absurd hc hcharacter⟩
    exact checks_ok ha x
  | text t => exact checks_error fun ha => ha.1.elim htext hcharacter
  | null => exact checks_error fun ha => htext ha.1
  | counter x => exact checks_error fun ha => hcounter ha.1
  | record => exact checks_error fun ha => ha.1

/-- The field of a text. -/
theorem checks_textField (a : Argument) (precision : Option Nat) :
    Checks 0x73 a (textField a precision) := by
  have hinteger : 0x73 ∉ integerSlots := by decide
  have hnumber : 0x73 ∉ numberSlots := by decide
  cases a with
  | text t =>
    have ha : Accepts 0x73 (.text t) := ⟨.inl rfl, fun hc => absurd hc (by decide)⟩
    exact checks_ok ha _
  | null =>
    have ha : Accepts 0x73 .null := ⟨rfl, trivial⟩
    exact checks_ok ha _
  | _ => exact checks_error (by simp [Accepts, TakesType, hinteger, hnumber])

/-- The field of a character. -/
theorem checks_characterField (a : Argument) : Checks 0x63 a (characterField a) := by
  have hinteger : 0x63 ∉ integerSlots := by decide
  have hnumber : 0x63 ∉ numberSlots := by decide
  cases a with
  | number x =>
    rw [characterField]
    cases hx : x.toNat? with
    | none => exact checks_error (by simp [Accepts, InRange, hx])
    | some code =>
      have hiff : Accepts 0x63 (.number x) ↔ code ≤ Scalar.last := by
        simp [Accepts, TakesType, InRange, hinteger, hx, Scalar.last]
      dsimp only
      split_ifs with hlast
      · exact checks_ok (hiff.mpr hlast) _
      · exact checks_error (mt hiff.mp hlast)
  | text t =>
    cases t with
    | nil => exact checks_error fun ha => ha.2 rfl rfl
    | cons u rest =>
      have ha : Accepts 0x63 (.text (u :: rest)) := ⟨.inr rfl, fun _ => List.cons_ne_nil u rest⟩
      exact checks_ok ha _
  | _ => exact checks_error (by simp [Accepts, TakesType, hinteger, hnumber])

/-- The note of a counter. -/
theorem checks_count (r : Resolved) (separators : Separators) (a : Argument) :
    Checks 0x6E a (valuePiece .count 0x6E r separators a) := by
  have hinteger : 0x6E ∉ integerSlots := by decide
  have hnumber : 0x6E ∉ numberSlots := by decide
  cases a with
  | counter x =>
    have ha : Accepts 0x6E (.counter x) := ⟨rfl, trivial⟩
    exact checks_ok ha _
  | _ => exact checks_error (by simp [Accepts, TakesType, hinteger, hnumber])

/-- The units whose slots a conversion can have. -/
def Conversion.units : Conversion → Text
  | text => [0x73]
  | character => [0x63]
  | count => [0x6E]
  | decimal _ | radix _ _ | pointer => integerSlots
  | fixed | exponent _ | general _ | hexadecimal _ => numberSlots
  | literal => []

/-- The piece of a conversion. -/
theorem checks_valuePiece {c : Conversion} (h : slot ∈ c.units) (r : Resolved)
    (separators : Separators) (a : Argument) :
    Checks slot a (valuePiece c slot r separators a) := by
  cases c with
  | text =>
    obtain rfl := List.mem_singleton.mp h
    exact (checks_textField a r.precision).map _
  | character =>
    obtain rfl := List.mem_singleton.mp h
    exact (checks_characterField a).map _
  | count =>
    obtain rfl := List.mem_singleton.mp h
    exact checks_count r separators a
  | decimal signed => exact ((checks_integerOf h a).map _).map _
  | radix base upper => exact ((checks_integerOf h a).map _).map _
  | pointer => exact ((checks_integerOf h a).map _).map _
  | fixed => exact ((checks_numberOf h a).map _).map _
  | exponent upper => exact ((checks_numberOf h a).map _).map _
  | general upper => exact ((checks_numberOf h a).map _).map _
  | hexadecimal upper => exact ((checks_numberOf h a).map _).map _
  | literal => exact absurd h List.not_mem_nil

theorem mem_units (h : letter ∈ valueLetters) : letter ∈ (conversionOf letter).units := by
  have hall : ∀ letter ∈ valueLetters, letter ∈ (conversionOf letter).units :=
    List.forall_iff_forall_mem.mp (by decide)
  exact hall letter h

/-- A unit stands for itself if it is none of the letters. -/
theorem conversionOf_eq_literal_iff : conversionOf letter = .literal ↔ letter ∉ valueLetters := by
  have hall : ∀ letter ∈ valueLetters, conversionOf letter ≠ .literal :=
    List.forall_iff_forall_mem.mp (by decide)
  refine ⟨fun h hm => hall letter hm h, fun h => ?_⟩
  have hnone : (conversions.find? fun entry => Text.unit entry.1 = letter) = none := by
    have hunits : valueLetters = conversions.map fun entry => Text.unit entry.1 := by decide
    rw [List.find?_eq_none]
    intro entry he hsame
    rw [hunits] at h
    exact h (of_decide_eq_true hsame ▸ List.mem_map_of_mem he)
  rw [conversionOf, hnone]
  rfl

end Conversions

section Directives

variable {d : Directive} {separators : Separators}

/-- A size takes its argument. -/
theorem reads_sizeOf (size : Size) : Reads size.slots (sizeOf size) := by
  cases size with
  | number n => exact reads_ok fun _ => (n : Int)
  | infinite => exact reads_ok fun _ => (Double.beyond : Int)
  | argument =>
    have hstar : 0x2A ∈ integerSlots := by decide
    exact reads_take (checks_integerOf hstar) fun _ n => n

/-- The sizes of a directive take their arguments. -/
theorem reads_resolve (d : Directive) : Reads d.sizeSlots (resolve d) := by
  unfold resolve Directive.sizeSlots
  refine (reads_sizeOf d.width).bind fun width => ?_
  cases d.precision with
  | none => exact reads_ok fun _ => Resolved.mk _ _ none _
  | some size =>
    change Reads size.slots _
    rw [← List.append_nil size.slots]
    refine (reads_sizeOf size).bind fun precision => ?_
    exact reads_ok fun _ =>
      Resolved.mk _ _ (if precision < 0 then none else some precision.toNat) _

/-- A directive takes its sizes and then its value. -/
theorem reads_pieceOf (hd : d.conversion = some letter) (separators : Separators) (position : Nat) :
    Reads d.slots (pieceOf d letter separators position) := by
  have hslots : d.slots = d.sizeSlots ++ if letter ∈ valueLetters then [letter] else [] := by
    rw [Directive.slots, hd]
  have heq := funext (pieceOf_eq d letter separators position)
  rw [hslots, heq]
  refine (reads_resolve d).bind fun r => ?_
  by_cases hvalue : letter ∈ valueLetters
  · have hliteral : conversionOf letter ≠ .literal := fun h =>
      conversionOf_eq_literal_iff.mp h hvalue
    simp only [if_pos hvalue, if_neg hliteral]
    exact reads_take (checks_valuePiece (mem_units hvalue) r separators)
      fun s piece => piece.behind s.taken position
  · simp only [if_neg hvalue, if_pos (conversionOf_eq_literal_iff.mpr hvalue)]
    exact reads_ok fun _ => _

theorem slotsOf_nil : slotsOf [] = [] := by
  rw [slotsOf, segments_nil]
  rfl

theorem slotsOf_literal {u : UInt16} (hu : u ≠ 0x25) (rest : Text) :
    slotsOf (u :: rest) = slotsOf rest := by
  rw [slotsOf, segments_cons, if_neg hu]
  rfl

theorem slotsOf_directive (rest : Text) :
    slotsOf (0x25 :: rest) =
      (Directive.parse rest).1.slots ++ slotsOf (Directive.parse rest).2 := by
  rw [slotsOf, segments_cons, if_pos rfl, List.flatMap_cons]
  rfl

/-- Output ends with the fault of its slots. -/
theorem fault_output (separators : Separators) (t : Text) (position : Nat) (s : Supply) :
    (output separators t position s).fault = faultOf? s.taken (slotsOf t) s.left := by
  induction t using segments.induct generalizing position s with
  | case1 =>
    rw [output_eq, slotsOf_nil, faultOf?_nil]
    rfl
  | @case2 rest parsed ih =>
    rw [output_directive, slotsOf_directive]
    cases hd : (Directive.parse rest).1.conversion with
    | none =>
      rw [Directive.behind_of_cut hd, slotsOf_nil, Directive.slots, hd, List.append_nil,
        faultOf?_nil]
    | some letter =>
      have hreads := reads_pieceOf hd separators position s
      rw [faultOf?_append]
      dsimp only
      cases hf : faultOf? s.taken (Directive.parse rest).1.slots s.left with
      | some fault =>
        rw [hf] at hreads
        dsimp only at hreads
        rw [hreads]
        rfl
      | none =>
        rw [hf] at hreads
        obtain ⟨piece, hpiece⟩ := hreads
        rw [hpiece]
        exact ih _ _
  | case3 u rest hu ih =>
    rw [(output_literal separators hu rest position s).fault, slotsOf_literal hu]
    exact ih _ _

end Directives

theorem length_slots (d : Directive) : d.slots.length = d.arguments := by
  have hsize : ∀ size : Size, size.slots.length = size.arguments := by
    intro size
    cases size <;> rfl
  have hsizes : d.sizeSlots.length = d.sizeArguments := by
    rw [Directive.sizeSlots, List.length_append, hsize, Directive.sizeArguments]
    cases d.precision with
    | none => rfl
    | some size => exact congrArg _ (hsize size)
  unfold Directive.slots Directive.arguments
  cases d.conversion with
  | none => rfl
  | some letter =>
    dsimp only
    rw [List.length_append, hsizes]
    by_cases hvalue : letter ∈ valueLetters
    · rw [if_pos hvalue, if_neg fun h => conversionOf_eq_literal_iff.mp h hvalue]
      rfl
    · rw [if_neg hvalue, if_pos (conversionOf_eq_literal_iff.mpr hvalue)]
      rfl

/-- There are as many slots as arguments that the segments take. -/
theorem length_slotsOf (fmt : Text) : (slotsOf fmt).length = argumentsOf (segments fmt) := by
  unfold slotsOf
  induction segments fmt with
  | nil => rfl
  | cons s rest ih =>
    rw [List.flatMap_cons, List.length_append, ih, argumentsOf]
    cases s with
    | literal u => rfl
    | directive units d => exact congrArg (· + _) (length_slots d)

/-- Formatting fails for its slots alone. -/
theorem format_eq_error {separators : Separators} {fmt : Text} {fault : Fault}
    (h : faultOf? 0 (slotsOf fmt) args = some fault) :
    format separators fmt args = .error fault := by
  have houtput : (outputOf separators fmt args).fault = some fault :=
    (fault_output separators fmt 0 ⟨0, args⟩).trans h
  rw [format_eq, houtput]

/-- What is formatted takes as many arguments as there are slots, and no others matter. -/
theorem exists_format {fmt : Text} (separators : Separators)
    (h : faultOf? 0 (slotsOf fmt) args = none) :
    ∃ text, ∀ extra,
      format separators fmt (args.take (slotsOf fmt).length ++ extra) = .ok text := by
  have houtput : (outputOf separators fmt args).fault = none :=
    (fault_output separators fmt 0 ⟨0, args⟩).trans h
  obtain ⟨used, extra, pieces, hargs, hruns⟩ :=
    exists_runs_of_format (format_eq_ok_iff.mpr ⟨houtput, rfl⟩)
  have hused : args.take (slotsOf fmt).length = used := by
    rw [hargs, length_slotsOf, ← hruns.length, List.take_left]
  rw [hused]
  exact ⟨textOf pieces, fun extra => (format_of_runs hruns extra).1⟩

/-- Each slot of a format string takes an argument, from left to right. If each takes the type and
the value of the one that is there for it, formatting succeeds with enough arguments, whatever
others stand behind them, and fails for the first missing one with too few. If one does not,
formatting fails for the first such argument and names the slot. -/
theorem format_arguments (separators : Separators) (fmt : Text) (args : List Argument) :
    ((∀ p ∈ (slotsOf fmt).zip args, TakesType p.1 p.2 ∧ InRange p.1 p.2) →
      ((slotsOf fmt).length ≤ args.length → ∃ text, ∀ extra,
        format separators fmt (args.take (slotsOf fmt).length ++ extra) = .ok text) ∧
      (args.length < (slotsOf fmt).length →
        format separators fmt args = .error (.argumentMissing (args.length + 1)))) ∧
    (∀ before slot a after, (slotsOf fmt).zip args = before ++ (slot, a) :: after →
      (∀ p ∈ before, TakesType p.1 p.2 ∧ InRange p.1 p.2) → ¬ TakesType slot a ∨ ¬ InRange slot a →
      format separators fmt args = .error (.argumentType [slot] (Text.ofString a.typeName))) ∧
    (∀ index, (Fault.argumentMissing index).report.code?.map Code.id = some "TEXT-F002") ∧
    ∀ conversion found,
      (Fault.argumentType conversion found).report.code?.map Code.id = some "TEXT-F001" := by
  refine ⟨fun h => ⟨fun henough => ?_, fun hfew => ?_⟩, ?_, fun _ => rfl, fun _ _ => rfl⟩
  · refine exists_format separators ?_
    rw [faultOf?_of_accepts h, if_neg (Nat.not_lt.mpr henough)]
  · refine format_eq_error ?_
    rw [faultOf?_of_accepts h, if_pos hfew, Nat.zero_add]
  · intro before slot a after hzip h ha
    exact format_eq_error (faultOf?_of_not_accepts hzip h (not_and_or.mpr ha) 0)

/-- The format string `%*d%%%s` has slots for a width, an integer and a text. It is formatted with
one argument for each, and fails where one is missing or is not taken. -/
theorem format_arguments_width :
    slotsOf (Text.ofString "%*d%%%s") = [0x2A, 0x64, 0x73] ∧
      (∃ text, ∀ extra, format Separators.default (Text.ofString "%*d%%%s")
        ([.integer 6, .integer 42, .null] ++ extra) = .ok text) ∧
      format Separators.default (Text.ofString "%*d%%%s") [.integer 6] =
        .error (.argumentMissing 2) ∧
      format Separators.default (Text.ofString "%*d%%%s") [.integer 6, .null, .null] =
        .error (.argumentType [0x64] (Text.ofString "null")) := by
  have hslots : slotsOf (Text.ofString "%*d%%%s") = [0x2A, 0x64, 0x73] := by decide +kernel
  have hall := format_arguments Separators.default (Text.ofString "%*d%%%s")
  rw [hslots] at hall
  refine ⟨hslots, ?_, ?_, ?_⟩
  · exact ((hall [.integer 6, .integer 42, .null]).1 (by decide)).1 (by decide)
  · exact ((hall [.integer 6]).1 (by decide)).2 (by decide)
  · exact (hall [.integer 6, .null, .null]).2.1 [(0x2A, .integer 6)] 0x64 .null [(0x73, .null)]
      rfl (by decide) (by decide)

/-- The type of an argument does not settle whether its slot takes it: the pattern for no number is
a number, but none that an integer is made of, so formatting fails for it before it fails for the
argument that is missing. -/
theorem not_format_of_types :
    ¬ ∀ (separators : Separators) (fmt : Text) (args : List Argument),
      (∀ p ∈ (slotsOf fmt).zip args, TakesType p.1 p.2) → args.length < (slotsOf fmt).length →
        format separators fmt args = .error (.argumentMissing (args.length + 1)) := by
  intro h
  have hslots : slotsOf (Text.ofString "%d%d") = [0x64, 0x64] := by decide +kernel
  have hmissing := h .default (Text.ofString "%d%d") [.number .nan]
    (by rw [hslots]; decide) (by rw [hslots]; decide)
  rw [format_eq_error (by rw [hslots]; rfl), Except.error.injEq] at hmissing
  cases hmissing

end TextUnits.Format
