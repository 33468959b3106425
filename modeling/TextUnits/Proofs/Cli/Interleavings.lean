import TextUnits.Cli.Arguments
import Mathlib.Data.List.Basic

/-!
# Order of arguments

A command line is made of positional arguments and of settings, a setting being `--verbose` or an
option with its value. What is gathered from it are the positional arguments and the settings, each
in their order, however the two are merged. The command depends on the first two positional
arguments, on whether there is a `--verbose` and on the last value of every option.
-/

namespace TextUnits.Cli

/-- An option as it is given on a command line. -/
inductive Setting where
  /-- Every token is to be traced. -/
  | verbose
  /-- An option and its value. -/
  | value (option : ValueOption) (text : Text)
  deriving DecidableEq

namespace Setting

/-- The arguments of a setting. -/
def words : Setting → List Text
  | verbose => [verboseName]
  | value option text => [Text.ofString option.name, text]

/-- The value of a setting is not written as an option. -/
def Plain : Setting → Prop
  | verbose => True
  | value _ text => isOption text = false

instance (s : Setting) : Decidable s.Plain := by
  cases s <;> unfold Plain <;> infer_instance

/-- The option and the value of a setting that has them. -/
def entry? : Setting → Option (ValueOption × Text)
  | verbose => none
  | value option text => some (option, text)

/-- The value that a setting gives to an option. -/
def valueOf? (option : ValueOption) : Setting → Option Text
  | verbose => none
  | value other text => if other = option then some text else none

end Setting

/-- The last value that settings give to an option. -/
def lastValue? (option : ValueOption) (settings : List Setting) : Option Text :=
  (settings.filterMap (Setting.valueOf? option)).getLast?

/-- A command line that holds positional arguments and settings, each in their order. -/
inductive Merges : List Text → List Setting → List Text → Prop where
  /-- Of nothing. -/
  | nil : Merges [] [] []
  /-- The next argument is a positional one. -/
  | positional {ps : List Text} {settings : List Setting} {argv : List Text} (p : Text)
      (h : Merges ps settings argv) : Merges (p :: ps) settings (p :: argv)
  /-- The next arguments are those of a setting. -/
  | setting {ps : List Text} {settings : List Setting} {argv : List Text} (s : Setting)
      (h : Merges ps settings argv) : Merges ps (s :: settings) (s.words ++ argv)

variable {ps others argv : List Text} {settings : List Setting} {g h : Gathered}

namespace ValueOption

/-- The name of an option is written as one, asks for no trace and tells which one it is. -/
theorem name_spec (option : ValueOption) :
    isOption (Text.ofString option.name) = true ∧ Text.ofString option.name ≠ verboseName ∧
      ofName? (Text.ofString option.name) = some option := by
  cases option <;> decide

end ValueOption

theorem gather_positional {p : Text} (hp : isOption p = false) (argv : List Text) :
    gather (p :: argv) = (gather argv).map (Gathered.positional p) := by
  rw [gather.eq_def]
  dsimp only
  rw [hp, if_pos Bool.not_false]

theorem gather_verbose (argv : List Text) :
    gather (verboseName :: argv) = (gather argv).map Gathered.tracing := by
  have hoption : isOption verboseName = true := by decide
  rw [gather.eq_def]
  dsimp only
  rw [hoption, if_neg (by decide), if_pos rfl]

theorem gather_value (option : ValueOption) {text : Text} (ht : isOption text = false)
    (argv : List Text) :
    gather (Text.ofString option.name :: text :: argv) =
      (gather argv).map (Gathered.valued option text) := by
  obtain ⟨hoption, hword, hname⟩ := option.name_spec
  rw [gather.eq_def]
  dsimp only
  rw [hoption, if_neg (by decide), if_neg hword, hname]
  dsimp only
  rw [ht, if_neg Bool.false_ne_true]

/-- What is gathered from a command line is what it was merged of. -/
theorem Merges.gather_eq (hm : Merges ps settings argv) (hp : ∀ p ∈ ps, isOption p = false)
    (hs : ∀ s ∈ settings, s.Plain) :
    gather argv = .ok ⟨ps, decide (.verbose ∈ settings), settings.filterMap Setting.entry?⟩ := by
  induction hm with
  | nil => rfl
  | positional p _ ih =>
    obtain ⟨hplain, hrest⟩ := List.forall_mem_cons.mp hp
    rw [gather_positional hplain, ih hrest hs]
    rfl
  | @setting ps settings argv s _ ih =>
    obtain ⟨hplain, hrest⟩ := List.forall_mem_cons.mp hs
    cases s with
    | verbose =>
      rw [Setting.words, List.singleton_append, gather_verbose, ih hp hrest,
        List.filterMap_cons_none rfl, decide_eq_true List.mem_cons_self]
      rfl
    | value option text =>
      have hmem : Setting.verbose ∈ Setting.value option text :: settings ↔
          Setting.verbose ∈ settings := by
        rw [List.mem_cons, or_iff_right Setting.noConfusion]
      rw [Setting.words, List.cons_append, List.singleton_append, gather_value option hplain,
        ih hp hrest, List.filterMap_cons_some (f := Setting.entry?) rfl, decide_eq_decide.mpr hmem]
      rfl

/-- The value of an option is the last one that a setting gives it. -/
theorem value?_entries (hg : g.values = settings.filterMap Setting.entry?) (option : ValueOption) :
    g.value? option = lastValue? option settings := by
  rw [Gathered.value?, hg, lastValue?, ← List.getLast?_map, List.filter_filterMap,
    List.map_filterMap]
  congr 2
  funext s
  cases s with
  | verbose => rfl
  | value other text =>
    by_cases hsame : other = option
    · simp [Setting.entry?, Setting.valueOf?, hsame]
    · simp [Setting.entry?, Setting.valueOf?, hsame]

/-- An argument is not written as an option, or it is one of those that are known. -/
theorem Merges.known (hm : Merges ps settings argv) (hp : ∀ p ∈ ps, isOption p = false)
    (hs : ∀ s ∈ settings, s.Plain) :
    ∀ arg ∈ argv, isOption arg = false ∨ arg = verboseName ∨
      ∃ option : ValueOption, arg = Text.ofString option.name := by
  induction hm with
  | nil => exact List.forall_mem_nil _
  | positional p _ ih =>
    obtain ⟨hplain, hrest⟩ := List.forall_mem_cons.mp hp
    exact List.forall_mem_cons.mpr ⟨.inl hplain, ih hrest hs⟩
  | setting s _ ih =>
    obtain ⟨hplain, hrest⟩ := List.forall_mem_cons.mp hs
    refine List.forall_mem_append.mpr ⟨?_, ih hp hrest⟩
    cases s with
    | verbose => exact List.forall_mem_singleton.mpr (.inr (.inl rfl))
    | value option text =>
      exact List.forall_mem_cons.mpr ⟨.inr (.inr ⟨option, rfl⟩),
        List.forall_mem_singleton.mpr (.inl hplain)⟩

/-- Positional arguments and settings ask neither for help nor for the version. -/
theorem Merges.asksFor_eq_false (hm : Merges ps settings argv) (hp : ∀ p ∈ ps, isOption p = false)
    (hs : ∀ s ∈ settings, s.Plain) {words : List String}
    (hw : ∀ word ∈ words, isOption (Text.ofString word) = true ∧
      Text.ofString word ≠ verboseName ∧ ValueOption.ofName? (Text.ofString word) = none) :
    asksFor words argv = false := by
  unfold asksFor
  rw [List.any_eq_false]
  intro arg harg hasks
  obtain ⟨word, hword, hsame⟩ := List.any_eq_true.mp hasks
  obtain ⟨hoption, hverbose, hname⟩ := hw word hword
  obtain rfl := of_decide_eq_true hsame
  rcases hm.known hp hs _ harg with hplain | hsame | ⟨option, hsame⟩
  · cases hplain.symm.trans hoption
  · exact hverbose hsame
  · rw [hsame, option.name_spec.2.2] at hname
    cases hname

/-- The command of a command line is the one that what it was merged of asks for. -/
theorem Merges.parse_eq (hm : Merges ps settings argv) (hp : ∀ p ∈ ps, isOption p = false)
    (hs : ∀ s ∈ settings, s.Plain) :
    Command.parse argv = Gathered.command
      ⟨ps, decide (.verbose ∈ settings), settings.filterMap Setting.entry?⟩ := by
  rw [Command.parse, hm.asksFor_eq_false hp hs (by decide), hm.asksFor_eq_false hp hs (by decide),
    hm.gather_eq hp hs]
  rfl

/-- A command depends on no more than two positional arguments. -/
theorem command_take (ps : List Text) (verbose : Bool) (values : List (ValueOption × Text)) :
    Gathered.command ⟨ps.take 2, verbose, values⟩ = Gathered.command ⟨ps, verbose, values⟩ := by
  rcases ps with _ | ⟨name, _ | ⟨operand, rest⟩⟩ <;> rfl

/-- A command depends on the values of options, not on how often they are given. -/
theorem command_values (ps : List Text) (verbose : Bool) {values others : List (ValueOption × Text)}
    (h : ∀ option, Gathered.value? ⟨ps, verbose, values⟩ option =
      Gathered.value? ⟨ps, verbose, others⟩ option) :
    Gathered.command ⟨ps, verbose, values⟩ = Gathered.command ⟨ps, verbose, others⟩ := by
  have hencoding : ∀ option, Gathered.encoding ⟨ps, verbose, values⟩ option =
      Gathered.encoding ⟨ps, verbose, others⟩ option := by
    intro option
    rw [Gathered.encoding, Gathered.encoding, h]
  have htarget : Gathered.target ⟨ps, verbose, values⟩ =
      Gathered.target ⟨ps, verbose, others⟩ := by
    funext operands
    cases operands with
    | nil => rfl
    | cons file rest => rw [Gathered.target, Gathered.target, h]
  unfold Gathered.command
  simp only [hencoding, htarget, h]

/-- Two command lines that are merged of positional arguments and settings ask for the same command,
or are refused for the same reason, when they are merged of the same ones. Only the first two
positional arguments, whether there is a `--verbose` and the last value of every option count, and
these are what the command is read off from. -/
theorem parse_merges (ps : List Text) (settings : List Setting) (argv : List Text)
    (hp : ∀ p ∈ ps, isOption p = false) (hs : ∀ s ∈ settings, s.Plain)
    (hm : Merges ps settings argv) :
    (∃ g : Gathered, Command.parse argv = g.command ∧ g.positionals = ps ∧
        (g.verbose = true ↔ .verbose ∈ settings) ∧
        ∀ option, g.value? option = lastValue? option settings) ∧
      (∀ other, Merges ps settings other → Command.parse other = Command.parse argv) ∧
      ∀ (others : List Text) (changed : List Setting) (other : List Text),
        (∀ p ∈ others, isOption p = false) → (∀ s ∈ changed, s.Plain) →
        Merges others changed other → others.take 2 = ps.take 2 →
        (.verbose ∈ changed ↔ .verbose ∈ settings) →
        (∀ option, lastValue? option changed = lastValue? option settings) →
        Command.parse other = Command.parse argv := by
  refine ⟨⟨_, hm.parse_eq hp hs, rfl, decide_eq_true_iff, value?_entries rfl⟩,
    fun other ho => ?_, fun others changed other hothers hchanged ho htwo hverbose hlast => ?_⟩
  · rw [ho.parse_eq hp hs, hm.parse_eq hp hs]
  · rw [ho.parse_eq hothers hchanged, hm.parse_eq hp hs, ← command_take others, htwo, command_take,
      decide_eq_decide.mpr hverbose]
    refine command_values _ _ fun option => ?_
    rw [value?_entries rfl, value?_entries rfl, hlast]

/-- An encoding that is given twice, a third positional argument and another order make no
difference. -/
theorem parse_merges_again :
    let ps := ["transcode", "a", "b"].map Text.ofString
    let settings := [Setting.value .source (Text.ofString "utf8"), .verbose,
      .value .source (Text.ofString "utf16le"), .value .target (Text.ofString "utf8")]
    let argv := ["--from", "utf8", "transcode", "--verbose", "a", "--from", "utf16le", "b", "--to",
      "utf8"].map Text.ofString
    let others := ["transcode", "a"].map Text.ofString
    let changed := [Setting.value .target (Text.ofString "utf8"),
      .value .source (Text.ofString "utf16le"), .verbose]
    let other := ["transcode", "a", "--to", "utf8", "--from", "utf16le", "--verbose"].map
      Text.ofString
    ((∀ p ∈ ps, isOption p = false) ∧ (∀ s ∈ settings, s.Plain) ∧ Merges ps settings argv) ∧
      ((∀ p ∈ others, isOption p = false) ∧ (∀ s ∈ changed, s.Plain) ∧
        Merges others changed other ∧ others.take 2 = ps.take 2 ∧
        (.verbose ∈ changed ↔ .verbose ∈ settings) ∧
        ∀ option, lastValue? option changed = lastValue? option settings) ∧
      Command.parse other = Command.parse argv := by
  intro ps settings argv others changed other
  have hp : ∀ p ∈ ps, isOption p = false := by decide
  have hs : ∀ s ∈ settings, s.Plain := by decide
  have hm : Merges ps settings argv :=
    .setting (.value .source (Text.ofString "utf8")) <| .positional (Text.ofString "transcode") <|
      .setting .verbose <| .positional (Text.ofString "a") <|
      .setting (.value .source (Text.ofString "utf16le")) <| .positional (Text.ofString "b") <|
      .setting (.value .target (Text.ofString "utf8")) .nil
  have hothers : ∀ p ∈ others, isOption p = false := by decide
  have hchanged : ∀ s ∈ changed, s.Plain := by decide
  have ho : Merges others changed other :=
    .positional (Text.ofString "transcode") <| .positional (Text.ofString "a") <|
      .setting (.value .target (Text.ofString "utf8")) <|
      .setting (.value .source (Text.ofString "utf16le")) <| .setting .verbose .nil
  have htwo : others.take 2 = ps.take 2 := rfl
  have hverbose : .verbose ∈ changed ↔ .verbose ∈ settings := by decide
  have hlast : ∀ option, lastValue? option changed = lastValue? option settings := by
    intro option
    cases option <;> decide
  exact ⟨⟨hp, hs, hm⟩, ⟨hothers, hchanged, ho, htwo, hverbose, hlast⟩,
    (parse_merges ps settings argv hp hs hm).2.2 others changed other hothers hchanged ho htwo
      hverbose hlast⟩

end TextUnits.Cli
