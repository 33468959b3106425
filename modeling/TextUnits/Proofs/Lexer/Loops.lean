import TextUnits.Lexer.Cursor
import Mathlib.Tactic.Common

/-!
# Reading on without a guard

`Cursor.next` and `Cursor.run` end on every source, since they break off where tokens take no
bytes. The relations here read on without that guard: `Returns` holds of a call that ends by
itself, and `Completes` of the calls up to the first one that reads no token, each of which ends
by itself. Guarded and unguarded reading agree: where the unguarded one ends both give the same,
and the guard breaks off exactly where the unguarded one would never end. `Walks` forgets the calls
and keeps the tokens, so that what holds of one token after the other is shown without them.
-/

namespace TextUnits.Lexer

namespace Cursor

variable {o : Options} {c : Cursor}

/-- A call that reads on ends with an advance, by itself and after finitely many tokens. -/
inductive Returns (o : Options) : Cursor → Advance → Prop where
  /-- The token at the cursor is not passed over. -/
  | ends (c : Cursor) (status : Ending)
      (hv : verdict o c.rest.isEmpty (c.step o).token = some status) :
      Returns o c ⟨status, c.step o, [(c.step o).token]⟩
  /-- The token at the cursor is passed over, and the call ends behind it. -/
  | skips (c : Cursor) (later : Advance)
      (hv : verdict o c.rest.isEmpty (c.step o).token = none)
      (hl : Returns o (c.step o) later) :
      Returns o c ⟨later.status, later.cursor, (c.step o).token :: later.read⟩

/-- Calls one after the other, each of which ends by itself, up to the first that reads no
token. -/
inductive Completes (o : Options) : Cursor → List Advance → Prop where
  /-- The call reads no token. -/
  | last (c : Cursor) (a : Advance) (hr : Returns o c a) (hs : a.status ≠ .success) :
      Completes o c [a]
  /-- The call reads a token, and the calls behind it follow. -/
  | more (c : Cursor) (a : Advance) (later : List Advance) (hr : Returns o c a)
      (hs : a.status = .success) (hl : Completes o a.cursor later) :
      Completes o c (a :: later)

/-- Tokens are read one after the other, from one cursor to another. -/
def Walks (o : Options) : Cursor → List Token → Cursor → Prop
  | c, [], d => d = c
  | c, t :: later, d => (c.step o).token = t ∧ Walks o (c.step o) later d

/-- A token at the end of a source takes nothing. -/
theorem step_of_end (hr : c.rest = []) : c.step o = c.take (.named .eof) 0 := by
  rw [step, hr, List.isEmpty_nil, if_pos rfl]

/-- A token in front of the end is what the scan of the bytes finds. -/
theorem step_of_scan (hr : c.rest ≠ []) :
    c.step o = c.take (scan o c.rest).1 (scan o c.rest).2 := by
  rw [step, if_neg (by rwa [List.isEmpty_iff])]

/-- The bytes behind a token depend on the bytes in front of it alone. -/
theorem rest_step_congr {d : Cursor} (h : c.rest = d.rest) : (c.step o).rest = (d.step o).rest := by
  by_cases hr : c.rest = []
  · rw [step_of_end hr, step_of_end (h ▸ hr), take, take, h]
  · rw [step_of_scan hr, step_of_scan (h ▸ hr), take, take, h]

/-- How a token ends a call depends on the bytes in front of it alone. -/
theorem verdict_step_congr {d : Cursor} (h : c.rest = d.rest) :
    verdict o c.rest.isEmpty (c.step o).token = verdict o d.rest.isEmpty (d.step o).token := by
  by_cases hr : c.rest = []
  · rw [step_of_end hr, step_of_end (h ▸ hr), h]
    rfl
  · rw [step_of_scan hr, step_of_scan (h ▸ hr), h]
    rfl

/-- A token takes its bytes from the front. -/
theorem rest_step_le : (c.step o).rest.length ≤ c.rest.length := by
  by_cases hr : c.rest = []
  · rw [step_of_end hr, take, List.length_drop]
    exact Nat.sub_le _ _
  · rw [step_of_scan hr, take, List.length_drop]
    exact Nat.sub_le _ _

/-- A token behind which no fewer bytes stand leaves the bytes as they are. -/
theorem rest_step_eq (h : ¬ (c.step o).rest.length < c.rest.length) :
    (c.step o).rest = c.rest := by
  have hdrop : ∀ size, (c.rest.drop size).length ≥ c.rest.length → c.rest.drop size = c.rest := by
    intro size hs
    exact (List.drop_suffix size c.rest).eq_of_length_le hs
  by_cases hr : c.rest = []
  · rw [step_of_end hr] at h ⊢
    exact hdrop 0 (Nat.le_of_not_lt h)
  · rw [step_of_scan hr] at h ⊢
    exact hdrop _ (Nat.le_of_not_lt h)

/-- A token that is not passed over ends a call. -/
theorem next_of_verdict {status : Ending}
    (hv : verdict o c.rest.isEmpty (c.step o).token = some status) :
    c.next o = ⟨status, c.step o, [(c.step o).token]⟩ := by
  rw [next]
  dsimp only
  rw [hv]

/-- Behind a token that is passed over a call goes on. -/
theorem next_of_skip (hv : verdict o c.rest.isEmpty (c.step o).token = none)
    (hlt : (c.step o).rest.length < c.rest.length) :
    c.next o = ⟨((c.step o).next o).status, ((c.step o).next o).cursor,
      (c.step o).token :: ((c.step o).next o).read⟩ := by
  rw [next]
  dsimp only
  rw [hv]
  dsimp only
  rw [if_pos hlt]

/-- At a token without bytes that is to be passed over a call is broken off. -/
theorem next_of_stall (hv : verdict o c.rest.isEmpty (c.step o).token = none)
    (hge : ¬ (c.step o).rest.length < c.rest.length) :
    c.next o = ⟨.stalled, c.step o, [(c.step o).token]⟩ := by
  rw [next]
  dsimp only
  rw [hv]
  dsimp only
  rw [if_neg hge]

/-- No token ends a call as stalled. -/
theorem verdict_ne_stalled (ended : Bool) (token : Token) :
    verdict o ended token ≠ some .stalled := by
  unfold verdict
  split_ifs <;> decide

/-- A call leaves no more bytes than it found. -/
theorem rest_next_le : (c.next o).cursor.rest.length ≤ c.rest.length := by
  induction hn : c.rest.length using Nat.strongRecOn generalizing c with
  | ind n ih =>
    have hstep : (c.step o).rest.length ≤ n := hn ▸ rest_step_le
    cases hv : verdict o c.rest.isEmpty (c.step o).token with
    | some status =>
      rw [next_of_verdict hv]
      exact hstep
    | none =>
      by_cases hlt : (c.step o).rest.length < c.rest.length
      · rw [next_of_skip hv hlt]
        exact Nat.le_trans (ih _ (hn ▸ hlt) rfl) hstep
      · rw [next_of_stall hv hlt]
        exact hstep

/-- No call ends by itself at a token without bytes that is passed over: the same token stands
there again. -/
theorem not_returns_of_stall {a : Advance} (h : c.Returns o a)
    (hv : verdict o c.rest.isEmpty (c.step o).token = none)
    (hr : (c.step o).rest = c.rest) : False := by
  induction h with
  | ends c status hs =>
    rw [hv] at hs
    cases hs
  | skips c later _ _ ih =>
    apply ih
    · rw [verdict_step_congr hr]
      exact hv
    · exact rest_step_congr hr

/-- A call that ends by itself is no other than the guarded one. -/
theorem next_of_returns {a : Advance} (h : c.Returns o a) :
    c.next o = a ∧ a.status ≠ .stalled := by
  induction h with
  | ends c status hv =>
    refine ⟨next_of_verdict hv, fun hs => ?_⟩
    dsimp only at hs
    rw [hs] at hv
    exact verdict_ne_stalled _ _ hv
  | skips c later hv hl ih =>
    obtain ⟨hnext, hstatus⟩ := ih
    have hlt : (c.step o).rest.length < c.rest.length := by
      by_contra hge
      exact not_returns_of_stall (.skips c later hv hl) hv (rest_step_eq hge)
    rw [next_of_skip hv hlt, hnext]
    exact ⟨rfl, hstatus⟩

/-- A guarded call that is not broken off ends by itself. -/
theorem returns_of_next (h : (c.next o).status ≠ .stalled) : c.Returns o (c.next o) := by
  induction hn : c.rest.length using Nat.strongRecOn generalizing c with
  | ind n ih =>
    cases hv : verdict o c.rest.isEmpty (c.step o).token with
    | some status =>
      rw [next_of_verdict hv]
      exact .ends c status hv
    | none =>
      by_cases hlt : (c.step o).rest.length < c.rest.length
      · rw [next_of_skip hv hlt] at h ⊢
        exact .skips c _ hv (ih _ (hn ▸ hlt) h rfl)
      · rw [next_of_stall hv hlt] at h
        exact absurd rfl h

/-- A call ends by itself exactly when the guard does not break it off. -/
theorem returns_iff {a : Advance} : c.Returns o a ↔ c.next o = a ∧ a.status ≠ .stalled := by
  constructor
  · exact next_of_returns
  · rintro ⟨rfl, hs⟩
    exact returns_of_next hs

/-- Behind a call that reads a token further calls follow. -/
theorem run_of_success (hs : (c.next o).status = .success)
    (hlt : (c.next o).cursor.rest.length < c.rest.length) :
    c.run o = c.next o :: (c.next o).cursor.run o := by
  rw [run, dif_pos ⟨hs, hlt⟩]

/-- A call that reads no token is the last one, and so is one whose token takes no bytes. -/
theorem run_of_last
    (h : ¬ ((c.next o).status = .success ∧ (c.next o).cursor.rest.length < c.rest.length)) :
    c.run o = [c.next o] := by
  rw [run, dif_neg h]

/-- A call that reads a token and leaves all bytes has read the one at the cursor. -/
theorem verdict_of_standstill (hs : (c.next o).status = .success)
    (hge : ¬ (c.next o).cursor.rest.length < c.rest.length) :
    verdict o c.rest.isEmpty (c.step o).token = some .success ∧ (c.step o).rest = c.rest := by
  cases hv : verdict o c.rest.isEmpty (c.step o).token with
  | some status =>
    rw [next_of_verdict hv] at hs hge
    exact ⟨congrArg some hs, rest_step_eq hge⟩
  | none =>
    by_cases hlt : (c.step o).rest.length < c.rest.length
    · rw [next_of_skip hv hlt] at hge
      exact absurd (Nat.lt_of_le_of_lt rest_next_le hlt) hge
    · rw [next_of_stall hv hlt] at hs
      cases hs

/-- Calls that start at a token without bytes that is not passed over never come to an end: each
reads that token again. -/
theorem not_completes_of_standstill {steps : List Advance} (h : c.Completes o steps)
    (hv : verdict o c.rest.isEmpty (c.step o).token = some .success)
    (hr : (c.step o).rest = c.rest) : False := by
  induction h with
  | last c a ha hs =>
    have hnext := (next_of_returns ha).1
    rw [next_of_verdict hv] at hnext
    rw [← hnext] at hs
    exact hs rfl
  | more c a later ha _ _ ih =>
    have hnext := (next_of_returns ha).1
    rw [next_of_verdict hv] at hnext
    have hcursor : a.cursor = c.step o := by rw [← hnext]
    rw [hcursor] at ih
    apply ih
    · rw [verdict_step_congr hr]
      exact hv
    · exact rest_step_congr hr

/-- Calls that come to an end are no others than the guarded ones. -/
theorem run_of_completes {steps : List Advance} (h : c.Completes o steps) :
    c.run o = steps ∧ ∃ a ∈ steps.getLast?, a.status ≠ .success ∧ a.status ≠ .stalled := by
  induction h with
  | last c a ha hs =>
    obtain ⟨hnext, hstalled⟩ := next_of_returns ha
    have hlast : c.run o = [c.next o] := run_of_last fun hc => hs (hnext ▸ hc.1)
    rw [hlast, hnext]
    exact ⟨rfl, a, rfl, hs, hstalled⟩
  | more c a later ha hs hl ih =>
    obtain ⟨hrun, b, hb, hstatus⟩ := ih
    have hnext := (next_of_returns ha).1
    have hsuccess : (c.next o).status = .success := hnext ▸ hs
    have hlt : (c.next o).cursor.rest.length < c.rest.length := by
      by_contra hge
      obtain ⟨hv, hr⟩ := verdict_of_standstill hsuccess hge
      exact not_completes_of_standstill (.more c a later ha hs hl) hv hr
    rw [run_of_success hsuccess hlt, hnext, hrun]
    refine ⟨rfl, b, ?_, hstatus⟩
    rw [List.getLast?_cons, Option.mem_def.mp hb]
    rfl

/-- Guarded calls whose last one neither reads a token nor is broken off come to an end without
the guard. -/
theorem completes_of_run
    (h : ∃ a ∈ (c.run o).getLast?, a.status ≠ .success ∧ a.status ≠ .stalled) :
    c.Completes o (c.run o) := by
  induction hn : c.rest.length using Nat.strongRecOn generalizing c with
  | ind n ih =>
    obtain ⟨a, ha, hsuccess, hstalled⟩ := h
    by_cases hc : (c.next o).status = .success ∧
        (c.next o).cursor.rest.length < c.rest.length
    · obtain ⟨hs, hlt⟩ := hc
      rw [run_of_success hs hlt] at ha ⊢
      have hne : (c.next o).status ≠ .stalled := by
        rw [hs]
        decide
      refine .more c _ _ (returns_of_next hne) hs (ih _ (hn ▸ hlt) ?_ rfl)
      rw [List.getLast?_cons] at ha
      cases hl : ((c.next o).cursor.run o).getLast? with
      | some b =>
        rw [hl] at ha
        exact ⟨a, ha, hsuccess, hstalled⟩
      | none =>
        rw [hl] at ha
        cases ha
        exact absurd hs hsuccess
    · rw [run_of_last hc] at ha ⊢
      cases ha
      exact .last c _ (returns_of_next hstalled) hsuccess

/-- Calls come to an end exactly when the guarded ones do and their last one neither reads a
token nor is broken off. -/
theorem completes_iff {steps : List Advance} :
    c.Completes o steps ↔
      c.run o = steps ∧ ∃ a ∈ steps.getLast?, a.status ≠ .success ∧ a.status ≠ .stalled := by
  constructor
  · exact run_of_completes
  · rintro ⟨rfl, h⟩
    exact completes_of_run h

/-- A run is not empty. -/
theorem exists_getLast?_run (o : Options) (c : Cursor) : ∃ a, (c.run o).getLast? = some a := by
  by_cases hc : (c.next o).status = .success ∧ (c.next o).cursor.rest.length < c.rest.length
  · rw [run_of_success hc.1 hc.2, List.getLast?_cons]
    exact ⟨_, rfl⟩
  · rw [run_of_last hc]
    exact ⟨_, rfl⟩

theorem Walks.append {d e : Cursor} {front later : List Token} (h : c.Walks o front d)
    (hl : d.Walks o later e) : c.Walks o (front ++ later) e := by
  induction front generalizing c with
  | nil =>
    cases h
    exact hl
  | cons t more ih => exact ⟨h.1, ih h.2⟩

/-- Between two of the tokens stands a cursor. -/
theorem Walks.exists_of_append {e : Cursor} {front later : List Token}
    (h : c.Walks o (front ++ later) e) : ∃ d, c.Walks o front d ∧ d.Walks o later e := by
  induction front generalizing c with
  | nil => exact ⟨c, rfl, h⟩
  | cons t more ih =>
    obtain ⟨d, hfront, hlater⟩ := ih h.2
    exact ⟨d, ⟨h.1, hfront⟩, hlater⟩

/-- What one token preserves, all of them preserve. -/
theorem Walks.preserves {P : Cursor → Prop} {d : Cursor} {tokens : List Token}
    (h : c.Walks o tokens d) (hp : ∀ e : Cursor, P e → P (e.step o)) (hc : P c) : P d := by
  induction tokens generalizing c with
  | nil =>
    cases h
    exact hc
  | cons t later ih => exact ih h.2 (hp c hc)

/-- A call reads tokens from its cursor to the one that it leaves. -/
theorem next_walks (o : Options) (c : Cursor) : c.Walks o (c.next o).read (c.next o).cursor := by
  induction hn : c.rest.length using Nat.strongRecOn generalizing c with
  | ind n ih =>
    cases hv : verdict o c.rest.isEmpty (c.step o).token with
    | some status =>
      rw [next_of_verdict hv]
      exact ⟨rfl, rfl⟩
    | none =>
      by_cases hlt : (c.step o).rest.length < c.rest.length
      · rw [next_of_skip hv hlt]
        exact ⟨rfl, ih _ (hn ▸ hlt) _ rfl⟩
      · rw [next_of_stall hv hlt]
        exact ⟨rfl, rfl⟩

/-- So does a run. -/
theorem run_walks (o : Options) (c : Cursor) :
    c.Walks o ((c.run o).flatMap (·.read)) (c.after (c.run o)) := by
  induction hn : c.rest.length using Nat.strongRecOn generalizing c with
  | ind n ih =>
    have hnext := next_walks o c
    by_cases honward : (c.next o).status = .success ∧
        (c.next o).cursor.rest.length < c.rest.length
    · have hlater := ih _ (hn ▸ honward.2) (c.next o).cursor rfl
      obtain ⟨last, hlast⟩ := exists_getLast?_run o (c.next o).cursor
      have hafter : c.after (c.run o) = (c.next o).cursor.after ((c.next o).cursor.run o) := by
        rw [run_of_success honward.1 honward.2, after, after, List.getLast?_cons, hlast]
        rfl
      rw [hafter, run_of_success honward.1 honward.2, List.flatMap_cons]
      exact hnext.append hlater
    · rw [run_of_last honward, List.flatMap_cons, List.flatMap_nil, List.append_nil]
      exact hnext

/-- So do further runs behind it. -/
theorem exists_runs_walks (o : Options) (c : Cursor) (further : Nat) :
    ∃ d, c.Walks o ((c.runs o further).flatMap (·.read)) d := by
  induction further generalizing c with
  | zero => exact ⟨_, run_walks o c⟩
  | succ further ih =>
    obtain ⟨d, hd⟩ := ih (c.after (c.run o))
    rw [runs, List.flatMap_append]
    exact ⟨d, (run_walks o c).append hd⟩

/-- Every token of a number of runs is the one at a cursor of which what one token preserves
holds. -/
theorem exists_of_mem_runs {P : Cursor → Prop} (hp : ∀ d : Cursor, P d → P (d.step o)) (hc : P c)
    (further : Nat) :
    ∀ t ∈ (c.runs o further).flatMap (·.read), ∃ d, P d ∧ (d.step o).token = t := by
  intro t ht
  obtain ⟨d, hwalks⟩ := exists_runs_walks o c further
  obtain ⟨front, later, hsplit⟩ := List.append_of_mem ht
  rw [hsplit] at hwalks
  obtain ⟨e, hfront, htoken, -⟩ := hwalks.exists_of_append
  exact ⟨e, hfront.preserves hp hc, htoken⟩

end Cursor

namespace Reader

/-- A call fails for want of progress when it ends a run although it reads a token, or when it is
broken off. -/
theorem exists_noProgress_iff (a : Advance) :
    (∃ place, faultOf a = some (.noProgress place)) ↔
      ¬ (a.status ≠ .success ∧ a.status ≠ .stalled) := by
  unfold faultOf
  dsimp only
  cases hs : a.status with
  | success => exact ⟨fun _ h => h.1 rfl, fun _ => ⟨_, rfl⟩⟩
  | stalled => exact ⟨fun _ h => h.2 rfl, fun _ => ⟨_, rfl⟩⟩
  | endOfInput =>
    constructor
    · rintro ⟨place, hf⟩
      cases hf
    · exact fun h => absurd ⟨by decide, by decide⟩ h
  | invalidArgument =>
    constructor
    · rintro ⟨place, hf⟩
      cases hf
    · exact fun h => absurd ⟨by decide, by decide⟩ h

/-- Collecting the tokens of a source comes to an end without the guard exactly when it does not
fail for want of progress. -/
theorem completes_iff_tokens (r : Reader) :
    (∃ steps, r.cursor.Completes r.options steps) ↔
      ¬ ∃ place, r.tokens = .error (.noProgress place) := by
  obtain ⟨a, ha⟩ := Cursor.exists_getLast?_run r.options r.cursor
  have hfault : ∀ place, r.tokens = .error (.noProgress place) ↔
      faultOf a = some (.noProgress place) := by
    intro place
    unfold tokens
    dsimp only
    rw [ha, Option.bind_some]
    cases faultOf a with
    | none => constructor <;> intro h <;> cases h
    | some fault => rw [Except.error.injEq, Option.some.injEq]
  simp only [hfault]
  rw [exists_noProgress_iff, Classical.not_not]
  constructor
  · rintro ⟨steps, h⟩
    obtain ⟨rfl, b, hb, hstatus⟩ := Cursor.run_of_completes h
    rw [ha] at hb
    cases hb
    exact hstatus
  · intro hstatus
    exact ⟨_, Cursor.completes_of_run ⟨a, ha, hstatus⟩⟩

end Reader

end TextUnits.Lexer
