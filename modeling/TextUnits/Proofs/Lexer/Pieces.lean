import TextUnits.Lexer.Comments
import TextUnits.Proofs.Lexer.Passing

/-!
# Pieces of a source

A reader that passes over no tokens cuts its source into pieces, one behind the other, each of which
is what the scan finds at the front of what is left. `Cuts` is that relation without cursors: it
depends on the bytes alone, so that what is said about the pieces of one source can be compared with
the pieces of another.
-/

namespace TextUnits.Lexer

/-- A tag and the bytes that have it. -/
abbrev Piece := Tag × List UInt8

/-- Bytes are cut into pieces from their front to their end. -/
inductive Cuts (o : Options) : List UInt8 → List Piece → Prop where
  /-- Nothing is left. -/
  | nil : Cuts o [] []
  /-- The scan finds a piece at the front, and the bytes behind it are cut. -/
  | cons {bytes : List UInt8} {later : List Piece} (hne : bytes ≠ [])
      (h : Cuts o (bytes.drop (scan o bytes).2) later) :
      Cuts o bytes (((scan o bytes).1, bytes.take (scan o bytes).2) :: later)

/-- What a token is, without its place. -/
def Token.piece (t : Token) : Piece := (t.tag, t.bytes)

variable {o : Options}

/-- Pieces make up the bytes that they are cut from. -/
theorem Cuts.flatten {bytes : List UInt8} {pieces : List Piece} (h : Cuts o bytes pieces) :
    pieces.flatMap Prod.snd = bytes := by
  induction h with
  | nil => rfl
  | cons hne h ih => rw [List.flatMap_cons, ih, List.take_append_drop]

namespace Cursor

variable {c : Cursor}

/-- Calls that pass over no tokens and reach the end of the source deliver its pieces. -/
theorem Completes.cuts (hk : o.KeepsAll) {steps : List Advance} (h : c.Completes o steps)
    (hf : steps.getLast?.bind Reader.faultOf = none) :
    Cuts o c.rest ((Reader.delivered steps).map Token.piece) := by
  induction h with
  | last c a hr hs =>
    have hnext := (next_of_returns hr).1
    by_cases hrest : c.rest = []
    · have hnone : Reader.delivered [a] = [] := by
        rw [Reader.delivered, List.filter_cons_of_neg (by simpa only [decide_eq_true_eq] using hs)]
        rfl
      rw [hrest, hnone]
      exact .nil
    · obtain ⟨status, hstep, hstatus⟩ := next_of_keepsAll hk hrest
      rw [hnext] at hstep
      subst hstep
      rcases hstatus with rfl | ⟨rfl, -⟩
      · exact absurd rfl hs
      · cases hf
  | more c a later hr hs hl ih =>
    have hnext := (next_of_returns hr).1
    have hrest : c.rest ≠ [] := by
      intro hnil
      rw [next_of_end hnil] at hnext
      rw [← hnext] at hs
      cases hs
    obtain ⟨status, hstep, -⟩ := next_of_keepsAll hk hrest
    rw [hnext] at hstep
    subst hstep
    dsimp only at hs
    subst hs
    have hlater : (later.getLast?.bind Reader.faultOf) = none := by
      cases later with
      | nil => cases hl
      | cons b more =>
        rwa [List.getLast?_cons_cons] at hf
    have hcuts := ih hlater
    rw [Reader.delivered_cons_of_success rfl, List.map_cons]
    rw [step_of_scan hrest] at hcuts ⊢
    exact .cons hrest hcuts

end Cursor

/-- The tokens of a reader that passes over none are the pieces of its source. -/
theorem Reader.cuts_of_tokens {r : Reader} {tokens : List Token} (hk : r.options.KeepsAll)
    (h : r.tokens = .ok tokens) : Cuts r.options r.cursor.rest (tokens.map Token.piece) := by
  have hends : ¬ ∃ place, r.tokens = .error (.noProgress place) := by
    rintro ⟨place, he⟩
    rw [h] at he
    cases he
  obtain ⟨steps, hsteps⟩ := (completes_iff_tokens r).mpr hends
  unfold Reader.tokens at h
  dsimp only at h
  rw [(Cursor.run_of_completes hsteps).1] at h
  cases hf : steps.getLast?.bind faultOf with
  | some fault =>
    rw [hf] at h
    cases h
  | none =>
    rw [hf] at h
    cases h
    exact hsteps.cuts hk hf

end TextUnits.Lexer
