import TextUnits.Proofs.Lexer.LineNumbers
import TextUnits.Proofs.Lexer.Progress

/-!
# Passing over tokens

What a reader passes over changes how many calls it takes to read a source, and which tokens they
deliver, but nothing else. Whoever listens hears the same tokens and the same error in the same
order, the calls end the same way at the same place, and they deliver the tokens of a reader that
keeps all, less those passed over. A run is compared with the run that keeps all tokens, by
induction along the calls of that one; two runs that pass over different tokens then agree because
both agree with it.
-/

namespace TextUnits.Lexer

/-- What a listener hears while a source is read. -/
inductive Event where
  /-- A token was read, one passed over included. -/
  | token (token : Token)
  /-- A number that breaks off was read. -/
  | error (token : Token)
  deriving DecidableEq

/-- What a listener hears during a call: each token, then the error that ends the call, if any. -/
def Advance.events (a : Advance) : List Event :=
  a.read.map Event.token ++ if a.status = .invalidArgument then [Event.error a.cursor.token] else []

/-- The call that reads a token first and passes over it. -/
def Advance.behind (token : Token) (a : Advance) : Advance := { a with read := token :: a.read }

/-- How a call ended, and the place it left. -/
def Advance.outcome (a : Advance) : Ending × Cursor := (a.status, a.cursor)

/-- Ways to open a source under settings. -/
inductive Opens : (Settings → Except Fault Reader) → Prop where
  /-- As bytes. -/
  | bytes (source : List UInt8) : Opens (openBytes source)
  /-- As a text, which is encoded first. -/
  | text (source : Text) : Opens (openText source)

/-- Calls that differ from calls that keep all tokens only in what they pass over. -/
structure Selects (o : Options) (kept calls : List Advance) : Prop where
  /-- A listener hears the same. -/
  events : calls.flatMap Advance.events = kept.flatMap Advance.events
  /-- The last call ends the same way at the same place. -/
  outcome : calls.getLast?.map Advance.outcome = kept.getLast?.map Advance.outcome
  /-- The tokens delivered are those kept and not passed over, in order. -/
  delivered : Reader.delivered calls = (Reader.delivered kept).filter fun t => !o.skips t.tag

variable {o : Options} {c : Cursor} {kept calls : List Advance}

/-- Options that keep all tokens pass over none. -/
theorem Options.skips_keepingAll (o : Options) (tag : Tag) : o.keepingAll.skips tag = false := by
  unfold Options.skips keepingAll
  split <;> rfl

/-- Tokens delivered by calls behind a call that reads a token. -/
theorem Reader.delivered_cons_of_success {a : Advance} (ha : a.status = .success) :
    Reader.delivered (a :: calls) = a.cursor.token :: Reader.delivered calls := by
  simp [Reader.delivered, ha]

/-- Tokens delivered depend on how a call ended and on its place, not on what it passed over. -/
theorem Reader.delivered_behind (token : Token) (a : Advance) :
    Reader.delivered (a.behind token :: calls) = Reader.delivered (a :: calls) := by
  by_cases ha : a.status = .success
  · have hb : (a.behind token).status = .success := ha
    rw [delivered_cons_of_success ha, delivered_cons_of_success hb]
    rfl
  · have hb : ¬ (a.behind token).status = .success := ha
    simp [Reader.delivered, ha, hb]

namespace Cursor

/-- A token that ends a call where all tokens are kept ends it in the same way where some are
passed over, unless it is one of those. -/
theorem verdict_of_keepingAll {ended : Bool} {token : Token} {status : Ending}
    (h : verdict o.keepingAll ended token = some status) :
    verdict o ended token =
      if status = .success ∧ o.skips token.tag = true then none else some status := by
  unfold verdict at h ⊢
  rw [Options.skips_keepingAll] at h
  split_ifs at h with hended herror hfalse
  · cases h
    simp [hended]
  · cases h
    simp [hended, herror]
  · cases h
    simp [hended, herror]

/-- A call that keeps all tokens reads one. -/
theorem Returns.of_keepingAll {a : Advance} (h : c.Returns o.keepingAll a) :
    a = ⟨a.status, c.step o, [(c.step o).token]⟩ ∧
      verdict o.keepingAll c.rest.isEmpty (c.step o).token = some a.status := by
  cases h with
  | ends _ status hv => exact ⟨rfl, hv⟩
  | skips _ later hv hl =>
    have hkeep := Options.skips_keepingAll o (c.step o.keepingAll).token.tag
    unfold verdict at hv
    rw [hkeep] at hv
    split_ifs at hv with hended herror hfalse
    exact hfalse.elim

/-- Calls behind a token that is passed over are calls from the token on: the first of them reads
it as well. -/
theorem Completes.behind (hv : verdict o c.rest.isEmpty (c.step o).token = none)
    (h : (c.step o).Completes o calls) :
    ∃ first more, calls = first :: more ∧
      c.Completes o (first.behind (c.step o).token :: more) := by
  cases h with
  | last _ a hr hs => exact ⟨a, [], rfl, .last c _ (.skips c a hv hr) hs⟩
  | more _ a later hr hs hl => exact ⟨a, later, rfl, .more c _ later (.skips c a hv hr) hs hl⟩

end Cursor

namespace Selects

/-- A token that is not passed over is read by a call of its own in both runs. -/
theorem keep (h : Selects o kept calls) {a : Advance} (ha : a.status = .success)
    (hk : o.skips a.cursor.token.tag = false) : Selects o (a :: kept) (a :: calls) := by
  constructor
  · simp only [List.flatMap_cons, h.events]
  · have hlast := congrArg (fun out => some (out.getD a.outcome)) h.outcome
    simpa only [List.getLast?_cons, Option.map_some, Option.getD_map] using hlast
  · rw [Reader.delivered_cons_of_success ha, Reader.delivered_cons_of_success ha, h.delivered]
    simp [hk]

/-- A token that is passed over is read by the first of the calls behind it. -/
theorem pass {first : Advance} {more : List Advance} {d : Cursor}
    (h : Selects o kept (first :: more)) (hk : o.skips d.token.tag = true) :
    Selects o (⟨.success, d, [d.token]⟩ :: kept) (first.behind d.token :: more) := by
  have hfirst : (first.behind d.token).events = .token d.token :: first.events := rfl
  have hsame : (first.behind d.token).outcome = first.outcome := rfl
  constructor
  · have hevents := h.events
    simp only [List.flatMap_cons] at hevents ⊢
    rw [hfirst, List.cons_append, hevents]
    rfl
  · have hlast := h.outcome
    cases hkept : kept.getLast? with
    | none => simp [hkept] at hlast
    | some b =>
      simp only [hkept, List.getLast?_cons, Option.map_some, Option.getD_some] at hlast ⊢
      rw [← hlast]
      cases more.getLast? with
      | none => exact congrArg some hsame
      | some a => rfl
  · have hnone : Reader.delivered (⟨.success, d, [d.token]⟩ :: kept) =
        d.token :: Reader.delivered kept := Reader.delivered_cons_of_success rfl
    rw [Reader.delivered_behind, h.delivered, hnone]
    simp [hk]

/-- Calls that end the same way at the same place fail alike. -/
theorem fault (h : Selects o kept calls) :
    calls.getLast?.bind Reader.faultOf = kept.getLast?.bind Reader.faultOf := by
  have hof : ∀ a b : Advance, a.outcome = b.outcome → Reader.faultOf a = Reader.faultOf b := by
    intro a b hab
    obtain ⟨hstatus, hcursor⟩ := Prod.mk.inj hab
    unfold Reader.faultOf
    rw [hstatus, hcursor]
  have hlast := h.outcome
  cases hc : calls.getLast? with
  | none =>
    rw [hc, Option.map_none, eq_comm, Option.map_eq_none_iff] at hlast
    rw [hlast]
  | some a =>
    rw [hc, Option.map_some, eq_comm, Option.map_eq_some_iff] at hlast
    obtain ⟨b, hb, hab⟩ := hlast
    rw [hb, Option.bind_some, Option.bind_some, hof a b hab.symm]

end Selects

/-- Along the calls that keep all tokens, other calls come to an end that pass over some. -/
theorem Cursor.Completes.exists_selects (h : c.Completes o.keepingAll kept) :
    ∃ calls, c.Completes o calls ∧ Selects o kept calls := by
  induction h with
  | last c a hr hs =>
    obtain ⟨ha, hkeep⟩ := hr.of_keepingAll
    have hv := verdict_of_keepingAll hkeep
    rw [if_neg (fun hsuccess => hs hsuccess.1)] at hv
    have hreturns := Returns.ends c a.status hv
    rw [← ha] at hreturns
    exact ⟨[a], .last c a hreturns hs, rfl, rfl, by simp [Reader.delivered, hs]⟩
  | more c a later hr hs hl ih =>
    obtain ⟨ha, hkeep⟩ := hr.of_keepingAll
    have hv := verdict_of_keepingAll hkeep
    rw [hs] at ha hv
    obtain ⟨calls, hcalls, hselects⟩ := ih
    rw [ha] at hcalls ⊢
    cases hk : o.skips (c.step o).token.tag with
    | true =>
      rw [hk, if_pos ⟨rfl, rfl⟩] at hv
      obtain ⟨first, more, rfl, hbehind⟩ := hcalls.behind hv
      exact ⟨_, hbehind, hselects.pass hk⟩
    | false =>
      rw [hk, if_neg (fun hpassed => Bool.false_ne_true hpassed.2)] at hv
      exact ⟨_, .more c _ calls (.ends c .success hv) rfl hcalls, hselects.keep rfl hk⟩

/-- Settings that differ only in what is passed over are accepted alike and stand for options that
differ only in that. -/
theorem Settings.exists_resolve {s t : Settings} (hst : t.keepingAll = s.keepingAll)
    (h : s.resolve = .ok o) : ∃ p, t.resolve = .ok p ∧ p.keepingAll = o.keepingAll := by
  obtain ⟨hline, hopener, hcloser⟩ := resolve_markers h
  have hlines : t.lineOpener = s.lineOpener := (congrArg Settings.lineOpener hst :)
  have hopeners : t.blockOpener = s.blockOpener := (congrArg Settings.blockOpener hst :)
  have hclosers : t.blockCloser = s.blockCloser := (congrArg Settings.blockCloser hst :)
  obtain ⟨p, hp⟩ : ∃ p, t.resolve = .ok p := by
    unfold resolve
    rw [hlines, hopeners, hclosers, hline, hopener, hcloser]
    exact ⟨_, rfl⟩
  refine ⟨p, hp, ?_⟩
  have hkeeping := resolve_keepingAll hp
  rw [hst, resolve_keepingAll h] at hkeeping
  exact (Except.ok.inj hkeeping).symm

/-- A source that is opened under settings is opened at the same place under others that let as much
of it be read and are accepted. -/
theorem Opens.resolve {opens : Settings → Except Fault Reader} (ho : Opens opens) {s : Settings}
    {r : Reader} (h : opens s = .ok r) :
    s.resolve = .ok r.options ∧ ∀ (t : Settings) (p : Options), t.length = s.length →
      t.resolve = .ok p → opens t = .ok ⟨p, r.cursor⟩ := by
  have hbytes : ∀ source : List UInt8, openBytes source s = .ok r →
      s.resolve = .ok r.options ∧ ∀ (t : Settings) (p : Options), t.length = s.length →
        t.resolve = .ok p → openBytes source t = .ok ⟨p, r.cursor⟩ := by
    intro source hopen
    obtain ⟨bytes, hread, hstart, hoptions⟩ := opened_of_openBytes hopen
    refine ⟨hoptions, fun t p hlength hp => ?_⟩
    have hreadable : t.readable source = .ok bytes := by
      rw [← hread]
      unfold Settings.readable
      rw [hlength]
    rw [hstart]
    exact openBytes_of_readable hreadable hp
  cases ho with
  | bytes source => exact hbytes source h
  | text source =>
    unfold openText at h ⊢
    cases hutf8 : source.toUtf8 .default with
    | error fault =>
      rw [hutf8] at h
      cases h
    | ok bytes =>
      rw [hutf8] at h
      exact hbytes bytes h

/-- Tokens collected by calls that keep all, less those passed over; a fault stays the same. -/
theorem Reader.tokens_of_selects {r plain : Reader}
    (h : r.cursor.Completes r.options calls) (hp : plain.cursor.Completes plain.options kept)
    (hs : Selects r.options kept calls) :
    r.tokens = plain.tokens.map (List.filter fun t => !r.options.skips t.tag) := by
  unfold tokens
  dsimp only
  rw [(Cursor.run_of_completes h).1, (Cursor.run_of_completes hp).1, hs.fault]
  cases kept.getLast?.bind faultOf with
  | some fault => rfl
  | none => rw [hs.delivered]; rfl

/-- Two settings that differ only in what is passed over read a source alike. When it opens under
one and the comment markers have bytes, it opens under the other and under the settings that keep
all tokens, and all three come to an end. A listener hears the same tokens and errors, the calls end
the same way at the same place, and each run delivers, as it collects, the tokens of the run that
keeps all, less those it passes over. -/
theorem Opens.passing {opens : Settings → Except Fault Reader} (ho : Opens opens)
    {s t : Settings} (hst : t.keepingAll = s.keepingAll) {r : Reader} (h : opens s = .ok r)
    (hm : r.options.Marked) :
    ∃ other plain, opens t = .ok other ∧ opens s.keepingAll = .ok plain ∧
      ∃ calls others kept,
        r.cursor.Completes r.options calls ∧
        other.cursor.Completes other.options others ∧
        plain.cursor.Completes plain.options kept ∧
        others.flatMap Advance.events = calls.flatMap Advance.events ∧
        others.getLast?.map Advance.outcome = calls.getLast?.map Advance.outcome ∧
        Selects r.options kept calls ∧ Selects other.options kept others ∧
        r.tokens = plain.tokens.map (List.filter fun t => !r.options.skips t.tag) ∧
        other.tokens = plain.tokens.map (List.filter fun t => !other.options.skips t.tag) := by
  obtain ⟨hresolve, hopens⟩ := ho.resolve h
  obtain ⟨p, hp, hsame⟩ := Settings.exists_resolve hst hresolve
  have hlength : t.length = s.length := (congrArg Settings.length hst :)
  have hother := hopens t p hlength hp
  have hplain := hopens s.keepingAll _ rfl (Settings.resolve_keepingAll hresolve)
  have hmoves : r.options.keepingAll.Moves := hm.moves
  obtain ⟨kept, hkept⟩ := Cursor.exists_completes_of_moves hmoves r.cursor
  obtain ⟨calls, hcalls, hselects⟩ := hkept.exists_selects
  have hagain : r.cursor.Completes p.keepingAll kept := hsame ▸ hkept
  obtain ⟨others, hothers, hselected⟩ := hagain.exists_selects
  refine ⟨_, _, hother, hplain, calls, others, kept, hcalls, hothers, hkept, ?_, ?_, hselects,
    hselected, ?_, ?_⟩
  · rw [hselected.events, hselects.events]
  · rw [hselected.outcome, hselects.outcome]
  · exact Reader.tokens_of_selects hcalls hkept hselects
  · exact Reader.tokens_of_selects hothers hkept hselected

/-- Two names around a blank, a comment and a line end: a reader that passes over all three delivers
the names, and a listener hears what it hears of a reader that keeps all tokens. -/
theorem Opens.passing_names :
    ∃ (t : Settings) (r other : Reader), t.keepingAll = Settings.default.keepingAll ∧
      openBytes [0x78, 0x20, 0x2F, 0x2F, 0x79, 0x0A, 0x7A] .default = .ok r ∧ r.options.Marked ∧
      openBytes [0x78, 0x20, 0x2F, 0x2F, 0x79, 0x0A, 0x7A] t = .ok other ∧
      other.tokens.toOption.map (List.map Token.bytes) = some [[0x78], [0x7A]] ∧
      ∃ calls others, r.cursor.Completes r.options calls ∧
        other.cursor.Completes other.options others ∧
        others.flatMap Advance.events = calls.flatMap Advance.events := by
  have hopen : openBytes [0x78, 0x20, 0x2F, 0x2F, 0x79, 0x0A, 0x7A] .default =
      .ok ⟨⟨false, false, false, false, [0x2F, 0x2F], [0x2F, 0x2A], [0x2A, 0x2F]⟩,
        .start [0x78, 0x20, 0x2F, 0x2F, 0x79, 0x0A, 0x7A]⟩ := by
    with_unfolding_all rfl
  have hthere : openBytes [0x78, 0x20, 0x2F, 0x2F, 0x79, 0x0A, 0x7A]
      ⟨some true, some true, some true, none, none, none, none, none⟩ =
      .ok ⟨⟨true, true, true, false, [0x2F, 0x2F], [0x2F, 0x2A], [0x2A, 0x2F]⟩,
        .start [0x78, 0x20, 0x2F, 0x2F, 0x79, 0x0A, 0x7A]⟩ := by
    with_unfolding_all rfl
  have hmarked : Options.Marked
      ⟨false, false, false, false, [0x2F, 0x2F], [0x2F, 0x2A], [0x2A, 0x2F]⟩ :=
    ⟨by decide, by decide, by decide⟩
  obtain ⟨other, plain, hother, -, calls, others, kept, hcalls, hothers, -, hevents, -⟩ :=
    (Opens.bytes [0x78, 0x20, 0x2F, 0x2F, 0x79, 0x0A, 0x7A]).passing (s := .default)
      (t := ⟨some true, some true, some true, none, none, none, none, none⟩) rfl hopen hmarked
  have hreader := Except.ok.inj (hother.symm.trans hthere)
  refine ⟨⟨some true, some true, some true, none, none, none, none, none⟩, _, other, rfl, hopen,
    hmarked, hother, ?_, calls, others, hcalls, hothers, hevents⟩
  rw [hreader]
  decide +kernel

end TextUnits.Lexer
