import TextUnits.Lexer.Value
import TextUnits.Proofs.Lexer.InPlace
import TextUnits.Proofs.Lexer.Loops
import TextUnits.Proofs.Transcode.Limits

/-!
# Sources with a limit

A `Place` stands in a source that is not cut: its tokens are read in place, and their bytes and
their values are taken from the whole source by offset and length. `Report` is what a caller sees of
a call. Reading in place gives the reports that a reader of the bytes up to the limit gives, call for
call, so nothing that is seen depends on what stands behind the limit.
-/

namespace TextUnits.Lexer

/-- How many bytes of a source settings let a lexer read. -/
def Settings.limitIn (s : Settings) (source : List UInt8) : Except Fault Nat :=
  match s.length with
  | none => .ok source.length
  | some x =>
    match x.toInt? with
    | none => .error (.lexerLength x source.length)
    | some n =>
      if n = -1 then .ok (source.findIdx (· == 0))
      else if 0 ≤ n ∧ n ≤ source.length then .ok n.toNat
      else .error (.lexerLength x source.length)

/-- The value of a token, from the bytes that stand at its offset in the source of a view. -/
def View.value (v : View) (o : Options) (t : Token) : Except Fault Buffer :=
  Token.value o { t with bytes := (v.source.drop t.offset).take t.length }

/-- What a caller sees of a call. -/
structure Report where
  /-- How the call ended. -/
  status : Ending
  /-- The tokens that it read, those passed over included. -/
  read : List Token
  /-- The line that it stopped on. -/
  line : Nat
  /-- The values of the tokens. -/
  values : List (Except Fault Buffer)

/-- What a caller sees of a number of calls. -/
def Cursor.reports (o : Options) (c : Cursor) : Nat → List Report
  | 0 => []
  | calls + 1 =>
    let a := c.next o
    ⟨a.status, a.read, a.cursor.line, a.read.map (Token.value o)⟩ :: a.cursor.reports o calls

/-- A place in a source that is not cut, with the token last read. -/
structure Place where
  /-- The source and its limit. -/
  view : View
  /-- Bytes read. -/
  offset : Nat
  /-- Line of the place, counted from 1. -/
  line : Nat
  /-- The token read last; an empty end of source before the first. -/
  token : Token

/-- Result of a call that reads on in place. -/
structure Passage where
  /-- How it ended. -/
  status : Ending
  /-- The place afterwards. -/
  place : Place
  /-- All tokens read, those passed over included. -/
  read : List Token

namespace Place

/-- The start of a view. -/
def start (v : View) : Place := ⟨v, 0, 1, ⟨.named .eof, 0, [], 1⟩⟩

/-- The place behind a token of `size` bytes with the given tag. -/
def take (p : Place) (tag : Tag) (size : Nat) : Place :=
  let bytes := (p.view.source.drop p.offset).take size
  ⟨p.view, p.offset + size, p.line + lineEnds tag bytes, ⟨tag, p.offset, bytes, p.line⟩⟩

/-- Whether the limit is reached. -/
def atEnd (p : Place) : Bool := p.view.limit ≤ p.offset

/-- Reads one token, whatever it is. -/
def step (o : Options) (p : Place) : Place :=
  if p.atEnd then p.take (.named .eof) 0
  else
    let (tag, size) := p.view.scan o p.offset
    p.take tag size

/-- Bytes between the place and the limit. -/
def remaining (p : Place) : Nat := p.view.limit - p.offset

/-- Reads on until a token that is not passed over. -/
def next (o : Options) (p : Place) : Passage :=
  let behind := p.step o
  match Cursor.verdict o p.atEnd behind.token with
  | some status => ⟨status, behind, [behind.token]⟩
  | none =>
    if behind.remaining < p.remaining then
      let later := next o behind
      ⟨later.status, later.place, behind.token :: later.read⟩
    else ⟨.stalled, behind, [behind.token]⟩
termination_by p.remaining

/-- What a caller sees of a number of calls. -/
def reports (o : Options) (p : Place) : Nat → List Report
  | 0 => []
  | calls + 1 =>
    let a := p.next o
    ⟨a.status, a.read, a.place.line, a.read.map (p.view.value o)⟩ :: a.place.reports o calls

/-- The cursor in the bytes up to the limit that a place stands for. -/
def cursor (p : Place) : Cursor := ⟨p.view.behind p.offset, p.offset, p.line, p.token⟩

/-- A place that lies in front of its limit or at it, in a source that reaches to the limit. -/
structure Sound (p : Place) : Prop where
  /-- The source reaches to the limit. -/
  fits : p.view.Fits
  /-- The place does not lie behind the limit. -/
  offset_le : p.offset ≤ p.view.limit

variable {o : Options} {p : Place}

/-- A token that ends in front of the limit has the bytes up to the limit that the cursor takes. -/
theorem Sound.take (hp : p.Sound) (tag : Tag) {size : Nat}
    (hs : p.offset + size ≤ p.view.limit) :
    (p.take tag size).Sound ∧ (p.take tag size).cursor = p.cursor.take tag size := by
  have hbytes : (p.view.behind p.offset).take size = (p.view.source.drop p.offset).take size := by
    rw [View.behind, List.drop_take, List.take_take, Nat.min_eq_left (by omega)]
  refine ⟨⟨hp.fits, hs⟩, ?_⟩
  unfold cursor Place.take Cursor.take
  dsimp only
  rw [hbytes, View.behind_add]

theorem Sound.remaining_eq (hp : p.Sound) : p.remaining = p.cursor.rest.length :=
  (hp.fits.length_behind p.offset).symm

theorem Sound.atEnd_eq (hp : p.Sound) : p.atEnd = p.cursor.rest.isEmpty := by
  rw [atEnd, Bool.eq_iff_iff, decide_eq_true_iff, List.isEmpty_iff_length_eq_zero,
    ← hp.remaining_eq, remaining]
  omega

/-- A token read in place is the one at the cursor, and the place behind it stands for the cursor
behind it. -/
theorem Sound.step (hp : p.Sound) (o : Options) :
    (p.step o).Sound ∧ (p.step o).cursor = p.cursor.step o := by
  unfold Place.step Cursor.step
  rw [hp.atEnd_eq]
  by_cases hr : p.cursor.rest = []
  · rw [hr]
    exact hp.take (.named .eof) hp.offset_le
  · have hlt : p.offset < p.view.limit := by
      have hpos := List.length_pos_iff.mpr hr
      rw [← hp.remaining_eq, remaining] at hpos
      omega
    have hsize := (scan_within o hr).2
    rw [← hp.remaining_eq, remaining] at hsize
    rw [List.isEmpty_eq_false_iff.mpr hr, View.scan_eq hp.fits o hlt]
    exact hp.take _ (by change _ + (scan o p.cursor.rest).2 ≤ _; omega)

/-- A token read in place has the bytes at its offset. -/
theorem step_token_bytes (o : Options) (p : Place) :
    (p.step o).view = p.view ∧
      (p.step o).token.bytes =
        (p.view.source.drop (p.step o).token.offset).take (p.step o).token.length := by
  have htake : ∀ tag size, (p.take tag size).view = p.view ∧
      (p.take tag size).token.bytes = (p.view.source.drop (p.take tag size).token.offset).take
        (p.take tag size).token.length := by
    intro tag size
    refine ⟨rfl, ?_⟩
    dsimp only [Place.take, Token.length]
    rw [List.length_take, ← List.take_eq_take_min]
  unfold Place.step
  split_ifs
  · exact htake _ _
  · exact htake _ _

/-- A call in place reads the tokens that the call at the cursor reads, and ends as it ends. -/
theorem Sound.next (hp : p.Sound) (o : Options) :
    (p.next o).place.Sound ∧ (p.next o).place.cursor = (p.cursor.next o).cursor ∧
      (p.next o).status = (p.cursor.next o).status ∧ (p.next o).read = (p.cursor.next o).read ∧
      (p.next o).place.view = p.view ∧
      ∀ t ∈ (p.next o).read, t.bytes = (p.view.source.drop t.offset).take t.length := by
  induction hn : p.remaining using Nat.strongRecOn generalizing p with
  | ind n ih =>
    obtain ⟨hstep, hcursor⟩ := hp.step o
    obtain ⟨hview, hbytes⟩ := step_token_bytes o p
    have htoken : (p.step o).token = (p.cursor.step o).token := congrArg Cursor.token hcursor
    rw [Place.next]
    dsimp only
    cases hv : Cursor.verdict o p.atEnd (p.step o).token with
    | some status =>
      rw [hp.atEnd_eq, htoken] at hv
      rw [Cursor.next_of_verdict hv]
      exact ⟨hstep, hcursor, rfl, congrArg ([·]) htoken, hview,
        fun t ht => List.mem_singleton.mp ht ▸ hbytes⟩
    | none =>
      rw [hp.atEnd_eq, htoken] at hv
      dsimp only
      have hremaining : (p.step o).remaining < p.remaining ↔
          (p.cursor.step o).rest.length < p.cursor.rest.length := by
        rw [hstep.remaining_eq, hcursor, hp.remaining_eq]
      by_cases hlt : (p.step o).remaining < p.remaining
      · obtain ⟨hsound, hlater, hstatus, hread, hlast, htokens⟩ := ih _ (hn ▸ hlt) hstep rfl
        rw [hcursor] at hlater hstatus hread
        rw [hview] at htokens
        rw [if_pos hlt, Cursor.next_of_skip hv (hremaining.mp hlt)]
        exact ⟨hsound, hlater, hstatus, congrArg₂ _ htoken hread, hlast.trans hview,
          List.forall_mem_cons.mpr ⟨hbytes, htokens⟩⟩
      · rw [if_neg hlt, Cursor.next_of_stall hv (fun h => hlt (hremaining.mpr h))]
        exact ⟨hstep, hcursor, rfl, congrArg ([·]) htoken, hview,
          fun t ht => List.mem_singleton.mp ht ▸ hbytes⟩

/-- A number of calls in place are seen as the calls at the cursor are. -/
theorem Sound.reports (hp : p.Sound) (o : Options) (calls : Nat) :
    p.reports o calls = p.cursor.reports o calls := by
  induction calls generalizing p with
  | zero => rfl
  | succ calls ih =>
    obtain ⟨hsound, hcursor, hstatus, hread, hview, hbytes⟩ := hp.next o
    have hvalues : (p.next o).read.map (p.view.value o) =
        (p.cursor.next o).read.map (Token.value o) := by
      rw [← hread]
      refine List.map_congr_left fun t ht => ?_
      rw [View.value, ← hbytes t ht]
    have hline : (p.next o).place.line = (p.cursor.next o).cursor.line :=
      congrArg Cursor.line hcursor
    rw [Place.reports, Cursor.reports, hvalues, hstatus, hread, hline, ih hsound, hcursor]

end Place

/-- What a caller sees of a number of calls that read a source in place under settings. -/
def readInPlace (source : List UInt8) (s : Settings) (calls : Nat) :
    Except Fault (List Report) := do
  let limit ← s.limitIn source
  let options ← s.resolve
  return (Place.start ⟨source, limit⟩).reports options calls

variable {source other : List UInt8} {s : Settings} {x y : Double} {limit n : Nat}

/-- The limit that settings give is that of their length, or they are refused. -/
theorem Settings.limitIn_eq (s : Settings) (source : List UInt8) :
    s.limitIn source =
      match Encoding.utf8.limitOf? s.length source with
      | some limit => .ok limit
      | none => .error (.lexerLength (s.length.getD Double.nan) source.length) := by
  have hbyte : (fun b : UInt8 => b == 0) = fun b => Encoding.utf8.value b == 0 :=
    funext (forall_byte (by decide +kernel))
  unfold limitIn Encoding.limitOf?
  rw [hbyte]
  cases s.length with
  | none => rfl
  | some x =>
    dsimp only
    cases x.toInt? with
    | none => rfl
    | some n =>
      dsimp only
      split_ifs <;> rfl

/-- The limit lies within the source. -/
theorem Settings.limitIn_le (h : s.limitIn source = .ok limit) : limit ≤ source.length := by
  rw [limitIn_eq] at h
  cases hlimit : Encoding.utf8.limitOf? s.length source with
  | none =>
    rw [hlimit] at h
    cases h
  | some found =>
    rw [hlimit] at h
    cases h
    exact Encoding.limitOf?_le hlimit

/-- What settings let a lexer read are the bytes up to the limit. -/
theorem Settings.readable_eq (s : Settings) (source : List UInt8) :
    s.readable source = (s.limitIn source).map source.take := by
  rw [readable, limitIn_eq, Encoding.selectUnits_eq]
  cases Encoding.utf8.limitOf? s.length source <;> rfl

/-- Reading in place is seen as a reader of the bytes up to the limit is. -/
theorem readInPlace_eq (source : List UInt8) (s : Settings) (calls : Nat) :
    readInPlace source s calls =
      (openBytes source s).map fun r => r.cursor.reports r.options calls := by
  unfold readInPlace openBytes
  rw [Settings.readable_eq]
  cases hlimit : s.limitIn source with
  | error fault => rfl
  | ok limit =>
    cases s.resolve with
    | error fault => rfl
    | ok o =>
      have hsound : (Place.start ⟨source, limit⟩).Sound :=
        ⟨Settings.limitIn_le hlimit, Nat.zero_le _⟩
      exact congrArg Except.ok (hsound.reports o calls)

/-- A length that fits a source is its limit. -/
theorem Settings.limitIn_of_length (s : Settings) (hx : x.toInt? = some (n : Int))
    (hn : n ≤ source.length) : { s with length := some x }.limitIn source = .ok n := by
  have hpos : (n : Int) ≠ -1 := by omega
  have hwithin : (0 : Int) ≤ n ∧ (n : Int) ≤ source.length := by omega
  unfold limitIn
  dsimp only
  rw [hx]
  dsimp only
  rw [if_neg hpos, if_pos hwithin, Int.toNat_natCast]

/-- A length of -1 stands for the limit in front of the first zero byte. -/
theorem Settings.limitIn_of_terminated (s : Settings) (hx : x.toInt? = some (-1)) :
    { s with length := some x }.limitIn source = .ok (source.findIdx (· == 0)) := by
  unfold limitIn
  dsimp only
  rw [hx]
  rfl

/-- Readers start with the same bytes where settings that differ in the length alone give limits
with the same bytes in front of them. -/
theorem openBytes_congr {length : Option Double}
    (h : (s.limitIn source).map source.take =
      ({ s with length := length }.limitIn other).map other.take) :
    openBytes source s = openBytes other { s with length := length } := by
  unfold openBytes
  rw [Settings.readable_eq, Settings.readable_eq, h]
  rfl

/-- A reader with a length that fits reads the first bytes alone: it is the reader of these bytes,
whatever stands behind them. Read in place, every source that begins with them is seen alike, call
for call: the statuses, the tokens, the lines and the values are those of that reader. A length
of -1 reads as the length in front of the first zero byte does, or as that of the whole source when
it has none. -/
theorem openBytes_limit (source : List UInt8) (s : Settings) (x : Double) :
    (∀ n : Nat, x.toInt? = some (n : Int) → ∀ other : List UInt8, n ≤ other.length →
      other.take n = source.take n →
        openBytes other { s with length := some x } =
            openBytes (source.take n) { s with length := none } ∧
          ∀ calls, readInPlace other { s with length := some x } calls =
            (openBytes (source.take n) { s with length := none }).map fun r =>
              r.cursor.reports r.options calls) ∧
      (x.toInt? = some (-1) → ∀ y : Double, y.toInt? = some (source.findIdx (· == 0) : Nat) →
        openBytes source { s with length := some x } =
            openBytes source { s with length := some y } ∧
          ∀ calls, readInPlace source { s with length := some x } calls =
            readInPlace source { s with length := some y } calls) := by
  refine ⟨fun n hx other hn hsame => ?_, fun hx y hy => ?_⟩
  · have hopen : openBytes other { s with length := some x } =
        openBytes (source.take n) { s with length := none } := by
      refine openBytes_congr (s := { s with length := some x }) ?_
      rw [Settings.limitIn_of_length s hx hn]
      change Except.ok (other.take n) =
        Except.ok ((source.take n).take (source.take n).length)
      rw [List.take_length, hsame]
    refine ⟨hopen, fun calls => ?_⟩
    rw [readInPlace_eq, hopen]
  · have hopen : openBytes source { s with length := some x } =
        openBytes source { s with length := some y } := by
      refine openBytes_congr (s := { s with length := some x }) ?_
      rw [Settings.limitIn_of_terminated s hx,
        Settings.limitIn_of_length s hy List.findIdx_le_length]
    refine ⟨hopen, fun calls => ?_⟩
    rw [readInPlace_eq, readInPlace_eq, hopen]

/-- A name in front of a zero byte, and a source that goes on with a letter instead. -/
theorem openBytes_limit_name :
    (openBytes [0x61, 0x62] { Settings.default with length := some (.ofNat 1) } =
        openBytes ([0x61, 0x00].take 1) { Settings.default with length := none } ∧
      ∀ calls, readInPlace [0x61, 0x62] { Settings.default with length := some (.ofNat 1) } calls =
        (openBytes ([0x61, 0x00].take 1) { Settings.default with length := none }).map fun r =>
          r.cursor.reports r.options calls) ∧
      openBytes [0x61, 0x00] { Settings.default with length := some ⟨0xBFF0000000000000⟩ } =
          openBytes [0x61, 0x00] { Settings.default with length := some (.ofNat 1) } ∧
        ∀ calls,
          readInPlace [0x61, 0x00] { Settings.default with length := some ⟨0xBFF0000000000000⟩ }
              calls =
            readInPlace [0x61, 0x00] { Settings.default with length := some (.ofNat 1) } calls :=
  ⟨(openBytes_limit [0x61, 0x00] .default (.ofNat 1)).1 1 (by decide +kernel) [0x61, 0x62]
      (by decide) rfl,
    (openBytes_limit [0x61, 0x00] .default ⟨0xBFF0000000000000⟩).2 (by decide +kernel) (.ofNat 1)
      (by decide +kernel)⟩

end TextUnits.Lexer
