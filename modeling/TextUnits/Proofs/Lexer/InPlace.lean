import TextUnits.Proofs.Encoding.InPlace
import TextUnits.Proofs.Lexer.Views

/-!
# Tokens read in place

The readers of comments, texts, operators and names look at all of a source as well, and each
minds the limit in its own way: a marker is compared with the bytes themselves once its length is
known to fit, a closer is looked for as long as it fits, and a closing quote up to the limit.
Layout, lines and blanks are looked for in the bytes up to the limit. All of them find what the
readers of these bytes alone find, and so does the scan.
-/

namespace TextUnits.Lexer.View

variable {v : View} {o : Options} {n : Nat}

/-- Whether the bytes of a source from a place on are those of a marker, wherever the limit is. -/
def agrees (v : View) : List UInt8 → Nat → Bool
  | [], _ => true
  | b :: rest, n => v.source[n]? == some b && v.agrees rest (n + 1)

/-- Whether a marker stands at a place in front of the limit. -/
def begins (v : View) (marker : List UInt8) (n : Nat) : Bool :=
  n + marker.length ≤ v.limit && v.agrees marker n

/-- The first place from a given one on where a marker stands in front of the limit. -/
def find? (v : View) (marker : List UInt8) (n : Nat) : Option Nat :=
  if n + marker.length ≤ v.limit then
    if v.begins marker n then some n else v.find? marker (n + 1)
  else none
termination_by v.limit + 1 - n

/-- The place behind the first quote from a place on that has no backslash in front of it. -/
def closing? (v : View) (quote : UInt8) (n : Nat) : Option Nat :=
  if n < v.limit then
    if v.source[n]? = some quote ∧ v.source[n - 1]? ≠ some 0x5C then some (n + 1)
    else v.closing? quote (n + 1)
  else none
termination_by v.limit - n

/-- A comment at a place that ends in front of the next line end. -/
def lineComment? (v : View) (o : Options) (n : Nat) : Option Found :=
  if v.begins o.lineOpener n then
    let body := v.behind (n + o.lineOpener.length)
    some ⟨.comment, o.lineOpener.length + (Scan.lineEnd body).line⟩
  else none

/-- A comment at a place that ends with its closer, or at the limit when it has none. -/
def blockComment? (v : View) (o : Options) (n : Nat) : Option Found :=
  if v.begins o.blockOpener n then
    let stop :=
      match v.find? o.blockCloser (n + o.blockOpener.length) with
      | some close => close + o.blockCloser.length
      | none => v.limit
    some ⟨.comment, stop - n⟩
  else none

/-- A text in quotes at a place, if it has a closing quote. -/
def string? (v : View) (n : Nat) : Option Found :=
  match v.source[n]? with
  | some q =>
    if q = 0x22 ∨ q = 0x27 then
      (v.closing? q (n + 1)).map fun stop => ⟨.stringDouble, stop - n⟩
    else none
  | none => none

/-- A number at a place. -/
def number? (v : View) (n : Nat) : Option Found :=
  if v.source[n]?.any isDigit then some ⟨(v.number n).1, (v.number n).2 - n⟩ else none

/-- The compound operator at a place, the longest one that fits. -/
def operator? (v : View) (n : Nat) : Option Found :=
  (Kind.operators.find? fun kind =>
    v.begins (kind.name.toList.map fun c => UInt8.ofNat c.toNat) n).map fun kind =>
      ⟨kind, kind.name.length⟩

/-- A name at a place; it ends in front of the next blank code point. -/
def identifier? (v : View) (o : Options) (n : Nat) : Option Found :=
  if v.source[n]?.any startsName then
    let remaining := v.behind n
    let stop := (Scan.blank? remaining).getD remaining.length
    some ⟨.identifier, (View.mk remaining stop).skip (continuesName o) 1⟩
  else none

/-- What stands at a place, if it has a named kind. -/
def scanNamed? (v : View) (o : Options) (n : Nat) : Option Found :=
  layout? (v.behind n) <|> v.lineComment? o n <|> v.blockComment? o n <|> v.string? n <|>
    v.number? n <|> v.operator? n <|> v.identifier? o n

/-- What stands at a place and how many bytes it takes. -/
def scan (v : View) (o : Options) (n : Nat) : Tag × Nat :=
  match v.scanNamed? o n with
  | some found => (.named found.kind, found.size)
  | none => (.char ((v.source[n]?.map UInt8.toNat).getD 0), 1)

/-- A view whose limit does not lie behind the end of the source. -/
def Fits (v : View) : Prop := v.limit ≤ v.source.length

theorem Fits.length_behind (hv : v.Fits) (n : Nat) : (v.behind n).length = v.limit - n :=
  Encoding.length_drop_take hv n

/-- At the limit nothing is left. -/
theorem behind_of_le (h : v.limit ≤ n) : v.behind n = [] :=
  List.drop_eq_nil_of_le (Nat.le_trans (List.length_take_le _ _) h)

/-- In front of the limit stands the byte of the source. -/
theorem Fits.exists_behind (hv : v.Fits) (hn : n < v.limit) :
    ∃ b, v.source[n]? = some b ∧ v.behind n = b :: v.behind (n + 1) :=
  Encoding.exists_front_of_lt hv hn

/-- Comparing the bytes after the length compares the bytes up to the limit. -/
theorem begins_eq (hv : v.Fits) (marker : List UInt8) (hn : n ≤ v.limit) :
    v.begins marker n = Sequence.begins marker (v.behind n) := by
  induction marker generalizing n with
  | nil => simp [begins, agrees, Sequence.begins, Sequence.after?, hn]
  | cons b rest ih =>
    rcases Nat.lt_or_eq_of_le hn with hlt | rfl
    · obtain ⟨c, hc, hbehind⟩ := hv.exists_behind hlt
      have hrest := ih (n := n + 1) hlt
      have hlength : n + (b :: rest).length = n + 1 + rest.length := by
        rw [List.length_cons]
        omega
      unfold begins at hrest ⊢
      rw [hlength, agrees, hc, hbehind, Bool.and_left_comm, hrest]
      unfold Sequence.begins
      rw [Sequence.after?]
      by_cases hbc : b = c
      · simp [hbc]
      · simp [hbc, Ne.symm hbc]
    · have hlong : ¬ v.limit + (b :: rest).length ≤ v.limit := by
        rw [List.length_cons]
        omega
      rw [behind_of_le (Nat.le_refl _), begins, decide_eq_false hlong]
      rfl

/-- Looking for a marker as long as it fits finds its first occurrence up to the limit. -/
theorem find?_eq (hv : v.Fits) (marker : List UInt8) (hn : n ≤ v.limit) :
    v.find? marker n = (Sequence.indexOf? marker (v.behind n)).map (n + ·) := by
  induction n using find?.induct v marker with
  | case1 n hfits hbegins =>
    rw [find?, if_pos hfits, if_pos hbegins]
    rw [begins_eq hv marker hn] at hbegins
    rw [Sequence.indexOf?_of_begins hbegins]
    rfl
  | case2 n hfits hbegins ih =>
    rw [find?, if_pos hfits, if_neg hbegins]
    rw [begins_eq hv marker hn] at hbegins
    rcases Nat.lt_or_eq_of_le hn with hlt | rfl
    · obtain ⟨b, -, hbehind⟩ := hv.exists_behind hlt
      rw [hbehind] at hbegins ⊢
      rw [ih hlt, Sequence.indexOf?, if_neg hbegins, Option.map_map]
      congr 1
      funext m
      exact Nat.add_right_comm n 1 m ▸ rfl
    · -- Only a marker without bytes fits at the limit, and that stands there.
      have hnil : marker = [] := List.length_eq_zero_iff.mp (by omega)
      rw [hnil] at hbegins
      exact absurd rfl hbegins
  | case3 n hfits =>
    rw [find?, if_neg hfits]
    cases hindex : Sequence.indexOf? marker (v.behind n) with
    | none => rfl
    | some m =>
      have hle := Sequence.indexOf?_le hindex
      rw [hv.length_behind] at hle
      omega

/-- Going on to the limit finds the quote that closes a text in the bytes up to it. -/
theorem closing?_eq (hv : v.Fits) (quote : UInt8) {before : UInt8}
    (hb : v.source[n]? = some before) :
    v.closing? quote (n + 1) =
      (Lexer.closing? quote before (v.behind (n + 1))).map (n + 1 + ·) := by
  generalize hm : n + 1 = m
  induction m using closing?.induct v quote generalizing n before with
  | case1 m hlt hquote =>
    subst hm
    obtain ⟨b, hsource, hbehind⟩ := hv.exists_behind hlt
    rw [closing?, if_pos hlt, if_pos hquote, hbehind, Lexer.closing?, if_pos]
    · rfl
    · rw [hsource, Nat.add_sub_cancel, hb] at hquote
      exact ⟨Option.some.inj hquote.1, fun h => hquote.2 (congrArg some h)⟩
  | case2 m hlt hquote ih =>
    subst hm
    obtain ⟨b, hsource, hbehind⟩ := hv.exists_behind hlt
    rw [closing?, if_pos hlt, if_neg hquote, hbehind, Lexer.closing?, if_neg, ih hsource rfl,
      Option.map_map]
    · congr 1
      funext size
      exact Nat.add_right_comm (n + 1) 1 size
    · rw [hsource, Nat.add_sub_cancel, hb] at hquote
      exact fun h => hquote ⟨congrArg some h.1, fun hs => h.2 (Option.some.inj hs)⟩
  | case3 m hlt =>
    rw [closing?, if_neg hlt, behind_of_le (Nat.not_lt.mp hlt)]
    rfl

theorem lineComment?_eq (hv : v.Fits) (o : Options) (hn : n ≤ v.limit) :
    v.lineComment? o n = Lexer.lineComment? o (v.behind n) := by
  unfold lineComment? Lexer.lineComment?
  rw [begins_eq hv _ hn, Sequence.begins]
  cases hafter : Sequence.after? o.lineOpener (v.behind n) with
  | none => rfl
  | some body =>
    have hbody : v.behind (n + o.lineOpener.length) = body := by
      rw [behind_add, Sequence.eq_append_of_after? hafter, List.drop_left]
    dsimp only
    rw [hbody]
    rfl

theorem blockComment?_eq (hv : v.Fits) (o : Options) (hn : n ≤ v.limit) :
    v.blockComment? o n = Lexer.blockComment? o (v.behind n) := by
  unfold blockComment? Lexer.blockComment?
  rw [begins_eq hv _ hn, Sequence.begins]
  cases hafter : Sequence.after? o.blockOpener (v.behind n) with
  | none => rfl
  | some body =>
    have hbody : v.behind (n + o.blockOpener.length) = body := by
      rw [behind_add, Sequence.eq_append_of_after? hafter, List.drop_left]
    have hlength := Sequence.length_of_after? hafter
    rw [hv.length_behind] at hlength
    rw [Option.isSome_some, if_pos rfl, Option.map_some]
    dsimp only
    rw [find?_eq hv _ (by omega), hbody, hv.length_behind]
    cases Sequence.indexOf? o.blockCloser body with
    | none => rfl
    | some inside =>
      have hsize : n + o.blockOpener.length + inside + o.blockCloser.length - n =
          o.blockOpener.length + inside + o.blockCloser.length := by
        omega
      exact congrArg (fun size => some (Found.mk .comment size)) hsize

theorem string?_eq (hv : v.Fits) (hn : n < v.limit) :
    v.string? n = Lexer.string? (v.behind n) := by
  obtain ⟨b, hsource, hbehind⟩ := hv.exists_behind hn
  rw [hbehind]
  unfold string? Lexer.string?
  rw [hsource]
  dsimp only
  rw [closing?_eq hv b hsource, Option.map_map]
  congr 2
  funext size
  have hsize : n + 1 + size - n = 1 + size := by omega
  exact congrArg (Found.mk .stringDouble) hsize

theorem number?_eq (hv : v.Fits) (hn : n < v.limit) :
    v.number? n = Lexer.number? (v.behind n) := by
  obtain ⟨b, hsource, hbehind⟩ := hv.exists_behind hn
  unfold number? Lexer.number?
  rw [number_found, found, Nat.add_sub_cancel_left, hsource, hbehind]
  rfl

theorem operator?_eq (hv : v.Fits) (hn : n ≤ v.limit) :
    v.operator? n = Lexer.operator? (v.behind n) := by
  unfold operator? Lexer.operator?
  simp only [begins_eq hv _ hn]

theorem identifier?_eq (hv : v.Fits) (o : Options) (hn : n < v.limit) :
    v.identifier? o n = Lexer.identifier? o (v.behind n) := by
  obtain ⟨b, hsource, hbehind⟩ := hv.exists_behind hn
  unfold identifier? Lexer.identifier?
  dsimp only
  rw [hsource, skip_eq, hbehind]
  rfl

/-- What stands at a place in front of the limit is what the scan of the bytes up to the limit
finds. -/
theorem scan_eq (hv : v.Fits) (o : Options) (hn : n < v.limit) :
    v.scan o n = Lexer.scan o (v.behind n) := by
  have hle := Nat.le_of_lt hn
  have hnamed : v.scanNamed? o n = Lexer.scanNamed? o (v.behind n) := by
    rw [scanNamed?, Lexer.scanNamed?, lineComment?_eq hv o hle, blockComment?_eq hv o hle,
      string?_eq hv hn, number?_eq hv hn, operator?_eq hv hle, identifier?_eq hv o hn]
  obtain ⟨b, hsource, hbehind⟩ := hv.exists_behind hn
  rw [scan, Lexer.scan, hnamed, hsource, hbehind]
  rfl

end TextUnits.Lexer.View
