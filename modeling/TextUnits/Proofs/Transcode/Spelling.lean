import TextUnits.Proofs.Encoding.Grammar
import TextUnits.Proofs.Transcode.Reconversion

/-!
# UTF-8 as code points

A strict conversion of UTF-8 to UTF-32 accepts exactly what the grammar of sequences derives, behind
a byte order mark if there is one, and writes the code points that are denoted. When it stops before
the end it has read the longest beginning that the grammar derives, and its status tells a sequence
that is cut off from bytes that start none.
-/

namespace TextUnits

/-- A scalar value is the number in the unit of UTF-32 that holds it. -/
theorem Encoding.map_toNat_encodeAll {codes : List Nat}
    (h : ∀ code ∈ codes, Scalar.isScalar code = true) :
    (utf32.encodeAll codes).map UInt32.toNat = codes := by
  have hunits : utf32.encodeAll codes = codes.map UInt32.ofNat := List.map_eq_flatMap.symm
  rw [hunits, List.map_map]
  refine (List.map_congr_left fun code hcode => ?_).trans (List.map_id codes)
  have hlast := (Scalar.isScalar_iff.mp (h code hcode)).1
  rw [Function.comp_apply, id, UInt32.toNat_ofNat', Nat.mod_eq_of_lt (by omega)]

namespace Request

open Step Encoding

/-- Bytes of UTF-8 that are read where a mark is allowed are read behind it. -/
theorem opening_utf8 {target : Encoding} {r : Request .utf8 target} {bytes : List UInt8}
    (hu : r.selected = some bytes) (hf : r.strictness.forbidMark = false) :
    let skipped := if startsWithMark bytes then 3 else 0
    r.opening = .ok ⟨skipped, utf8.steps (bytes.drop skipped)⟩ := by
  intro skipped
  have hskipped : ((utf8.markOf? bytes).map (·.size)).getD 0 = skipped := by
    dsimp only [markOf?, skipped]
    split_ifs <;> rfl
  rw [opening_of_allowed hu hf, hskipped, map_reorder_utf8]

variable {r : Request .utf8 .utf32} {bytes : List UInt8}

/-- A strict conversion of UTF-8 to UTF-32 succeeds exactly when the bytes behind a mark are
sequences one behind the other, and writes the code points that these denote. In any case it reads
the longest beginning that is made of sequences, and its status tells what stands behind that: an
invalid argument is a lead that announces more bytes than there are, and everything else is an
invalid code point. -/
theorem convert_spelling (hu : r.selected = some bytes) (hs : r.strictness = ⟨false, true⟩) :
    let skipped := if startsWithMark bytes then 3 else 0
    let body := bytes.drop skipped
    ∃ front rest codes, body = front ++ rest ∧ LongestSpelling body front codes ∧
      (∀ all, Spells body all ↔ r.measure.status = .success ∧ codes = all) ∧
      StopsAt rest r.measure.status ∧
      r.measure.length = codes.length ∧ r.measure.processed = skipped + front.length ∧
      ∀ held : List UInt32, codes.length ≤ held.length →
        (r.convert (some held)).outcome = r.measure ∧
          (r.convert (some held)).written.map
            (fun u => (utf32.reorder r.targetOrder.resolve u).toNat) = codes := by
  intro skipped body
  obtain ⟨front, rest, hsplit, hlongest, hsize, hstops⟩ := longestSpelling_steps body
  have ho : r.opening = .ok ⟨skipped, utf8.steps body⟩ := opening_utf8 hu (by rw [hs])
  have hdecoded : r.decoded = accepted true (utf8.steps body) := by rw [decoded, ho, hs]
  have hstart : r.start = skipped := by rw [start, ho]
  have hmeasure := measure_of_opened ho
  rw [hs, hstart, hdecoded, hsize] at hmeasure
  have hlength : r.measure.length = (codesOf (accepted true (utf8.steps body))).length := by
    rw [r.length_measure, hdecoded, ← length_encodeAll, ← List.length_map UInt32.toNat, ← hdecoded,
      map_toNat_encodeAll fun _ => isScalar_of_mem_decoded]
  have hstatus : r.measure.status = ending true (utf8.steps body) := by rw [hmeasure]
  rw [← hstatus] at hstops
  refine ⟨front, rest, _, hsplit, hlongest, fun all => ?_, hstops, hlength, by rw [hmeasure],
    fun held hroom => ?_⟩
  · rw [hlongest.spells_iff, hstops.success, hsplit, List.self_eq_append_right]
  · have hfits : r.measure.length ≤ held.length := by rwa [hlength]
    obtain ⟨houtcome, hwritten⟩ := convert_of_room hfits
    have hback : (fun u => (utf32.reorder r.targetOrder.resolve u).toNat) ∘
        utf32.reorder r.targetOrder.resolve = UInt32.toNat :=
      funext fun u => congrArg UInt32.toNat (utf32.reorder_reorder r.targetOrder.resolve u)
    rw [hwritten, List.map_map, hback, map_toNat_encodeAll fun _ => isScalar_of_mem_decoded,
      hdecoded]
    exact ⟨houtcome, rfl⟩

/-- A mark, a letter, the long form of zero and the euro sign, written with the high byte first. -/
theorem convert_spelling_euro :
    let r : Request .utf8 .utf32 :=
      ⟨some [0xEF, 0xBB, 0xBF, 0x61, 0xE0, 0x80, 0x80, 0xE2, 0x82, 0xAC], .detect, .fixed .be,
        ⟨false, true⟩, none⟩
    let done := r.convert (some [7, 7, 7])
    done.outcome = ⟨.success, 3, 10⟩ ∧
      done.written.map (fun u => (utf32.reorder .be u).toNat) = [0x61, 0, 0x20AC] := by
  intro r done
  have hzero : Denotes [0xE0, 0x80, 0x80] 0 :=
    .three (by decide) (by decide) (by decide) (by decide) rfl rfl
  have heuro : Denotes [0xE2, 0x82, 0xAC] 0x20AC :=
    .three (by decide) (by decide) (by decide) (by decide) rfl rfl
  have hbody : Spells [0x61, 0xE0, 0x80, 0x80, 0xE2, 0x82, 0xAC] [0x61, 0, 0x20AC] :=
    .cons (.one (by decide)) (.cons hzero (.cons heuro .nil))
  obtain ⟨front, rest, codes, -, hlongest, hall, -, hlength, hprocessed, hroom⟩ :=
    convert_spelling (r := r) rfl rfl
  obtain ⟨hstatus, rfl⟩ := (hall _).mp hbody
  obtain ⟨rfl, -⟩ := hlongest.spells_iff.mp hbody
  obtain ⟨houtcome, hwritten⟩ := hroom [7, 7, 7] (by decide)
  have heta : r.measure = ⟨r.measure.status, r.measure.length, r.measure.processed⟩ := rfl
  rw [hstatus, hlength, hprocessed] at heta
  exact ⟨houtcome.trans heta, hwritten⟩

end Request

end TextUnits
