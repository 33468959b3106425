import TextUnits.Proofs.Transcode.RoundTrip

/-!
# Conversions of arrays in memory

A conversion of an array is the conversion of the bytes that a slice of it is read as. So an array
that holds the standard encoding of characters gives their standard encoding in another stream when
its slices are copies, when its units are bytes, or when its memory starts with those same bytes.
An array of wider units behind something else in a memory that its slices share gives the encoding
of what the memory starts with instead.
-/

namespace TextUnits

namespace Window

variable {w : Window}

/-- An array is read as it is unless wider units of it are read at the start of a memory that holds
other bytes there. -/
theorem readAs_eq_bytes {e : Encoding}
    (h : w.shares = true → e ≠ .utf8 → w.memory.take w.length = w.bytes) :
    w.readAs e = w.bytes := by
  cases hshares : w.shares with
  | false => exact readAs_of_not_shares e hshares
  | true =>
    rw [readAs_of_shares e hshares]
    split_ifs with he
    · rfl
    · exact h hshares he

end Window

namespace Wire

variable {source target : Wire} {options : ReadOptions} {w : Window} {chars : List Char}

/-- Characters have standard encodings of their own. -/
theorem standard_injective (w : Wire) : Function.Injective w.standard := by
  intro chars other h
  have hcodes : ∀ chars : List Char, Step.codesOf (w.base.steps
      ((w.base.unitsOf (w.standard chars)).map (w.base.reorder w.order))) =
      chars.map Char.toNat := by
    intro chars
    rw [← bytesOf_encodeAll, Encoding.unitsOf_bytesOf, Encoding.map_reorder_reorder,
      Encoding.steps_encodeAll w.base fun _ => Encoding.isScalar_of_mem_map]
    exact (Step.accepted_scalars false w.base.width _).2.2
  have hsame := hcodes chars
  rw [h, hcodes other] at hsame
  exact (List.map_inj_right fun _ _ => Char.toNat_inj.mp).mp hsame.symm

/-- A conversion of an array is that of the bytes it is read as. -/
theorem transcodeWindow_eq (w : Window) (source target : Wire) (options : ReadOptions) :
    transcodeWindow w source target options =
      transcode (w.readAs source.base) source target options := by
  rw [transcode, transcodeWindow, transcodeWindow, Window.length_ofBytes, Window.length_readAs,
    Window.readAs_ofBytes]

/-- Wider units of an array that shares its memory are converted from the start of the memory. -/
theorem transcodeWindow_of_shares (hshares : w.shares = true) (hwide : source.base ≠ .utf8) :
    transcodeWindow w source target options =
      transcode (w.memory.take w.length) source target options := by
  rw [transcodeWindow_eq, Window.readAs_of_shares _ hshares, if_neg hwide]

/-- An array that is read as the standard encoding of characters is converted into theirs. -/
theorem transcodeWindow_of_unmarked (strictness : Strictness)
    (hread : w.readAs source.base = source.standard chars) (hmark : chars.head? ≠ some '\uFEFF')
    (hswapped : source.base = .utf16 → chars.head? ≠ some '\uFFFE') :
    transcodeWindow w source target ⟨strictness, none⟩ = .ok (target.standard chars) := by
  rw [transcodeWindow_eq, hread]
  exact transcode_of_unmarked source target strictness hmark hswapped

/-- Characters that do not start like a mark pass from an array into another stream unchanged,
whatever is refused, when the array is read as it is: their standard encoding becomes their
standard encoding, and going there and back gives the bytes again when they do not start like a
mark at the far end either. An array that shares its memory is converted from the start of the
memory when its units are wider than a byte, so the characters that the memory starts with come
out, and these are the characters of the array only if they are the same. -/
theorem transcodeWindow_standard (w : Window) (source target : Wire) (there back : Strictness)
    (chars : List Char) (hshown : w.bytes = source.standard chars)
    (hmark : chars.head? ≠ some '\uFEFF')
    (hswapped : source.base = .utf16 → chars.head? ≠ some '\uFFFE') :
    ((w.shares = true → source.base ≠ .utf8 → w.memory.take w.length = w.bytes) →
      transcodeWindow w source target ⟨there, none⟩ = .ok (target.standard chars) ∧
      ((target.base = .utf16 → chars.head? ≠ some '\uFFFE') →
        (transcodeWindow w source target ⟨there, none⟩).bind
            (fun bytes => transcode bytes target source ⟨back, none⟩) =
          .ok (source.standard chars))) ∧
    (w.shares = true → source.base ≠ .utf8 →
      transcodeWindow w source target ⟨there, none⟩ =
        transcode (w.memory.take w.length) source target ⟨there, none⟩ ∧
      ∀ found : List Char, w.memory.take w.length = source.standard found →
        found.head? ≠ some '\uFEFF' → (source.base = .utf16 → found.head? ≠ some '\uFFFE') →
        transcodeWindow w source target ⟨there, none⟩ = .ok (target.standard found) ∧
        (transcodeWindow w source target ⟨there, none⟩ = .ok (target.standard chars) ↔
          found = chars)) := by
  refine ⟨fun hread => ?_, fun hshares hwide => ?_⟩
  · have hthere : transcodeWindow w source target ⟨there, none⟩ = .ok (target.standard chars) :=
      transcodeWindow_of_unmarked there ((Window.readAs_eq_bytes hread).trans hshown) hmark hswapped
    refine ⟨hthere, fun hfar => ?_⟩
    rw [hthere, Except.bind]
    exact transcode_of_unmarked target source back hmark hfar
  · refine ⟨transcodeWindow_of_shares hshares hwide, fun found hfound hfirst hother => ?_⟩
    have hfront : w.readAs source.base = w.memory.take w.length :=
      (Window.readAs_of_shares _ hshares).trans (if_neg hwide)
    have hgiven : transcodeWindow w source target ⟨there, none⟩ = .ok (target.standard found) :=
      transcodeWindow_of_unmarked there (hfront.trans hfound) hfirst hother
    refine ⟨hgiven, ?_⟩
    rw [hgiven]
    exact ⟨fun h => target.standard_injective (Except.ok.inj h), fun h => by rw [h]⟩

/-- One character of each width in memory of its own, from UTF-8 to UTF-16 and back, and a pair of
units behind other bytes. -/
theorem transcodeWindow_standard_widths :
    (['h', 'é', '€', '😀'].head? ≠ some '\uFEFF' ∧ ['h', 'é', '€', '😀'].head? ≠ some '\uFFFE') ∧
      transcodeWindow
          (.ofBytes [0x68, 0xC3, 0xA9, 0xE2, 0x82, 0xAC, 0xF0, 0x9F, 0x98, 0x80]) .utf8 .utf16be
          ⟨.lenient, none⟩ =
        .ok [0x00, 0x68, 0x00, 0xE9, 0x20, 0xAC, 0xD8, 0x3D, 0xDE, 0x00] ∧
      (transcodeWindow
          (.ofBytes [0x68, 0xC3, 0xA9, 0xE2, 0x82, 0xAC, 0xF0, 0x9F, 0x98, 0x80]) .utf8 .utf16be
          ⟨.lenient, none⟩).bind
          (fun bytes => transcode bytes .utf16be .utf8 ⟨⟨true, true⟩, none⟩) =
        .ok [0x68, 0xC3, 0xA9, 0xE2, 0x82, 0xAC, 0xF0, 0x9F, 0x98, 0x80] ∧
      transcodeWindow (.behind [0x61, 0x00, 0x62, 0x00] [0x3D, 0xD8, 0x00, 0xDE]) .utf16le .utf8
          ⟨.lenient, none⟩ = .ok [0x61, 0x62] := by
  have hutf8 : utf8.standard ['h', 'é', '€', '😀'] =
      [0x68, 0xC3, 0xA9, 0xE2, 0x82, 0xAC, 0xF0, 0x9F, 0x98, 0x80] := by decide
  have hutf16 : utf16be.standard ['h', 'é', '€', '😀'] =
      [0x00, 0x68, 0x00, 0xE9, 0x20, 0xAC, 0xD8, 0x3D, 0xDE, 0x00] := by decide
  have hown := (transcodeWindow_standard (.ofBytes (utf8.standard ['h', 'é', '€', '😀'])) .utf8
    .utf16be .lenient ⟨true, true⟩ ['h', 'é', '€', '😀'] (Window.bytes_ofBytes _) (by decide)
    (by decide)).1 fun h => Bool.noConfusion h
  have hbehind := ((transcodeWindow_standard
    (.behind [0x61, 0x00, 0x62, 0x00] [0x3D, 0xD8, 0x00, 0xDE]) .utf16le .utf8 .lenient .lenient
    ['😀'] (Window.bytes_behind _ _) (by decide) fun _ => by decide).2 rfl (by decide)).2
    ['a', 'b'] (by decide) (by decide) fun _ => by decide
  rw [hutf8, hutf16] at hown
  exact ⟨⟨by decide, by decide⟩, hown.1, hown.2 fun _ => by decide, hbehind.1⟩

/-- A short file behind a path in the memory that the host shares among files: the character of the
file is a pair of units, and the two units at the start of the path are converted instead. -/
theorem transcodeWindow_behind :
    let w := Window.behind [0x2F, 0, 0, 0, 0, 0, 0, 0] [0x3D, 0xD8, 0x00, 0xDE]
    w.bytes = utf16le.standard ['😀'] ∧
      (['😀'].head? ≠ some '\uFEFF' ∧ ['😀'].head? ≠ some '\uFFFE') ∧
      transcodeWindow w .utf16le .utf32le ⟨.lenient, none⟩ = .ok [0x2F, 0, 0, 0, 0, 0, 0, 0] ∧
      transcodeWindow w .utf16le .utf32le ⟨.lenient, none⟩ ≠ .ok (utf32le.standard ['😀']) := by
  have hfound : transcodeWindow
      (Window.behind [0x2F, 0, 0, 0, 0, 0, 0, 0] [0x3D, 0xD8, 0x00, 0xDE]) .utf16le .utf32le
      ⟨.lenient, none⟩ = .ok (utf32le.standard ['/', '\x00']) :=
    transcodeWindow_of_unmarked .lenient (by decide) (by decide) fun _ => by decide
  have hread : utf32le.standard ['/', '\x00'] = [0x2F, 0, 0, 0, 0, 0, 0, 0] := by decide
  rw [hread] at hfound
  refine ⟨Window.bytes_behind _ _, ⟨by decide, by decide⟩, hfound, ?_⟩
  rw [hfound]
  exact fun h => absurd (Except.ok.inj h) (by decide)

end Wire

end TextUnits
