import TextUnits.Path
import TextUnits.Proofs.Ascii.Comparison

/-!
# Extensions of paths up to case

A path is said to have an extension by a comparison that ends at a zero unit, and paths and
extensions may hold such units. What counts of both is what stands in front of the first zero, so
one that holds none is told exactly, and every other one may be taken for what is in front of the
zero.
-/

namespace TextUnits.Path

open Ascii

/-- A path has an extension exactly if its own is the same up to case in front of the first zeros.
Its own is always accepted in either case, and without zeros nothing else is. -/
theorem hasExtension_iff (path ext : Text) :
    (hasExtension path ext = true ↔
        SameFolded (beforeZero (extension path)) (beforeZero ext)) ∧
      (SameFolded (extension path) ext → hasExtension path ext = true) ∧
      (0 ∉ extension path → 0 ∉ ext → hasExtension path ext = true →
        SameFolded (extension path) ext) := by
  have hiff : hasExtension path ext = true ↔
      SameFolded (beforeZero (extension path)) (beforeZero ext) := by
    rw [hasExtension, beq_iff_eq, compareFolded_eq_zero_iff]
  refine ⟨hiff, fun hsame => hiff.mpr hsame.beforeZero, fun hpath hext h => ?_⟩
  have hsame := hiff.mp h
  rwa [beforeZero_eq_self hpath, beforeZero_eq_self hext] at hsame

/-- `JS` is the extension of `src/a.b.js` up to case, and `j` is not. -/
theorem hasExtension_iff_letters :
    (SameFolded (extension (Text.ofString "src/a.b.js")) (Text.ofString "JS") ∧
        hasExtension (Text.ofString "src/a.b.js") (Text.ofString "JS") = true) ∧
      (0 ∉ extension (Text.ofString "src/a.b.js") ∧ 0 ∉ Text.ofString "JS" ∧
        SameFolded (extension (Text.ofString "src/a.b.js")) (Text.ofString "JS")) := by
  have hsame : SameFolded (extension (Text.ofString "src/a.b.js")) (Text.ofString "JS") := by
    decide
  obtain ⟨-, haccepted, honly⟩ :=
    hasExtension_iff (Text.ofString "src/a.b.js") (Text.ofString "JS")
  have hhas := haccepted hsame
  exact ⟨⟨hsame, hhas⟩, by decide, by decide, honly (by decide) (by decide) hhas⟩

/-- A path whose extension goes on behind a zero has what is in front of the zero as an extension,
although that is only a beginning of its own. -/
theorem hasExtension_of_zero :
    ¬ ∀ path ext : Text, hasExtension path ext = true ↔ SameFolded (extension path) ext := by
  intro h
  have hhas :
      hasExtension (Text.ofString "a.js" ++ 0x00 :: Text.ofString "x") (Text.ofString "js") =
      true := by decide
  exact absurd ((h _ _).mp hhas) (by decide)

end TextUnits.Path
