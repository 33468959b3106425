import TextUnits.Transcode.Basic

/-!
# Named conversions

For every pair of distinct encodings a family of conversions by the byte orders at the two
sides. The order of a wide target follows the order stated for a wide source; a source whose
order is detected writes in the order of the host.
-/

namespace TextUnits

/-- A conversion with fixed encodings and byte orders. -/
structure Conversion where
  /-- Encoding of the source. -/
  source : Encoding
  /-- Encoding of the result. -/
  target : Encoding
  /-- Order the source is stored in. -/
  sourceOrder : SourceOrder
  /-- Order the result is stored in. -/
  targetOrder : TargetOrder
  deriving DecidableEq, Repr

namespace Conversion

/-- Byte order wishes with the words that name them. -/
def orderWords : List (String × TargetOrder) :=
  [("Ne", .native), ("Le", .fixed .le), ("Be", .fixed .be)]

/-- The wish at the source that corresponds to one at the target. -/
def sourceWish : TargetOrder → SourceOrder
  | .native => .native
  | .fixed order => .fixed order

/-- Conversions of UTF-8 to a wider encoding, by name; no order word means the host's order. -/
def fromUtf8 (target : Encoding) (name : String) : List (String × Conversion) :=
  ("utf8To" ++ name, ⟨.utf8, target, .detect, .native⟩) ::
    orderWords.map fun (word, order) =>
      ("utf8To" ++ name ++ word, ⟨.utf8, target, .detect, order⟩)

/-- Conversions of a wider encoding to UTF-8, by name; no order word means detection. -/
def toUtf8 (source : Encoding) (name : String) : List (String × Conversion) :=
  (name ++ "ToUtf8", ⟨source, .utf8, .detect, .native⟩) ::
    orderWords.map fun (word, order) =>
      (name ++ word ++ "ToUtf8", ⟨source, .utf8, sourceWish order, .native⟩)

/-- Conversions between the two wider encodings, by name; no order word means detection. -/
def between (source target : Encoding) (sourceName targetName : String) :
    List (String × Conversion) :=
  (sourceName ++ "To" ++ targetName.capitalize, ⟨source, target, .detect, .native⟩) ::
    orderWords.map fun (word, order) =>
      (sourceName ++ word ++ "To" ++ targetName.capitalize ++ word,
        ⟨source, target, sourceWish order, order⟩)

/-- All named conversions. -/
def named : List (String × Conversion) :=
  fromUtf8 .utf16 "Utf16" ++ fromUtf8 .utf32 "Utf32" ++ toUtf8 .utf16 "utf16" ++
    toUtf8 .utf32 "utf32" ++ between .utf16 .utf32 "utf16" "utf32" ++
    between .utf32 .utf16 "utf32" "utf16"

/-- The conversion with a name. -/
def ofName? (name : String) : Option Conversion :=
  (named.find? fun entry => entry.1 = name).map (·.2)

/-- The request that applies a conversion to a source. -/
def request (c : Conversion) (units : Option (List c.source.Unit)) (strictness : Strictness)
    (length : Option Double) : Request c.source c.target :=
  ⟨units, c.sourceOrder, c.targetOrder, strictness, length⟩

end Conversion

end TextUnits
