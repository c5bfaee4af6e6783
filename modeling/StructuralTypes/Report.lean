import StructuralTypes.Text.Buffer

/-!
# Structured messages

A report is laid out over several lines from its parts. It is written into a buffer of a given
size, so a message is the first bytes of the full layout.
-/

namespace StructuralTypes

/-- A message with labelled lines. -/
inductive Report
  /-- A category and where it arose. -/
  | note (category context : Text)
  /-- A category, what was expected, what was found, and where. -/
  | mismatch (category expected actual context : Text)
  /-- A key was looked up in a shape: the operation, the keys there are, and the shape itself. -/
  | lookup (category key operation keys shape : Text)

namespace Report

/-- The parts of the layout, in order. -/
def parts : Report → List Text
  | note category context =>
    [.ofString "shape error: ", category, .ofString "\n  at: ", context]
  | mismatch category expected actual context =>
    [.ofString "shape error: ", category, .ofString "\n  expected: ", expected,
      .ofString "\n  actual:   ", actual, .ofString "\n  at:       ", context]
  | lookup category key operation keys shape =>
    [.ofString "shape error: ", category, .ofString " '", key,
      .ofString "'\n  in:         ", operation,
      .ofString "\n  known keys: ", keys, .ofString "\n  shape:      ", shape]

/-- The layout as far as it fits into a buffer. -/
def render (cells : Nat) (r : Report) : Buffer cells := .ofParts r.parts

end Report

end StructuralTypes
