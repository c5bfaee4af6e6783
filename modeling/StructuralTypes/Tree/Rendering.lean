import StructuralTypes.Tree

/-!
# Rendered types

A type is rendered by the grammar of `parts`: the text of a node is put together from the texts of
its children. Every node, and every parameter list, is written into a buffer of its own, so a
rendered type has at most 255 bytes.
-/

namespace StructuralTypes.Tree

/-- A parameter list: every parameter is named by its position. -/
def parameterParts (types : List Text) : List Text :=
  [.ofString "("] ++
    ((types.zipIdx.map fun (type, i) =>
      [.ofString "arg", .ofNat i, .ofString ": ", type]).intersperse [.ofString ", "]).flatten ++
    [.ofString ")"]

/-- An array writes its element in parentheses when the element is one of these. -/
def isCompound (t : Tree) : Bool := t.isKind .union || t.isKind .fn || t.isKind .ctor

/-- The text of a node in parts, from the texts of its parameter list and of its children. -/
def parts (head : Head) (children : List Tree) (parameters : Text) (shown : List Text) :
    List Text :=
  match head.tag with
  | .known .function => [.ofString "Function"]
  | .known .numberLiteral => [head.name.text]
  | .known .booleanLiteral => [head.name.text]
  | .known .stringLiteral => [.ofString "\"", head.name.text, .ofString "\""]
  | .known .fn => [parameters, .ofString " => ", shown.headD []]
  | .known .ctor => [.ofString "new ", parameters, .ofString " => ", shown.headD []]
  | .known .array =>
    if children.head?.any isCompound then
      [.ofString "(", shown.headD [], .ofString ")", .ofString "[]"]
    else [shown.headD [], .ofString "[]"]
  | .known .union => shown.intersperse (.ofString " | ")
  | .known .object =>
    if shown.isEmpty then [.ofString "\x7b\x7d"]
    else [.ofString "\x7b "] ++ shown.intersperse (.ofString "; ") ++ [.ofString " \x7d"]
  | .known .member =>
    [if head.modifiers.readOnly then .ofString "readonly " else [], head.name.text,
      if head.modifiers.optional then .ofString "?" else [], .ofString ": ", shown.headD []]
  | .known kind => [kind.text]
  | .other text _ =>
    [text, .ofString "("] ++ shown.intersperse (.ofString ", ") ++ [.ofString ")"]

/-- A node shows its first children, up to this number: literals and primitives show none, arrays
and members one, the others all. -/
def shownChildren (head : Head) (children : List Tree) : Nat :=
  match head.tag with
  | .known .fn | .known .ctor | .known .union | .known .object | .other _ _ => children.length
  | .known .array | .known .member => 1
  | .known _ => 0

mutual

/-- The rendered type. -/
def render : Tree → Buffer 256
  | node head children =>
    let shown := renderFirst (shownChildren head children) children
    let parameters : Buffer 256 := .ofParts (parameterParts (shown.drop 1))
    .ofParts (parts head children parameters.content shown)

/-- The texts of the first trees, up to a number. -/
def renderFirst : Nat → List Tree → List Text
  | _, [] => []
  | 0, _ :: _ => []
  | n + 1, t :: ts => t.render.content :: renderFirst n ts

end

/-- The text of the rendered type. -/
def text (t : Tree) : Text := t.render.content

theorem renderFirst_eq (n : Nat) (ts : List Tree) : renderFirst n ts = (ts.take n).map text := by
  induction ts generalizing n with
  | nil => cases n <;> rfl
  | cons t ts ih =>
    cases n with
    | zero => rfl
    | succ n => rw [renderFirst, ih, List.take_succ_cons, List.map_cons, text]

/-- A node reads the same when the texts of all its children are at hand. -/
theorem render_node (head : Head) (children : List Tree) :
    (node head children).render =
      .ofParts (parts head children
        (Buffer.ofParts (parameterParts ((children.map text).drop 1)) : Buffer 256).content
        (children.map text)) := by
  rw [render, renderFirst_eq]
  congr 1
  unfold shownChildren parts
  split <;> simp_all [List.take_one]

end StructuralTypes.Tree
