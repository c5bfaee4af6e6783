import StructuralTypes.KeySet
import StructuralTypes.Tree.Assignability
import StructuralTypes.Tree.Rendering

/-!
# Object shapes

The children of an object are its members: the name of a member is its key, its first child the
declared type. Looking a key up fails on a type that is no object and on a key that the object does
not have. Transformations keep the order of the members.
-/

namespace StructuralTypes.Tree

/-- The type is an object. -/
def requireObject (t : Tree) : Except Fault Unit :=
  if t.isKind .object then .ok () else .error (.notObject t.text)

/-- The names of the children of the root, in order. -/
def names (t : Tree) : List Name := t.children.map name

/-- The number of members. -/
def memberCount (t : Tree) : Except Fault Nat := do
  t.requireObject
  return t.children.length

/-- The object has a member of this key. -/
def hasKey (t : Tree) (key : Text) : Except Fault Bool := do
  t.requireObject
  return (t.find? key).isSome

/-- The keys of the members, in order. -/
def keys (t : Tree) : Except Fault KeySet := do
  t.requireObject
  KeySet.ofList (t.names.map Name.text)

/-- The distinct names of the children of the root, between braces. -/
def bracedNames (t : Tree) : Text := (Name.braced t.names.eraseDups).content

/-- The report of a failed look-up in the shape. -/
def lookupReport (t : Tree) (category key operation : Text) : Report :=
  .lookup category key operation t.bracedNames t.text

/-- The fault of an operation that asked for a missing key. -/
def unknownKey (t : Tree) (operation : Operation) (key : Text) : Fault :=
  .unknownKey operation key t.bracedNames t.text

/-- The member that an operation asks for. -/
def member (t : Tree) (operation : Operation) (key : Text) : Except Fault Tree := do
  t.requireObject
  match t.find? key with
  | some found => return found
  | none => .error (t.unknownKey operation key)

/-- An operation asks for all keys of a set, in order. Nothing is asked of the type if there are
none. -/
def requireMembers (t : Tree) (operation : Operation) (keys : KeySet) : Except Fault Unit :=
  keys.keys.forM fun k => discard (t.member operation k.text)

/-- The modifiers of a member. -/
def memberModifiers (t : Tree) (key : Text) : Except Fault Modifiers :=
  Tree.modifiers <$> t.member .memberFlags key

/-- The type of a member as it was declared. -/
def declaredType (t : Tree) (key : Text) : Except Fault Tree :=
  first <$> t.member .declaredType key

/-- The object of some members. -/
def ofMembers (members : List Tree) : Tree := node (.ofKind .object) members

/-- The object that has one member of `t` alone. -/
def slice (t : Tree) (key : Text) : Except Fault Tree := do
  return ofMembers [← t.member .slice key]

/-- The object of the members whose keys are in a set. -/
def pick (t : Tree) (keys : KeySet) : Except Fault Tree := do
  t.requireMembers .pick keys
  return ofMembers (t.children.filter fun m => keys.contains m.name.text)

/-- The object of the members whose keys are not in a set. -/
def drop (t : Tree) (keys : KeySet) : Except Fault Tree := do
  t.requireMembers .drop keys
  return ofMembers (t.children.filter fun m => !keys.contains m.name.text)

/-- Change the modifiers of the children of the root. -/
def mapModifiers (t : Tree) (f : Tree → Modifiers) : Tree :=
  node t.head (t.children.map fun m => m.withModifiers (f m))

/-- The members whose keys are in a set become optional. -/
def withOptional (t : Tree) (keys : KeySet) : Except Fault Tree := do
  t.requireMembers .withOptional keys
  return t.mapModifiers fun m =>
    if keys.contains m.name.text then { m.modifiers with optional := true } else m.modifiers

/-- No member is read-only any more. -/
def mutableProjection (t : Tree) : Except Fault Tree := do
  t.requireObject
  return t.mapModifiers fun m => { m.modifiers with readOnly := false }

end StructuralTypes.Tree
