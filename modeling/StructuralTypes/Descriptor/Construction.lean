import StructuralTypes.Descriptor

/-!
# Type constructors

Descriptors of the primitive types, of literals, functions, arrays, unions and objects.
-/

namespace StructuralTypes

/-- A member of an object under construction. -/
structure Member (cap : Nat) where
  key : Name
  type : Descriptor cap
  modifiers : Modifiers

namespace Member

variable {cap : Nat}

/-- A member whose key is neither empty nor too long. -/
def make (key : Text) (type : Descriptor cap) (modifiers : Modifiers) : Except Fault (Member cap) :=
  if key.isEmpty then .error .emptyKey
  else return ⟨← Name.ofText .keyTooLong key, type, modifiers⟩

/-- The node of a member. -/
def tree (m : Member cap) : Tree := .node ⟨Kind.member, m.key, m.modifiers⟩ [m.type.tree]

end Member

namespace Descriptor

variable {cap : Nat}

/-- A node without children. -/
def leaf (cap : Nat) (head : Head) : Except Fault (Descriptor cap) := ofTree cap (.node head [])

/-- A node of a kind without name and children. -/
def ofKind (cap : Nat) (kind : Kind) : Except Fault (Descriptor cap) := leaf cap (.ofKind kind)

/-- The literal type of the number that a text spells. -/
def numberLiteral (cap : Nat) (spelling : Text) : Except Fault (Descriptor cap) := do
  leaf cap ⟨Kind.numberLiteral, ← Numeral.canonical spelling, .none⟩

/-- The literal type of an integer. -/
def integerLiteral (cap : Nat) (v : Int) : Except Fault (Descriptor cap) := do
  leaf cap ⟨Kind.numberLiteral, ← Numeral.canonicalInt v, .none⟩

/-- The literal type of a text. -/
def stringLiteral (cap : Nat) (text : Text) : Except Fault (Descriptor cap) := do
  leaf cap ⟨Kind.stringLiteral, ← Name.ofText .nameTooLong text, .none⟩

/-- The literal type of a truth value. -/
def booleanLiteral (cap : Nat) (value : Bool) : Except Fault (Descriptor cap) := do
  let spelling := Text.ofString (if value then "true" else "false")
  leaf cap ⟨Kind.booleanLiteral, ← Name.ofText .nameTooLong spelling, .none⟩

/-- A function type. -/
def fn (result : Descriptor cap) (parameters : List (Descriptor cap)) :
    Except Fault (Descriptor cap) :=
  make (.ofKind .fn) (result :: parameters)

/-- A constructor type. -/
def ctor (made : Descriptor cap) (parameters : List (Descriptor cap)) :
    Except Fault (Descriptor cap) :=
  make (.ofKind .ctor) (made :: parameters)

/-- An array type. -/
def array (element : Descriptor cap) : Except Fault (Descriptor cap) :=
  make (.ofKind .array) [element]

/-- The normal form of a union. -/
def normalized (d : Descriptor cap) : Except Fault (Descriptor cap) := d.transform Tree.normalized

/-- A union type. All operands together have to fit before the union is normalized. -/
def union (operands : List (Descriptor cap)) : Except Fault (Descriptor cap) := do
  (← make (.ofKind .union) operands).normalized

/-- An object type of at most 16 members. A repeated key is reported before a lack of room. -/
def object (cap : Nat) (members : List (Member cap)) : Except Fault (Descriptor cap) :=
  match Name.firstRepeat? (members.map Member.key) with
  | some key => .error (.duplicateKey key.text)
  | none => ofNode cap (.ofKind .object) (members.map Member.tree)

/-- The type or null. -/
def nullable (d : Descriptor cap) : Except Fault (Descriptor cap) := do
  union [d, ← ofKind cap .null]

/-- The type, null or undefined. -/
def nullish (d : Descriptor cap) : Except Fault (Descriptor cap) := do
  union [d, ← ofKind cap .null, ← ofKind cap .undefined]

/-- The union of all primitive types. -/
def primitive (cap : Nat) : Except Fault (Descriptor cap) := do
  let kinds : List Kind := [.bigint, .boolean, .null, .number, .string, .symbol, .undefined]
  union (← kinds.mapM (ofKind cap))

/-- The union of the types of a single value that counts as false. -/
def falsy (cap : Nat) : Except Fault (Descriptor cap) := do
  union [← stringLiteral cap [], ← integerLiteral cap 0, ← booleanLiteral cap false,
    ← ofKind cap .null, ← ofKind cap .undefined]

/-- The element type of an array type. -/
def arrayItem (d : Descriptor cap) : Except Fault (Descriptor cap) :=
  if d.tree.isKind .array then ofTree cap d.tree.first else .error (.notArray d.tree.text)

/-- The alternatives of `d` that are not assignable to `other`. -/
def exclude (d other : Descriptor cap) : Except Fault (Descriptor cap) :=
  ofTree cap (d.tree.exclude other.tree)

/-- The type without its `undefined` alternatives. -/
def nonUndefined (d : Descriptor cap) : Except Fault (Descriptor cap) := do
  d.exclude (← ofKind cap .undefined)

end Descriptor

end StructuralTypes
