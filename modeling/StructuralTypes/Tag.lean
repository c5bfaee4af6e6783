import StructuralTypes.Text

/-!
# Node tags

The tag of a node says what kind of type it describes. A few texts name the kinds that the type
system knows; any other text of at most 15 bytes is a tag without a meaning of its own.
-/

namespace StructuralTypes

/-- The kinds of nodes that the type system knows. -/
inductive Kind
  | number
  | string
  | boolean
  | bigint
  | symbol
  | void
  | null
  | undefined
  | unknown
  | never
  /-- The type of everything that can be called or constructed. -/
  | function
  | numberLiteral
  | stringLiteral
  | booleanLiteral
  /-- A function type: the result, then the parameters. -/
  | fn
  /-- A constructor type: the instance, then the parameters. -/
  | ctor
  | array
  | union
  | object
  /-- A member of an object: its name is the key, its child the declared type. -/
  | member
deriving DecidableEq

namespace Kind

/-- The tag text of a kind. -/
def text : Kind → Text
  | number => .ofString "number"
  | string => .ofString "string"
  | boolean => .ofString "boolean"
  | bigint => .ofString "bigint"
  | symbol => .ofString "symbol"
  | void => .ofString "void"
  | null => .ofString "null"
  | undefined => .ofString "undefined"
  | unknown => .ofString "unknown"
  | never => .ofString "never"
  | function => .ofString "function"
  | numberLiteral => .ofString "numlit"
  | stringLiteral => .ofString "strlit"
  | booleanLiteral => .ofString "boollit"
  | fn => .ofString "fn"
  | ctor => .ofString "ctor"
  | array => .ofString "array"
  | union => .ofString "union"
  | object => .ofString "object"
  | member => .ofString "member"

/-- Every kind once. -/
def all : List Kind :=
  [number, string, boolean, bigint, symbol, void, null, undefined, unknown, never, function,
    numberLiteral, stringLiteral, booleanLiteral, fn, ctor, array, union, object, member]

/-- The kind that a text names. -/
def ofText? (t : Text) : Option Kind := all.find? (·.text == t)

@[simp] theorem mem_all (k : Kind) : k ∈ all := by
  cases k <;> decide

@[simp] theorem ofText?_text (k : Kind) : ofText? k.text = some k := by
  cases k <;> decide

theorem text_of_ofText? {t : Text} {k : Kind} (h : ofText? t = some k) : k.text = t := by
  simpa using List.find?_some h

/-- The primitive that the literals of a kind belong to. -/
def widened : Kind → Option Kind
  | numberLiteral => some number
  | stringLiteral => some string
  | booleanLiteral => some boolean
  | _ => none

/-- The kinds whose children form a set. -/
def unordered : Kind → Bool
  | object | union => true
  | _ => false

/-- The kinds of literal types. -/
def isLiteral : Kind → Bool
  | numberLiteral | stringLiteral | booleanLiteral => true
  | _ => false

/-- The kinds whose values cannot stand where the shape without members is expected. -/
def isNullish : Kind → Bool
  | null | undefined | void => true
  | _ => false

end Kind

/-- The tag of a node. -/
inductive Tag
  | known (kind : Kind)
  | other (text : Text) (unnamed : Kind.ofText? text = none)
deriving DecidableEq

namespace Tag

instance : Coe Kind Tag := ⟨known⟩
instance : Inhabited Tag := ⟨known .never⟩

/-- The text of a tag. -/
def text : Tag → Text
  | known kind => kind.text
  | other text _ => text

/-- The tag of a text, of which the first 15 bytes count. -/
def ofText (t : Text) : Tag :=
  match h : Kind.ofText? (t.clip 16) with
  | some kind => known kind
  | none => other (t.clip 16) h

/-- The tag that no byte spells. -/
def blank : Tag := other [] (by decide)

/-- Different tags have different texts. -/
theorem text_injective {a b : Tag} (h : a.text = b.text) : a = b := by
  rcases a with k | ⟨t, ht⟩ <;> rcases b with l | ⟨u, hu⟩
  · have := congrArg Kind.ofText? h
    simpa [text] using this
  · simp only [text] at h
    subst h
    simp at hu
  · simp only [text] at h
    subst h
    simp at ht
  · simp only [text] at h
    subst h
    rfl

theorem text_ofText (t : Text) : (ofText t).text = t.clip 16 := by
  unfold ofText
  split
  · next h => exact Kind.text_of_ofText? h
  · rfl

/-- The tag that a source of this tag widens to. Only literals widen to a primitive; every other
tag widens to the blank tag. -/
def widened : Tag → Tag
  | known kind => (kind.widened.map known).getD blank
  | other _ _ => blank

/-- The children of nodes of this tag form a set. -/
def unordered : Tag → Bool
  | known kind => kind.unordered
  | other _ _ => false

end Tag

end StructuralTypes
