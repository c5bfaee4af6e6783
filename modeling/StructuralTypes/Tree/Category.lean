import StructuralTypes.Tree.Alternatives
import StructuralTypes.Tree.Assignability
import StructuralTypes.Tree.Rendering

/-!
# Categories of types

Types are sorted by their kind, by what they can be assigned to, and, for numeric literals, by the
spelling of their number.
-/

namespace StructuralTypes.Tree

/-- The type is a literal. -/
def isLiteral (t : Tree) : Bool :=
  match t.tag with
  | .known kind => kind.isLiteral
  | .other _ _ => false

/-- The number of alternatives of a type: a type that is no union is its own alternative. -/
def alternativeCount (t : Tree) : Nat :=
  if t.isKind .never then 0 else if t.isKind .union then t.children.length else 1

/-- The number of parameters of a function type. A type without a result has one less than none. -/
def parameterCount (t : Tree) : Int := t.children.length - 1

/-- The alternatives of `t` that are not assignable to `u`. -/
def exclude (t u : Tree) : Tree :=
  ofAlternatives <|
    if t.isKind .union then t.children.filter fun a => !a.assignable u
    else if t.isKind .never || t.assignable u then []
    else [t]

/-- The type without its `undefined` alternatives. -/
def nonUndefined (t : Tree) : Tree := t.exclude (ofKind .undefined)

/-- Every value of the type can be called. A type without values is not callable. -/
def isCallable (t : Tree) : Bool := !t.isKind .never && t.assignable (ofKind .function)

/-- The spelling of a numeric literal type. -/
def numeral (t : Tree) : Except Fault Text :=
  if t.isKind .numberLiteral then .ok t.name.text else .error (.notNumeral t.text)

/-- The number has no fraction. -/
def isInteger (t : Tree) : Except Fault Bool := return !(← t.numeral).hasFraction

/-- The number is below zero. -/
def isNegative (t : Tree) : Except Fault Bool := return (← t.numeral).isNegative

/-- The number is not below zero. -/
def isPositive (t : Tree) : Except Fault Bool := return !(← t.numeral).isNegative

/-- The number is an integer and not below zero. -/
def isPositiveInteger (t : Tree) : Except Fault Bool := do
  if ← t.isPositive then t.isInteger else return false

/-- The number is an integer below zero. -/
def isNegativeInteger (t : Tree) : Except Fault Bool := do
  if ← t.isNegative then t.isInteger else return false

end StructuralTypes.Tree
