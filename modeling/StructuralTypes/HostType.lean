import StructuralTypes.Descriptor.Construction

/-!
# Descriptions of host types

A type of the host is described by the structural type that its values have on the other side of a
bridge. References and qualifiers at the top of a type make no difference to its values. An aggregate
is described by its fields: a constant data member is read-only, an optional one is an optional member
of its value type, and a member function is a read-only function.
-/

namespace StructuralTypes

/-- How a member function is qualified. -/
structure Qualifiers where
  const : Bool
  noexcept : Bool
deriving DecidableEq

mutual

/-- A type of the host that has a description. -/
inductive HostType
  | bool
  /-- An arithmetic type other than `bool`. -/
  | arithmetic
  | string
  | stringView
  /-- A pointer to characters, constant or not. -/
  | charPointer
  | void
  | nullptr
  | monostate
  | nullopt
  | const (type : HostType)
  | volatile (type : HostType)
  | lvalueReference (type : HostType)
  | rvalueReference (type : HostType)
  | optional (value : HostType)
  | variant (first : HostType) (rest : List HostType)
  | vector (element : HostType)
  | array (element : HostType) (length : Nat)
  /-- A function object. -/
  | function (result : HostType) (arguments : List HostType)
  | functionPointer (noexcept : Bool) (result : HostType) (arguments : List HostType)
  /-- A described aggregate. -/
  | record (fields : List HostField)

/-- A field of a described aggregate. -/
inductive HostField
  | data (key : Text) (type : HostType)
  | method (key : Text) (qualifiers : Qualifiers) (result : HostType) (arguments : List HostType)

end

namespace HostField

/-- The key of a field. -/
def key : HostField → Text
  | data key _ => key
  | method key _ _ _ => key

end HostField

namespace HostType

/-- Some qualifier at the top of the type is `const`. -/
def isConst : HostType → Bool
  | const _ => true
  | volatile t => t.isConst
  | _ => false

/-- The type without the qualifiers at its top. -/
def unqualified : HostType → HostType
  | const t => t.unqualified
  | volatile t => t.unqualified
  | t => t

/-- The type is optional below its qualifiers. -/
def isOptional (t : HostType) : Bool :=
  match t.unqualified with
  | optional _ => true
  | _ => false

/-- What an optional type holds, and any other type itself, without qualifiers. -/
def valueType (t : HostType) : HostType :=
  match t.unqualified with
  | optional value => value
  | u => u

theorem sizeOf_unqualified_le (t : HostType) : sizeOf t.unqualified ≤ sizeOf t := by
  fun_induction unqualified t with
  | case1 t ih => simp only [const.sizeOf_spec]; omega
  | case2 t ih => simp only [volatile.sizeOf_spec]; omega
  | case3 t _ _ => exact Nat.le_refl _

theorem sizeOf_valueType_le (t : HostType) : sizeOf t.valueType ≤ sizeOf t := by
  have h := t.sizeOf_unqualified_le
  unfold valueType
  split
  · next value hv => rw [hv, optional.sizeOf_spec] at h; omega
  · exact h

/-- The modifiers of a data member of the type. -/
def modifiers (t : HostType) : Modifiers :=
  { Modifiers.none with readOnly := t.isConst, optional := t.isOptional }

mutual

/-- The description of a type. -/
def describe (cap : Nat) : HostType → Except Fault (Descriptor cap)
  | bool => Descriptor.ofKind cap .boolean
  | arithmetic => Descriptor.ofKind cap .number
  | string => Descriptor.ofKind cap .string
  | stringView => Descriptor.ofKind cap .string
  | charPointer => Descriptor.ofKind cap .string
  | void => Descriptor.ofKind cap .void
  | nullptr => Descriptor.ofKind cap .null
  | monostate => Descriptor.ofKind cap .null
  | nullopt => Descriptor.ofKind cap .undefined
  | const t => describe cap t
  | volatile t => describe cap t
  | lvalueReference t => describe cap t
  | rvalueReference t => describe cap t
  | optional value => do
    Descriptor.union [← describe cap value, ← Descriptor.ofKind cap .undefined]
  | variant first [] => describe cap first
  | variant first rest => do
    Descriptor.union ((← describe cap first) :: (← describeAll cap rest))
  | vector element => do Descriptor.array (← describe cap element)
  | array element _ => do Descriptor.array (← describe cap element)
  | function result arguments => do
    Descriptor.fn (← describe cap result) (← describeAll cap arguments)
  | functionPointer _ result arguments => do
    Descriptor.fn (← describe cap result) (← describeAll cap arguments)
  | record fields => do Descriptor.object cap (← describeFields cap fields)
termination_by t => sizeOf t

/-- The descriptions of some types. -/
def describeAll (cap : Nat) : List HostType → Except Fault (List (Descriptor cap))
  | [] => .ok []
  | t :: ts => do return (← describe cap t) :: (← describeAll cap ts)
termination_by ts => sizeOf ts

/-- The member of a field. -/
def describeField (cap : Nat) : HostField → Except Fault (Member cap)
  | .data key type => do Member.make key (← describe cap type.valueType) type.modifiers
  | .method key _ result arguments => do
    let type ← Descriptor.fn (← describe cap result) (← describeAll cap arguments)
    Member.make key type { Modifiers.none with readOnly := true }
termination_by field => sizeOf field
decreasing_by
  · have := type.sizeOf_valueType_le
    simp only [HostField.data.sizeOf_spec]
    omega
  all_goals
    simp only [HostField.method.sizeOf_spec]
    omega

/-- The members of some fields. -/
def describeFields (cap : Nat) : List HostField → Except Fault (List (Member cap))
  | [] => .ok []
  | f :: fs => do return (← describeField cap f) :: (← describeFields cap fs)
termination_by fields => sizeOf fields

end

end HostType

end StructuralTypes
