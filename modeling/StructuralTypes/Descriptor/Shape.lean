import StructuralTypes.Descriptor.Construction

/-!
# Shapes in storage

The operations on object shapes, laid out at a capacity, and the classification of members. A
member is writable when its slice equals the slice of the mutable projection, and optional when the
object without members is assignable to its slice.
-/

namespace StructuralTypes.Descriptor

variable {cap other : Nat}

/-- The declared type of a member. -/
def declaredType (d : Descriptor cap) (key : Text) : Except Fault (Descriptor cap) :=
  d.transform (·.declaredType key)

/-- The type of reading a member: an optional one may be undefined. -/
def propertyType (d : Descriptor cap) (key : Text) : Except Fault (Descriptor cap) := do
  let declared ← d.declaredType key
  if (← d.tree.memberModifiers key).optional then union [declared, ← ofKind cap .undefined]
  else return declared

/-- The object that has one member alone. -/
def slice (d : Descriptor cap) (key : Text) : Except Fault (Descriptor cap) :=
  d.transform (·.slice key)

/-- The object of the members whose keys are in a set. -/
def pick (d : Descriptor cap) (keys : KeySet) : Except Fault (Descriptor cap) :=
  d.transform (·.pick keys)

/-- The object of the members whose keys are not in a set. -/
def drop (d : Descriptor cap) (keys : KeySet) : Except Fault (Descriptor cap) :=
  d.transform (·.drop keys)

/-- The members whose keys are in a set become optional. -/
def withOptional (d : Descriptor cap) (keys : KeySet) : Except Fault (Descriptor cap) :=
  d.transform (·.withOptional keys)

/-- No member is read-only any more. -/
def mutableProjection (d : Descriptor cap) : Except Fault (Descriptor cap) :=
  d.transform Tree.mutableProjection

/-- The slice of the member does not change when it is made mutable. The projection is looked up
first, so a missing key is reported about the projected shape. -/
def isWritable (d : Descriptor cap) (key : Text) : Except Fault Bool := do
  let projected ← (← d.mutableProjection).slice key
  let sliced ← d.slice key
  return sliced.tree.equiv projected.tree

/-- The member is not writable. -/
def isReadonly (d : Descriptor cap) (key : Text) : Except Fault Bool := do
  return !(← d.isWritable key)

/-- An object without members can stand in for the member's slice. -/
def isOptional (d : Descriptor cap) (key : Text) : Except Fault Bool := do
  return (Tree.ofMembers []).assignable (← d.slice key).tree

/-- The member is not optional. -/
def isRequired (d : Descriptor cap) (key : Text) : Except Fault Bool := do
  return !(← d.isOptional key)

/-- Reading the member gives something callable, or undefined if the member is optional. -/
def isFunctionValued (d : Descriptor cap) (key : Text) : Except Fault Bool := do
  return (← (← d.propertyType key).nonUndefined).tree.isCallable

/-- What reading the member gives is assignable to a target. -/
def matchesCategory (d : Descriptor cap) (key : Text) (target : Descriptor other) :
    Except Fault Bool := do
  return (← d.propertyType key).tree.assignable target.tree

/-- The keys that satisfy a predicate, in the order of the members. -/
def selectKeys (d : Descriptor cap) (p : Text → Except Fault Bool) : Except Fault KeySet := do
  let all ← d.tree.keys
  let kept ← all.keys.filterM fun k => p k.text
  KeySet.ofList (kept.map Name.text)

/-- The keys of the read-only members. -/
def readonlyKeys (d : Descriptor cap) : Except Fault KeySet := d.selectKeys d.isReadonly

/-- The keys of the writable members. -/
def writableKeys (d : Descriptor cap) : Except Fault KeySet := d.selectKeys d.isWritable

/-- The keys of the optional members. -/
def optionalKeys (d : Descriptor cap) : Except Fault KeySet := d.selectKeys d.isOptional

/-- The keys of the required members. -/
def requiredKeys (d : Descriptor cap) : Except Fault KeySet := d.selectKeys d.isRequired

/-- The keys of the function-valued members. -/
def functionKeys (d : Descriptor cap) : Except Fault KeySet := d.selectKeys d.isFunctionValued

/-- The keys of the members that are not function-valued. -/
def nonFunctionKeys (d : Descriptor cap) : Except Fault KeySet :=
  d.selectKeys fun k => return !(← d.isFunctionValued k)

/-- The keys of the members in a category. A category without members is a fault. -/
def keysWithValueType (d : Descriptor cap) (target : Descriptor other) : Except Fault KeySet := do
  let found ← d.selectKeys (d.matchesCategory · target)
  if found.isEmpty then .error (.emptyCategory target.tree.text d.tree.text) else return found

/-- The object of the required members. -/
def pickRequired (d : Descriptor cap) : Except Fault (Descriptor cap) := do
  d.pick (← d.requiredKeys)

end StructuralTypes.Descriptor
