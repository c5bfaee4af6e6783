import StructuralTypes.Descriptor.Shape
import StructuralTypes.Proofs.RawShapes

/-!
# Operations in raw storage

The operations that classify the members of a shape build slices, projections and unions of their
own and compare them. On what finitely many operations build, all of them come to their end in
bounds, with the answer or the fault of the operation that works on the type.
-/

namespace StructuralTypes

namespace RawDescriptor

variable (d : RawDescriptor)

/-- Two types are equal. -/
def equal (other : RawDescriptor) : Checked Bool := d.arena.equal other.arena d.root other.root

/-- A value of `d` may stand where a `target` is expected. -/
def assignable (target : RawDescriptor) : Checked Bool :=
  d.arena.assignable target.arena d.root target.root

/-- The type without its `undefined` alternatives. -/
def nonUndefined : Checked RawDescriptor := do
  d.exclude (← leaf d.arena.capacity (.ofKind .undefined))

/-- Every value of the type can be called. -/
def isCallable : Checked Bool := do
  if (← d.header).head.tag == .known .never then return false
  else d.assignable (← leaf d.arena.capacity (.ofKind .function))

/-- The slice of the member does not change when it is made mutable. -/
def isWritable (key : Text) : Checked Bool := do
  let projected ← (← d.mutableProjection).slice key
  (← d.slice key).equal projected

/-- The member is not writable. -/
def isReadonly (key : Text) : Checked Bool := do
  return !(← d.isWritable key)

/-- An object without members can stand in for the member's slice. -/
def isOptional (key : Text) : Checked Bool := do
  let none ← leaf d.arena.capacity (.ofKind .object)
  none.assignable (← d.slice key)

/-- The member is not optional. -/
def isRequired (key : Text) : Checked Bool := do
  return !(← d.isOptional key)

/-- Reading the member gives something callable, or undefined if the member is optional. -/
def isFunctionValued (key : Text) : Checked Bool := do
  (← (← d.propertyType key).nonUndefined).isCallable

/-- What reading the member gives is assignable to a target. -/
def matchesCategory (key : Text) (target : RawDescriptor) : Checked Bool := do
  (← d.propertyType key).assignable target

/-- The keys that satisfy a predicate, in the order of the members. -/
def selectKeys (p : Text → Checked Bool) : Checked KeySet := do
  let all ← d.keys
  let kept ← all.keys.filterM fun k => p k.text
  .answer (KeySet.ofList (kept.map Name.text))

/-- The keys of the members in a category. A category without members is a fault. -/
def keysWithValueType (target : RawDescriptor) : Checked KeySet := do
  let found ← d.selectKeys (d.matchesCategory · target)
  if found.isEmpty then
    throw (.emptyCategory (← target.render).content (← d.render).content)
  else return found

/-- The object of the required members. -/
def pickRequired : Checked RawDescriptor := do
  d.pick (← d.selectKeys d.isRequired)

end RawDescriptor

namespace Descriptor

open Checked (answer)

variable {cap other : Nat} {d : Descriptor cap} {e : Descriptor other}

theorem equal_raw (h : Reachable d) (k : Reachable e) :
    d.raw.equal e.raw = pure (d.tree.equiv e.tree) :=
  (Arena.equal_raw h.narrow k.narrow d.inside e.inside).trans
    (congrArg (fun b => (pure b : Checked Bool)) (Arena.equalAt_eq_equiv ..))

theorem assignable_raw (h : Reachable d) (k : Reachable e) :
    d.raw.assignable e.raw = pure (d.tree.assignable e.tree) :=
  Arena.assignable_raw h.narrow k.narrow d.inside e.inside h.complete k.complete

/-- Where a type is stored there is room for a single node. -/
theorem exists_leaf (d : Descriptor cap) (head : Head) :
    ∃ e : Descriptor cap, leaf cap head = .ok e ∧ e.tree = .node head [] ∧
      RawDescriptor.leaf d.raw.arena.capacity head = pure e.raw := by
  have room : 1 ≤ cap := Nat.lt_of_lt_of_le (Nat.zero_lt_of_lt d.inside) d.arena.bounded
  obtain ⟨e, made⟩ := (ofTree_total cap (.node head [])).1 room
  refine ⟨e, made, tree_of_ofTree made, (leaf_raw head).trans ?_⟩
  exact congrArg (fun x => answer (raw <$> x)) made

section Shapes

variable (h : Reachable d)

include h

theorem nonUndefined_raw : d.raw.nonUndefined = answer (raw <$> d.nonUndefined) := by
  refine (congrArg (· >>= _) (leaf_raw _)).trans ?_
  rw [nonUndefined, map_bind]
  exact Checked.answer_map_bind fun e made => exclude_raw h (.ofKind rfl made)

theorem isCallable_raw : d.raw.isCallable = pure d.tree.isCallable := by
  obtain ⟨target, made, known, stored⟩ := d.exists_leaf (.ofKind .function)
  rw [RawDescriptor.isCallable, header_raw, pure_bind, isKind_header, Tree.isCallable]
  cases d.tree.isKind .never with
  | true => rfl
  | false =>
      rw [if_neg Bool.false_ne_true, stored, pure_bind, assignable_raw h (.ofKind rfl made), known]
      rfl

section Members

variable (key : Text)

theorem isWritable_raw : d.raw.isWritable key = answer (d.isWritable key) := by
  -- The projection comes first, so a missing key is reported about the projected shape.
  rw [RawDescriptor.isWritable, mutableProjection_raw h, isWritable]
  refine Checked.answer_map_bind fun m made => ?_
  have mutable : Reachable m := .mutableProjection h made
  rw [slice_raw mutable]
  refine Checked.answer_map_bind fun projected made' => ?_
  rw [slice_raw h]
  refine Checked.answer_map_bind fun sliced made'' => ?_
  exact equal_raw (.slice h made'') (.slice mutable made')

theorem isOptional_raw : d.raw.isOptional key = answer (d.isOptional key) := by
  obtain ⟨none, made, known, stored⟩ := d.exists_leaf (.ofKind .object)
  have empty : Reachable none := @Reachable.object cap none [] nofun nofun made
  rw [RawDescriptor.isOptional, stored, pure_bind, slice_raw h, isOptional]
  refine Checked.answer_map_bind fun sliced made' => ?_
  rw [assignable_raw empty (.slice h made'), known]
  rfl

theorem isFunctionValued_raw : d.raw.isFunctionValued key = answer (d.isFunctionValued key) := by
  rw [RawDescriptor.isFunctionValued, propertyType_raw h, isFunctionValued]
  refine Checked.answer_map_bind fun type made => ?_
  have reachable : Reachable type := .propertyType h made
  rw [nonUndefined_raw reachable]
  exact Checked.answer_map_bind fun rest made' => isCallable_raw (.nonUndefined reachable made')

theorem matchesCategory_raw (k : Reachable e) :
    d.raw.matchesCategory key e.raw = answer (d.matchesCategory key e) := by
  rw [RawDescriptor.matchesCategory, propertyType_raw h, matchesCategory]
  exact Checked.answer_map_bind fun type made => assignable_raw (.propertyType h made) k

theorem isReadonly_raw : d.raw.isReadonly key = answer (d.isReadonly key) := by
  rw [RawDescriptor.isReadonly, isWritable_raw h, isReadonly]
  exact Checked.answer_bind fun _ _ => rfl

theorem isRequired_raw : d.raw.isRequired key = answer (d.isRequired key) := by
  rw [RawDescriptor.isRequired, isOptional_raw h, isRequired]
  exact Checked.answer_bind fun _ _ => rfl

end Members

theorem selectKeys_raw {p : Text → Checked Bool} {q : Text → Except Fault Bool}
    (each : ∀ key, p key = answer (q key)) : d.raw.selectKeys p = answer (d.selectKeys q) := by
  rw [RawDescriptor.selectKeys, keys_raw h, selectKeys]
  refine Checked.answer_bind fun all _ => ?_
  have kept := Checked.answer_filterM (fun k : Name => each k.text) all.keys
  rw [kept]
  exact Checked.answer_bind fun kept _ => rfl

theorem keysWithValueType_raw (k : Reachable e) :
    d.raw.keysWithValueType e.raw = answer (d.keysWithValueType e) := by
  rw [RawDescriptor.keysWithValueType, selectKeys_raw h fun key => matchesCategory_raw h key k,
    keysWithValueType]
  refine Checked.answer_bind fun found _ => ?_
  rw [render_raw h, render_raw k, pure_bind, pure_bind]
  split <;> rfl

theorem pickRequired_raw : d.raw.pickRequired = answer (raw <$> d.pickRequired) := by
  rw [RawDescriptor.pickRequired, selectKeys_raw h (isRequired_raw h), pickRequired, map_bind]
  exact Checked.answer_bind fun keys _ => pick_raw h keys

end Shapes

/-- Every operation on a shape comes to its end in bounds, and does what it does to the type. -/
structure ShapeInBounds (d : Descriptor cap) : Prop where
  memberCount : d.raw.memberCount = answer d.tree.memberCount
  hasKey (key : Text) : d.raw.hasKey key = answer (d.tree.hasKey key)
  keys : d.raw.keys = answer d.tree.keys
  memberModifiers (key : Text) : d.raw.memberModifiers key = answer (d.tree.memberModifiers key)
  declaredType (key : Text) : d.raw.declaredType key = answer (raw <$> d.declaredType key)
  propertyType (key : Text) : d.raw.propertyType key = answer (raw <$> d.propertyType key)
  slice (key : Text) : d.raw.slice key = answer (raw <$> d.slice key)
  pick (keys : KeySet) : d.raw.pick keys = answer (raw <$> d.pick keys)
  drop (keys : KeySet) : d.raw.drop keys = answer (raw <$> d.drop keys)
  withOptional (keys : KeySet) : d.raw.withOptional keys = answer (raw <$> d.withOptional keys)
  mutableProjection : d.raw.mutableProjection = answer (raw <$> d.mutableProjection)
  isWritable (key : Text) : d.raw.isWritable key = answer (d.isWritable key)
  isReadonly (key : Text) : d.raw.isReadonly key = answer (d.isReadonly key)
  isOptional (key : Text) : d.raw.isOptional key = answer (d.isOptional key)
  isRequired (key : Text) : d.raw.isRequired key = answer (d.isRequired key)
  isFunctionValued (key : Text) : d.raw.isFunctionValued key = answer (d.isFunctionValued key)
  matchesCategory {n : Nat} {target : Descriptor n} (h : Reachable target) (key : Text) :
    d.raw.matchesCategory key target.raw = answer (d.matchesCategory key target)
  readonlyKeys : d.raw.selectKeys d.raw.isReadonly = answer d.readonlyKeys
  writableKeys : d.raw.selectKeys d.raw.isWritable = answer d.writableKeys
  optionalKeys : d.raw.selectKeys d.raw.isOptional = answer d.optionalKeys
  requiredKeys : d.raw.selectKeys d.raw.isRequired = answer d.requiredKeys
  functionKeys : d.raw.selectKeys d.raw.isFunctionValued = answer d.functionKeys
  nonFunctionKeys : (d.raw.selectKeys fun key => return !(← d.raw.isFunctionValued key)) =
    answer d.nonFunctionKeys
  keysWithValueType {n : Nat} {target : Descriptor n} (h : Reachable target) :
    d.raw.keysWithValueType target.raw = answer (d.keysWithValueType target)
  pickRequired : d.raw.pickRequired = answer (raw <$> d.pickRequired)

theorem shapeInBounds (h : Reachable d) : d.ShapeInBounds where
  memberCount := memberCount_raw h
  hasKey := hasKey_raw h
  keys := keys_raw h
  memberModifiers := memberModifiers_raw h
  declaredType := declaredType_raw h
  propertyType := propertyType_raw h
  slice := slice_raw h
  pick := pick_raw h
  drop := drop_raw h
  withOptional := withOptional_raw h
  mutableProjection := mutableProjection_raw h
  isWritable := isWritable_raw h
  isReadonly := isReadonly_raw h
  isOptional := isOptional_raw h
  isRequired := isRequired_raw h
  isFunctionValued := isFunctionValued_raw h
  matchesCategory k key := matchesCategory_raw h key k
  readonlyKeys := selectKeys_raw h (isReadonly_raw h)
  writableKeys := selectKeys_raw h (isWritable_raw h)
  optionalKeys := selectKeys_raw h (isOptional_raw h)
  requiredKeys := selectKeys_raw h (isRequired_raw h)
  functionKeys := selectKeys_raw h (isFunctionValued_raw h)
  nonFunctionKeys := selectKeys_raw h fun key => by
    rw [isFunctionValued_raw h]
    exact Checked.answer_bind fun _ _ => rfl
  keysWithValueType := keysWithValueType_raw h
  pickRequired := pickRequired_raw h

/-- Comparing, rendering, uniting and excluding, and every operation on shapes, come to their end in
bounds on all that finitely many operations build, at any capacities: each computation that checks
its accesses has an answer, and it is the one that is known for the types. -/
theorem operations_answer_in_bounds :
    (∀ {m n : Nat} {d : Descriptor m} {e : Descriptor n}, Reachable d → Reachable e →
      d.raw.equal e.raw = pure (d.tree.equiv e.tree) ∧
      d.raw.assignable e.raw = pure (d.tree.assignable e.tree)) ∧
    (∀ {m : Nat} {d : Descriptor m}, Reachable d → d.raw.render = pure d.tree.render) ∧
    (∀ {m : Nat} {operands : List (Descriptor m)}, (∀ o ∈ operands, Reachable o) →
      RawDescriptor.union m (operands.map raw) = answer (raw <$> union operands)) ∧
    (∀ {m : Nat} {d other : Descriptor m}, Reachable d → Reachable other →
      d.raw.exclude other.raw = answer (raw <$> d.exclude other)) ∧
    ∀ {m : Nat} {d : Descriptor m}, Reachable d → d.ShapeInBounds :=
  ⟨fun h k => ⟨equal_raw h k, assignable_raw h k⟩, render_raw,
    fun each => union_raw fun o ho => (each o ho).narrow, fun h k => exclude_raw h k, shapeInBounds⟩

/-- A shape with an optional member of a union type. Two of them do not fit into the storage of
one. -/
theorem operations_answer_in_bounds_optional :
    ∃ shape : Descriptor 8, (do
      let either ← union [← ofKind 8 .string, ← ofKind 8 .number]
      object 8 [← Member.make (.ofString "a") either ⟨false, true, 0⟩]) = .ok shape ∧
      shape.raw.equal shape.raw = pure true ∧
      shape.raw.assignable shape.raw = pure true ∧
      shape.raw.render = pure shape.tree.render ∧
      RawDescriptor.union 8 ([shape, shape].map raw) = throw .storageFull ∧
      (∃ rest : Descriptor 8, shape.raw.exclude shape.raw = pure rest.raw ∧
        rest.tree.isKind .never = true) ∧
      shape.raw.isOptional (.ofString "a") = pure true := by
  apply exists_ok_of_test (fun shape : Descriptor 8 =>
    decide (shape.tree.equiv shape.tree = true ∧ shape.tree.assignable shape.tree = true ∧
      (fun _ => ()) <$> union [shape, shape] = .error .storageFull ∧
      (·.tree.isKind .never) <$> shape.exclude shape = .ok true ∧
      shape.isOptional (.ofString "a") = .ok true)) (by decide +kernel)
  intro shape made passes
  obtain ⟨equal, assignable, full, excluded, optional⟩ := of_decide_eq_true passes
  have reachable : Reachable shape := Gives.holds made <|
    .either (.kind rfl) (.kind rfl) fun either he => .bind (.make he) fun m hm =>
      .object (List.forall_mem_singleton.2 hm)
  obtain ⟨pairs, rendered, united, rests, shapes⟩ := operations_answer_in_bounds
  obtain ⟨rest, excluded, never⟩ := map_eq_ok excluded
  have twice : ∀ o ∈ [shape, shape], Reachable o := by simp [reachable]
  refine ⟨?_, ?_, rendered reachable, ?_, ⟨rest, ?_, never⟩, ?_⟩
  · rw [(pairs reachable reachable).1, equal]
  · rw [(pairs reachable reachable).2, assignable]
  · rw [united twice]
    cases result : union [shape, shape] with
    | error fault =>
        rw [result] at full
        cases full
        rfl
    | ok d =>
        rw [result] at full
        cases full
  · rw [rests reachable reachable, excluded]
    rfl
  · rw [(shapes reachable).isOptional, optional]
    rfl

end Descriptor

end StructuralTypes
