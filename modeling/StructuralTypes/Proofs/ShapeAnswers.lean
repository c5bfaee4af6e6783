import StructuralTypes.Proofs.EqualShapes

/-!
# Answers without storage

A stored shape computes an answer about its members from slices, projections and property types,
which are stored at the same capacity. None of them has more nodes than the shape, and neither has
the raw union that a property type is made of, so storage never gets in the way: the answer, or the
fault, is the one that is read off the type.
-/

namespace StructuralTypes

namespace Tree

section Answers

variable (t : Tree) (key : Text)

/-- The type of reading a member: an optional one may be undefined. -/
def propertyType : Except Fault Tree := do
  let declared ← t.declaredType key
  if (← t.memberModifiers key).optional then
    (node (.ofKind .union) [declared, ofKind .undefined]).normalized
  else return declared

/-- The slice of the member does not change when it is made mutable. -/
def isWritable : Except Fault Bool := do
  let projected ← (← t.mutableProjection).slice key
  let sliced ← t.slice key
  return sliced.equiv projected

/-- An object without members can stand in for the member's slice. -/
def isOptional : Except Fault Bool := do
  return (ofMembers []).assignable (← t.slice key)

/-- Reading the member gives something callable, or undefined if the member is optional. -/
def isFunctionValued : Except Fault Bool := do
  return (← t.propertyType key).nonUndefined.isCallable

/-- What reading the member gives is assignable to a target. -/
def matchesCategory (target : Tree) : Except Fault Bool := do
  return (← t.propertyType key).assignable target

end Answers

end Tree

namespace Descriptor

variable {cap : Nat} {d : Descriptor cap}

/-- The computation fails like the other one, or stores the normal type that the other one gives. -/
structure Stores (x : Except Fault (Descriptor cap)) (y : Except Fault Tree) : Prop where
  gives : tree <$> x = y
  normal : ∀ d, x = .ok d → d.Normal

namespace Stores

variable {x : Except Fault (Descriptor cap)} {y : Except Fault Tree}

theorem ok (h : d.Normal) : Stores (.ok d) (.ok d.tree) :=
  ⟨rfl, fun _ same => Except.ok.inj same ▸ h⟩

theorem ofTree {t : Tree} (normal : t.Normal) (fits : t.size ≤ cap) :
    Stores (Descriptor.ofTree cap t) (.ok t) := by
  obtain ⟨d, made⟩ := (ofTree_total cap t).1 fits
  rw [made, ← tree_of_ofTree made]
  exact .ok (normal_ofTree normal made)

/-- What is computed from what is stored is computed from the type. -/
theorem bind (h : Stores x y) {α : Type} {f : Descriptor cap → Except Fault α}
    {g : Tree → Except Fault α} (next : ∀ d, d.Normal → f d = g d.tree) : (x >>= f) = y >>= g := by
  obtain ⟨gives, normal⟩ := h
  subst gives
  cases x with
  | error e => rfl
  | ok d => exact next d (normal d rfl)

theorem bind_stores (h : Stores x y) {f : Descriptor cap → Except Fault (Descriptor cap)}
    {g : Tree → Except Fault Tree}
    (next : ∀ d, x = .ok d → d.Normal → Stores (f d) (g d.tree)) : Stores (x >>= f) (y >>= g) := by
  obtain ⟨gives, normal⟩ := h
  subst gives
  cases x with
  | error e => exact ⟨rfl, fun _ => nofun⟩
  | ok d => exact next d rfl (normal d rfl)

theorem of_bind {α : Type} (z : Except Fault α) {f : α → Except Fault (Descriptor cap)}
    {g : α → Except Fault Tree} (next : ∀ a, Stores (f a) (g a)) : Stores (z >>= f) (z >>= g) := by
  cases z with
  | error e => exact ⟨rfl, fun _ => nofun⟩
  | ok a => exact next a

/-- What is stored is given by the types. -/
theorem eq_ok (h : Stores x y) {d : Descriptor cap} (made : x = .ok d) : y = .ok d.tree := by
  rw [← h.gives, made]
  rfl

/-- What the types give is stored. -/
theorem exists_of_ok {t : Tree} (h : Stores x (.ok t)) :
    ∃ d, x = .ok d ∧ d.Normal ∧ d.tree = t := by
  obtain ⟨gives, normal⟩ := h
  obtain ⟨d, rfl, rfl⟩ := map_eq_ok gives
  exact ⟨d, rfl, normal d rfl, rfl⟩

end Stores

namespace Normal

variable (h : d.Normal)

include h

/-- A transformation to normal types of no more nodes is stored. -/
theorem transform_stores {f : Tree → Except Fault Tree}
    (normal : ∀ u, f d.tree = .ok u → u.Normal)
    (shrinks : ∀ u, f d.tree = .ok u → u.size ≤ d.tree.size) :
    Stores (d.transform f) (f d.tree) := by
  rw [transform]
  cases result : f d.tree with
  | error e => exact ⟨rfl, fun _ => nofun⟩
  | ok u => exact .ofTree (normal u result) ((shrinks u result).trans h.size_le)

section Members

variable (key : Text)

theorem slice_stores : Stores (d.slice key) (d.tree.slice key) :=
  h.transform_stores (fun _ => h.type.slice) fun _ => Tree.size_slice_le

theorem mutableProjection_stores : Stores d.mutableProjection d.tree.mutableProjection :=
  h.transform_stores (fun _ => h.type.mutableProjection) fun _ made =>
    (Tree.size_mutableProjection made).le

theorem declaredType_stores : Stores (d.declaredType key) (d.tree.declaredType key) :=
  h.transform_stores (fun _ => h.type.declaredType) fun _ => Tree.size_declaredType_le

section Found

variable {key} (object : d.tree.isKind .object = true) {m : Tree} (found : d.tree.find? key = some m)

include object found

theorem exists_declaredType :
    ∃ type, d.declaredType key = .ok type ∧ type.Normal ∧ type.tree = m.first := by
  have stored := h.declaredType_stores key
  rw [Tree.declaredType_of_find? object found] at stored
  exact stored.exists_of_ok

theorem exists_slice : ∃ e, d.slice key = .ok e ∧ e.Normal ∧ e.tree = .ofMembers [m] := by
  have stored := h.slice_stores key
  rw [Tree.slice_of_find? object found] at stored
  exact stored.exists_of_ok

end Found

end Members

theorem undefined_stores : Stores (ofKind cap .undefined) (.ok (.ofKind .undefined)) :=
  .ofTree (.primitive rfl) ((Tree.size_pos d.tree).trans_le h.size_le)

theorem nonUndefined_stores : Stores d.nonUndefined (.ok d.tree.nonUndefined) := by
  obtain ⟨undefined, made, -, known⟩ := h.undefined_stores.exists_of_ok
  rw [nonUndefined, made]
  change Stores (d.exclude undefined) _
  rw [exclude, known]
  exact .ofTree (h.type.exclude _) ((Tree.size_exclude_le _ _).trans h.size_le)

end Normal

/-- A union is stored if its operands fit all together. -/
theorem union_stores {operands : List (Descriptor cap)} (normal : ∀ o ∈ operands, o.Normal)
    (few : operands.length ≤ 16) (fits : Tree.sizeAll (operands.map tree) < cap) :
    Stores (union operands) (Tree.node (.ofKind .union) (operands.map tree)).normalized := by
  refine ⟨?_, fun d => normal_union normal⟩
  have room : (Tree.node (.ofKind .union) (operands.map tree)).size ≤ cap := by
    rw [Tree.size_eq]
    exact fits
  obtain ⟨raw, made⟩ := (ofTree_total cap _).1 room
  have collected : make (.ofKind .union) operands = .ok raw := by
    rw [make, ofNode, if_neg (by simpa using few), made]
  rw [union, collected, ← tree_of_ofTree made]
  change tree <$> raw.transform Tree.normalized = raw.tree.normalized
  rw [transform]
  cases result : raw.tree.normalized with
  | error e => rfl
  | ok u =>
      have small := (Tree.size_normalized_le result).trans (tree_of_ofTree made ▸ room)
      obtain ⟨d, stored⟩ := (ofTree_total cap u).1 small
      change tree <$> ofTree cap u = _
      rw [stored, ← tree_of_ofTree stored]
      rfl

namespace Normal

variable (h : d.Normal) (key : Text)

include h

/-- The union of a declared type and `undefined` has no more nodes than the shape, because the
object and the member are left out. -/
theorem propertyType_stores : Stores (d.propertyType key) (d.tree.propertyType key) := by
  refine (h.declaredType_stores key).bind_stores fun declared made normal => ?_
  refine .of_bind _ fun modifiers => ?_
  have room := h.room_of_declaredType made
  split
  · obtain ⟨undefined, made', normal', known⟩ := h.undefined_stores.exists_of_ok
    rw [made']
    have fits : Tree.sizeAll ([declared, undefined].map tree) < cap := by
      simp only [List.map_cons, List.map_nil, known, Tree.sizeAll, Tree.ofKind, Tree.size]
      omega
    have both : ∀ o ∈ [declared, undefined], o.Normal := by simp [normal, normal']
    have stored := union_stores both (by simp) fits
    rwa [List.map_cons, List.map_singleton, known] at stored
  · exact .ok normal

/-- What a stored shape answers is what its type answers. -/
theorem isWritable_eq : d.isWritable key = d.tree.isWritable key :=
  h.mutableProjection_stores.bind fun _ hp => (hp.slice_stores key).bind fun _ _ =>
    (h.slice_stores key).bind fun _ _ => rfl

theorem isOptional_eq : d.isOptional key = d.tree.isOptional key :=
  (h.slice_stores key).bind fun _ _ => rfl

theorem isFunctionValued_eq : d.isFunctionValued key = d.tree.isFunctionValued key :=
  (h.propertyType_stores key).bind fun _ hp =>
    hp.nonUndefined_stores.bind (g := fun t => pure t.isCallable) fun _ _ => rfl

theorem matchesCategory_eq {n : Nat} (target : Descriptor n) :
    d.matchesCategory key target = d.tree.matchesCategory key target.tree :=
  (h.propertyType_stores key).bind fun _ _ => rfl

end Normal

end Descriptor

end StructuralTypes
