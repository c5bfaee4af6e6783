import StructuralTypes.Proofs.KeySelection
import StructuralTypes.Proofs.ObjectRule
import StructuralTypes.Proofs.Reachable
import StructuralTypes.Proofs.RevisedShape
import StructuralTypes.Proofs.ShapeAnswers

/-!
# Modifiers told from outside

Whether a member is writable is computed from two slices that are laid out and compared, and whether
it is optional from the object without members. Both computations always answer, and they answer
what the modifiers of the member say. Nothing is told by modifiers inside its type, or by values
like `undefined` that the type admits.
-/

namespace StructuralTypes

namespace Tree

variable {t m : Tree} {key : Text}

/-- Slices are equal when their members are. -/
theorem equiv_slices_iff {n : Tree} :
    (ofMembers [m]).equiv (ofMembers [n]) = true ↔ m.equiv n = true := by
  rw [ofMembers, ofMembers, equiv_node_iff rfl]
  constructor
  · intro same
    obtain ⟨n', hn, equal⟩ := same.exists_equiv (List.mem_singleton_self m)
    rwa [List.mem_singleton.1 hn] at equal
  · exact .singleton

namespace Normal

variable (h : t.Normal) (object : t.isKind .object = true) (found : t.find? key = some m)

include h object found

/-- Making a member mutable changes its slice only if the member is marked as read-only. -/
theorem isWritable_of_find? : t.isWritable key = .ok (!m.modifiers.readOnly) := by
  obtain ⟨hm, rfl⟩ := (find?_eq_some_iff (h.members object).keys).1 found
  have projected := h.find?_revised_of_kept object (fun _ => true)
    (fun m => { m.modifiers with readOnly := false }) hm rfl
  rw [isWritable, h.mutableProjection_eq_revised object]
  change (do
    let projected ← (t.revised _ _).slice m.name.text
    let sliced ← t.slice m.name.text
    return sliced.equiv projected) = _
  rw [slice_of_find? rfl projected, slice_of_find? object found]
  refine congrArg Except.ok ?_
  rw [Bool.eq_iff_iff, equiv_slices_iff, Bool.not_eq_true']
  constructor
  · intro same
    exact congrArg Modifiers.readOnly (modifiers_eq_of_equiv same)
  · intro writable
    rw [← writable, withModifiers_modifiers]
    exact equiv_refl m

/-- The object without members lacks a member that only optional slots can do without. -/
theorem isOptional_of_find? : t.isOptional key = .ok m.modifiers.optional := by
  have none : (ofMembers []).Normal := .object (by decide) (by simp) .nil (by simp)
  have slice : (ofMembers [m]).Normal := h.slice (slice_of_find? object found)
  rw [isOptional, slice_of_find? object found]
  refine congrArg Except.ok ?_
  rw [Bool.eq_iff_iff, none.regular.object_assignable_iff slice.regular rfl rfl, ofMembers,
    children_node, List.forall_mem_singleton]
  exact byKey_iff_of_absent rfl

end Normal

end Tree

namespace Descriptor

variable {cap : Nat} {d : Descriptor cap}

namespace Normal

variable (h : d.Normal) (object : d.tree.isKind .object = true) {m : Tree} {key : Text}
  (found : d.tree.find? key = some m)

include h object found

theorem isWritable_of_find? : d.isWritable key = .ok (!m.modifiers.readOnly) := by
  rw [h.isWritable_eq, h.type.isWritable_of_find? object found]

theorem isReadonly_of_find? : d.isReadonly key = .ok m.modifiers.readOnly := by
  rw [isReadonly, h.isWritable_of_find? object found]
  exact congrArg Except.ok (Bool.not_not _)

theorem isOptional_of_find? : d.isOptional key = .ok m.modifiers.optional := by
  rw [h.isOptional_eq, h.type.isOptional_of_find? object found]

theorem isRequired_of_find? : d.isRequired key = .ok (!m.modifiers.optional) := by
  rw [isRequired, h.isOptional_of_find? object found]
  rfl

end Normal

/-- Every classifier of a member answers, and answers what the modifiers of the member say. So the
keys of read-only and of writable members partition the keys, as do those of optional and of
required members, and all are listed in the order of the members. -/
theorem classifiers_agree_with_modifiers (h : d.Reachable) (object : d.tree.isKind .object = true) :
    (∀ key, d.tree.hasKey key = .ok true → ∃ modifiers, d.tree.memberModifiers key = .ok modifiers ∧
      d.isWritable key = .ok (!modifiers.readOnly) ∧ d.isReadonly key = .ok modifiers.readOnly ∧
      d.isOptional key = .ok modifiers.optional ∧ d.isRequired key = .ok (!modifiers.optional)) ∧
    ∃ all readonly writable optional required : KeySet, d.tree.keys = .ok all ∧
      d.readonlyKeys = .ok readonly ∧ d.writableKeys = .ok writable ∧
      d.optionalKeys = .ok optional ∧ d.requiredKeys = .ok required ∧
      all.keys = d.tree.children.map Tree.name ∧
      readonly.keys = (d.tree.children.filter (·.modifiers.readOnly)).map Tree.name ∧
      writable.keys = (d.tree.children.filter (!·.modifiers.readOnly)).map Tree.name ∧
      optional.keys = (d.tree.children.filter (·.modifiers.optional)).map Tree.name ∧
      required.keys = (d.tree.children.filter (!·.modifiers.optional)).map Tree.name ∧
      all.partitions readonly writable = .ok true ∧
      all.partitions optional required = .ok true := by
  have normal := h.normal
  constructor
  · intro key known
    obtain ⟨-, m, found⟩ := Tree.hasKey_iff.1 known
    exact ⟨m.modifiers, Tree.memberModifiers_of_find? object found,
      normal.isWritable_of_find? object found, normal.isReadonly_of_find? object found,
      normal.isOptional_of_find? object found, normal.isRequired_of_find? object found⟩
  · have found {m} (hm : m ∈ d.tree.children) := normal.type.find?_name object hm
    obtain ⟨all, r, w, known, hr, hw, keys, marked, unmarked, split⟩ :=
      normal.exists_partition object (p := d.isReadonly) (r := d.isWritable) fun m hm =>
        ⟨normal.isReadonly_of_find? object (found hm), normal.isWritable_of_find? object (found hm)⟩
    obtain ⟨all', o, q, known', ho, hq, -, absent, present, split'⟩ :=
      normal.exists_partition object (p := d.isOptional) (r := d.isRequired) fun m hm =>
        ⟨normal.isOptional_of_find? object (found hm), normal.isRequired_of_find? object (found hm)⟩
    obtain rfl := Except.ok.inj (known.symm.trans known')
    exact ⟨all, r, w, o, q, known, hr, hw, ho, hq, keys, marked, unmarked, absent, present, split,
      split'⟩

/-- A writable optional member whose type has a read-only member, beside a read-only required one
that is always undefined, stored without room to spare. -/
theorem classifiers_of_nested_marks :
    ∃ d : Descriptor 7, (do
      let undefined ← ofKind 7 .undefined
      let inner ← Member.make (.ofString "b") undefined ⟨true, false, 0⟩
      let first ← Member.make (.ofString "a") (← object 7 [inner]) ⟨false, true, 0⟩
      let second ← Member.make (.ofString "b") undefined ⟨true, false, 0⟩
      object 7 [first, second]) = .ok d ∧
      d.isWritable (.ofString "a") = .ok true ∧ d.isOptional (.ofString "a") = .ok true ∧
      d.isWritable (.ofString "b") = .ok false ∧ d.isOptional (.ofString "b") = .ok false ∧
      ∃ all readonly writable, d.tree.keys = .ok all ∧ d.readonlyKeys = .ok readonly ∧
        d.writableKeys = .ok writable ∧ all.partitions readonly writable = .ok true := by
  refine exists_ok_of_test (fun d =>
    d.tree.hasKey (.ofString "a") = .ok true ∧ d.tree.hasKey (.ofString "b") = .ok true ∧
      d.tree.memberModifiers (.ofString "a") = .ok ⟨false, true, 0⟩ ∧
      d.tree.memberModifiers (.ofString "b") = .ok ⟨true, false, 0⟩) (by decide +kernel) ?_
  intro d made known
  obtain ⟨hasA, hasB, modifiersA, modifiersB⟩ := of_decide_eq_true known
  have reachable : d.Reachable := by
    refine Gives.holds made (.bind (.kind rfl) fun undefined hu => .bind (.make hu) fun m hm => ?_)
    refine .member (.object (List.forall_mem_singleton.2 hm)) fun a ha => ?_
    exact .bind (.make hu) fun b hb => .object (by simp [ha, hb])
  obtain ⟨members, all, readonly, writable, -, -, keys, hr, hw, -, -, -, -, -, -, -, split, -⟩ :=
    classifiers_agree_with_modifiers reachable (Tree.hasKey_iff.1 hasA).1
  obtain ⟨_, same, writableA, -, optionalA, -⟩ := members _ hasA
  obtain rfl := Except.ok.inj (modifiersA.symm.trans same)
  obtain ⟨_, same, writableB, -, optionalB, -⟩ := members _ hasB
  obtain rfl := Except.ok.inj (modifiersB.symm.trans same)
  exact ⟨writableA, optionalA, writableB, optionalB, all, readonly, writable, keys, hr, hw, split⟩

end Descriptor

end StructuralTypes
