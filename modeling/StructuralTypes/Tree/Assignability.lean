import StructuralTypes.Tree.Equality

/-!
# Assignability

A source type is assignable to a target type when each of its values may stand where the target is
expected. Objects are compared member by member, results covariantly and parameters
contravariantly. Of the modifiers only optionality plays a part.

Every rule reduces a pair of types to pairs with fewer nodes in all, also where parameters swap the
sides. The rules are tried in a fixed order and stop at the first answer, so shared subtrees are
visited only as far as the answer needs them.
-/

namespace StructuralTypes.Tree

mutual

/-- A value of `source` may stand where a `target` is expected. -/
def assignable (source target : Tree) : Bool :=
  if source.isKind .never || target.isKind .unknown then true
  else if source.isKind .unknown then false
  else if source.isKind .union then source.children.attach.all fun a => a.1.assignable target
  else if target.isKind .union then target.children.attach.any fun a => source.assignable a.1
  else source.equiv target || source.tag.widened == target.tag || source.structureAssignable target
termination_by 4 * (source.size + target.size) + 2
decreasing_by
  · have := size_lt_of_mem a.2
    omega
  · have := size_lt_of_mem a.2
    omega
  · omega

/-- The rules for two types that are neither unions nor equal, by their kinds. -/
def structureAssignable (source target : Tree) : Bool :=
  match source.tag, target.tag with
  | .known .undefined, .known .void => true
  | .known .fn, .known .function => true
  | .known .ctor, .known .function => true
  | .known .fn, .known .fn => source.signatureAssignable target
  | .known .ctor, .known .ctor => source.signatureAssignable target
  | .known .array, .known .array =>
    target.first?.attach.any fun expected => source.first?.attach.any fun element =>
      element.1.assignable expected.1
  | .known .object, .known .object =>
    target.children.attach.all fun member => source.memberAssignable member.1
  | .known kind, .known .object => target.children.isEmpty && !kind.isNullish
  | .other _ _, .known .object => target.children.isEmpty
  | _, _ => false
termination_by 4 * (source.size + target.size) + 1
decreasing_by
  · omega
  · omega
  · have := size_lt_of_first? element.2
    have := size_lt_of_first? expected.2
    omega
  · have := size_lt_of_mem member.2
    omega

/-- Function types and constructor types: the source may take fewer parameters, and a function whose
result is not wanted may have any result. -/
def signatureAssignable (source target : Tree) : Bool :=
  source.children.length ≤ target.children.length &&
    ((target.children.drop 1).zip (source.children.drop 1)).attach.all
      (fun p => p.1.1.assignable p.1.2) &&
    target.first?.attach.any fun expected =>
      source.isKind .fn && expected.1.isKind .void ||
        source.first?.attach.any fun result => result.1.assignable expected.1
termination_by 4 * (source.size + target.size)
decreasing_by
  · obtain ⟨⟨given, wanted⟩, h⟩ := p
    have := size_lt_of_mem (List.mem_of_mem_drop (List.of_mem_zip h).1)
    have := size_lt_of_mem (List.mem_of_mem_drop (List.of_mem_zip h).2)
    simp only
    omega
  · have := size_lt_of_first? result.2
    have := size_lt_of_first? expected.2
    omega

/-- A member is required of the source unless it is optional. An optional slot takes `undefined` as
well; a required slot is not filled by an optional member, whatever its type. -/
def memberAssignable (source member : Tree) : Bool :=
  match _ : source.find? member.name.text with
  | none => member.modifiers.optional
  | some found =>
    member.first?.attach.any fun expected => found.first?.attach.any fun type =>
      if member.modifiers.optional then type.1.assignableOrUndefined expected.1
      else type.1.assignable expected.1 && !found.modifiers.optional
termination_by 4 * (source.size + member.size)
decreasing_by
  all_goals
    have := size_lt_of_mem (mem_of_find? ‹source.find? member.name.text = some found›)
    have := size_lt_of_first? type.2
    have := size_lt_of_first? expected.2
    omega

/-- Every alternative of `source` is `undefined` or assignable to `target`. -/
def assignableOrUndefined (source target : Tree) : Bool :=
  if source.isKind .union then
    source.children.attach.all fun a => a.1.assignableOrUndefined target
  else source.isKind .undefined || source.assignable target
termination_by 4 * (source.size + target.size) + 3
decreasing_by
  · have := size_lt_of_mem a.2
    omega
  · omega

end

/-- Assignability in both directions. -/
def mutuallyAssignable (a b : Tree) : Bool := a.assignable b && b.assignable a

section Rules

variable (source target : Tree)

theorem assignable_eq :
    source.assignable target =
      if source.isKind .never || target.isKind .unknown then true
      else if source.isKind .unknown then false
      else if source.isKind .union then source.children.all fun a => a.assignable target
      else if target.isKind .union then target.children.any fun a => source.assignable a
      else source.equiv target || source.tag.widened == target.tag ||
        source.structureAssignable target := by
  rw [assignable]
  simp only [List.all_subtype, List.any_subtype, List.unattach_attach]

theorem structureAssignable_eq :
    source.structureAssignable target =
      match source.tag, target.tag with
      | .known .undefined, .known .void => true
      | .known .fn, .known .function => true
      | .known .ctor, .known .function => true
      | .known .fn, .known .fn => source.signatureAssignable target
      | .known .ctor, .known .ctor => source.signatureAssignable target
      | .known .array, .known .array =>
        target.first?.any fun expected => source.first?.any fun element =>
          element.assignable expected
      | .known .object, .known .object =>
        target.children.all fun member => source.memberAssignable member
      | .known kind, .known .object => target.children.isEmpty && !kind.isNullish
      | .other _ _, .known .object => target.children.isEmpty
      | _, _ => false := by
  rw [structureAssignable]
  simp only [List.all_subtype, List.unattach_attach]
  cases source.first? <;> cases target.first? <;> rfl

theorem signatureAssignable_eq :
    source.signatureAssignable target =
      (source.children.length ≤ target.children.length &&
        ((target.children.drop 1).zip (source.children.drop 1)).all
          (fun p => p.1.assignable p.2) &&
        target.first?.any fun expected =>
          source.isKind .fn && expected.isKind .void ||
            source.first?.any fun result => result.assignable expected) := by
  rw [signatureAssignable]
  simp only [List.all_subtype, List.unattach_attach]
  cases source.first? <;> cases target.first? <;> rfl

theorem memberAssignable_eq (member : Tree) :
    source.memberAssignable member =
      match source.find? member.name.text with
      | none => member.modifiers.optional
      | some found =>
        member.first?.any fun expected => found.first?.any fun type =>
          if member.modifiers.optional then type.assignableOrUndefined expected
          else type.assignable expected && !found.modifiers.optional := by
  rw [memberAssignable]
  split
  · next h => rw [h]
  · next found h =>
    simp only [h]
    cases found.first? <;> cases member.first? <;> rfl

theorem assignableOrUndefined_eq :
    source.assignableOrUndefined target =
      if source.isKind .union then source.children.all fun a => a.assignableOrUndefined target
      else source.isKind .undefined || source.assignable target := by
  rw [assignableOrUndefined]
  simp only [List.all_subtype, List.unattach_attach]

end Rules

end StructuralTypes.Tree
