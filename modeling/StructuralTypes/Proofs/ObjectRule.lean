import StructuralTypes.Proofs.Substitution

/-!
# Objects member by member

One object is assignable to another exactly when it has what each member of the other one asks for:
the shortcut for equal types accepts nothing more. Where two members declare the same type, the one
fills the slot of the other unless it may be absent and the slot may not.
-/

namespace StructuralTypes.Tree

variable {s t : Tree}

/-- Objects are compared by their members. -/
theorem Regular.object_assignable_iff (hs : s.Regular) (ht : t.Regular)
    (source : s.isKind .object = true) (target : t.isKind .object = true) :
    s.assignable t = true ↔ ∀ m ∈ t.children, ByKey s m := by
  have single : s.IsAlternative := ⟨isKind_eq_false source (by decide),
    isKind_eq_false source (by decide), isKind_eq_false source (by decide)⟩
  rw [single.assignable_iff (isKind_eq_false target (by decide))
    (isKind_eq_false target (by decide))]
  constructor
  · rintro (same | widened | rule) m hm
    · have below : AcceptedBelow s t := fun u v _ hu hv alike => hu.assignable_of_alike hv alike
      apply memberAssignable_iff.1
      exact memberAssignable_of_alike hs ht (.of_equiv same) below source hm
    · obtain ⟨kind, -, widened⟩ := exists_literal target widened
      cases kind <;> cases widened
    · rcases rule.of_object target with ⟨-, members⟩ | ⟨-, empty⟩
      · exact memberAssignable_iff.1 (members m hm)
      · rw [empty] at hm
        cases hm
  · intro each
    exact .inr (.inr (.object source target fun m hm => memberAssignable_iff.2 (each m hm)))

/-- A key that the source does not have is asked for by required members alone. -/
theorem byKey_iff_of_absent {m : Tree} (missing : s.find? m.name.text = none) :
    ByKey s m ↔ m.modifiers.optional = true := by
  constructor
  · intro h
    cases h with
    | absent _ optional => exact optional
    | required present | optional present =>
        rw [missing] at present
        cases present
  · exact .absent missing

/-- A member that declares the type of the slot fills it, unless it may be absent and the slot may
not. -/
theorem byKey_iff_of_same_type {m found : Tree} (present : s.find? m.name.text = some found)
    (same : found.first? = m.first?) (slot : m.first? = some m.first) (type : m.first.Normal) :
    ByKey s m ↔ (found.modifiers.optional = true → m.modifiers.optional = true) := by
  have value : found.first? = some m.first := same.trans slot
  have reflexive : m.first.assignable m.first = true := type.assignable_of_equiv (equiv_refl _)
  constructor
  · intro h given
    cases h with
    | absent missing =>
        rw [present] at missing
        cases missing
    | required present' _ _ _ certain =>
        obtain rfl := Option.some.inj (present.symm.trans present')
        rw [given] at certain
        cases certain
    | optional _ _ _ optional => exact optional
  · intro allowed
    cases wanted : m.modifiers.optional with
    | true =>
        exact .optional present slot value wanted fun a ha _ =>
          (assignable_iff_each _ _).1 reflexive a ha
    | false =>
        have given : found.modifiers.optional = false := Bool.eq_false_iff.2 fun given => by
          rw [allowed given] at wanted
          cases wanted
        exact .required present slot value wanted given reflexive

end StructuralTypes.Tree
