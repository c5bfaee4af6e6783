import StructuralTypes.Proofs.AssignmentRules

/-!
# Assignability between alternatives

A source is assignable when each of its alternatives is, and an alternative is assignable when some
alternative of the target takes it. What is left to compare are pairs of single types. No normal
form is asked of the trees here.
-/

namespace StructuralTypes.Tree

variable {s t : Tree}

/-- Only `never` is assignable to `never`. -/
theorem IsAlternative.not_assignable_never (hs : s.IsAlternative)
    (target : t.isKind .never = true) : s.assignable t = false := by
  apply Bool.eq_false_iff.2
  rw [ne_eq, hs.assignable_iff (isKind_eq_false target (by decide))
    (isKind_eq_false target (by decide))]
  rintro (same | widened | rule)
  · have := isKind_eq_of_equiv same .never
    rw [hs.notNever, target] at this
    cases this
  · obtain ⟨kind, -, widened⟩ := exists_literal target widened
    cases kind <;> cases widened
  · exact absurd (rule.target_kind target) (by decide)

/-- What nothing is known of is assignable to `unknown` alone. -/
theorem assignable_of_unknown_iff (source : s.isKind .unknown = true) :
    s.assignable t = true ↔ t.isKind .unknown = true := by
  constructor
  · intro h
    by_contra target
    rw [not_assignable_of_unknown source (Bool.eq_false_iff.2 target)] at h
    cases h
  · exact assignable_of_unknown

theorem alternatives_of_single (single : t.isKind .union = false)
    (proper : t.isKind .never = false) : t.alternatives = [t] := by
  rw [alternatives_eq, single, proper]
  rfl

theorem alternatives_of_unknown (h : t.isKind .unknown = true) : t.alternatives = [t] :=
  alternatives_of_single (isKind_eq_false h (by decide)) (isKind_eq_false h (by decide))

/-- The alternatives of a normal type are the children of a union, or the type itself. -/
theorem Normal.mem_alternatives (h : t.Normal) {a : Tree} (ha : a ∈ t.alternatives) :
    t.isKind .union = true ∧ a ∈ t.children ∧ a.IsAlternative ∨ a = t := by
  cases union : t.isKind .union with
  | true =>
      rw [h.alternatives_of_union union] at ha
      exact .inl ⟨rfl, ha, (h.alternatives union).proper a ha⟩
  | false =>
      rw [alternatives_eq, union] at ha
      cases never : t.isKind .never with
      | true => simp [never] at ha
      | false =>
          rw [never] at ha
          exact .inr (List.mem_singleton.1 ha)

/-- A normal type has `unknown` as an alternative only if it is `unknown`. -/
theorem Normal.isKind_unknown_of_mem (h : t.Normal) {a : Tree} (ha : a ∈ t.alternatives)
    (known : a.isKind .unknown = true) : t.isKind .unknown = true := by
  rcases h.mem_alternatives ha with ⟨-, -, proper⟩ | rfl
  · rw [proper.notUnknown] at known
    cases known
  · exact known

/-- A source is assignable when each of its alternatives is. -/
theorem assignable_iff_each (s t : Tree) :
    s.assignable t = true ↔ ∀ a ∈ s.alternatives, a.assignable t = true := by
  induction s using nodeInduction with
  | node head children ih =>
      rw [alternatives_eq]
      split
      · next source =>
        cases known : t.isKind .unknown with
        | true => simp [assignable_of_unknown known]
        | false =>
            rw [assignable_fromUnion source known, List.all_eq_true]
            simp only [children_node, List.mem_flatMap, forall_exists_index, and_imp]
            constructor
            · intro h a c hc
              exact (ih c hc).1 (h c hc) a
            · intro h c hc
              exact (ih c hc).2 fun a => h a c hc
      · split
        · next never => simp [assignable_of_never never]
        · rw [List.forall_mem_singleton]

/-- An alternative is assignable when some alternative of the target takes it. -/
theorem IsAlternative.assignable_iff_some (hs : s.IsAlternative) (t : Tree) :
    s.assignable t = true ↔ ∃ b ∈ t.alternatives, s.assignable b = true := by
  induction t using nodeInduction with
  | node head children ih =>
      rw [Tree.alternatives_eq]
      split
      · next target =>
        rw [assignable_intoUnion hs.noUnion hs.notNever hs.notUnknown target, List.any_eq_true]
        simp only [children_node, List.mem_flatMap]
        constructor
        · rintro ⟨c, hc, h⟩
          obtain ⟨b, hb, h⟩ := (ih c hc).1 h
          exact ⟨b, ⟨c, hc, hb⟩, h⟩
        · rintro ⟨b, ⟨c, hc, hb⟩, h⟩
          exact ⟨c, hc, (ih c hc).2 ⟨b, hb, h⟩⟩
      · split
        · next never => simp [hs.not_assignable_never never]
        · simp

theorem isAlternative_of_mem {a : Tree} (ha : a ∈ s.alternatives)
    (known : a.isKind .unknown = false) : a.IsAlternative :=
  ⟨(isKind_of_mem_alternatives ha).1, (isKind_of_mem_alternatives ha).2, known⟩

/-- Apart from the target `unknown`, assignability is decided between the alternatives. -/
theorem assignable_iff_alternatives (s t : Tree) :
    s.assignable t = true ↔ t.isKind .unknown = true ∨
      ∀ a ∈ s.alternatives, a.IsAlternative ∧ ∃ b ∈ t.alternatives, a.assignable b = true := by
  rw [assignable_iff_each]
  constructor
  · intro h
    refine or_iff_not_imp_left.2 fun target a ha => ?_
    have known : a.isKind .unknown = false :=
      Bool.eq_false_iff.2 fun source => target ((assignable_of_unknown_iff source).1 (h a ha))
    have single := isAlternative_of_mem ha known
    exact ⟨single, (single.assignable_iff_some t).1 (h a ha)⟩
  · rintro (target | each) a ha
    · exact assignable_of_unknown target
    · obtain ⟨single, some⟩ := each a ha
      exact (single.assignable_iff_some t).2 some

end StructuralTypes.Tree
