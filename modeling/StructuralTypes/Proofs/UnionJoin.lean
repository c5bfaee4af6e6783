import StructuralTypes.Proofs.Substitution

/-!
# Unions are joins

Normalizing keeps one of each class of equal alternatives, and equal alternatives replace one
another. So a normalized union is assignable to whatever takes all of its operands, and it takes
whatever one of its operands takes, unless that is a union itself. Where `unknown` absorbs the other
alternatives, nothing but `unknown` takes the operands, and one of them takes everything.
-/

namespace StructuralTypes

namespace Tree

section Merging

theorem mem_merge {found : List Tree} {t a : Tree} (h : a ∈ found) : a ∈ merge found t := by
  unfold merge
  split
  · exact h
  · exact List.mem_append_left _ h

theorem exists_equiv_mem_merge (found : List Tree) (t : Tree) :
    ∃ b ∈ merge found t, b.equiv t = true := by
  unfold merge
  split
  · next known => exact List.any_eq_true.1 known
  · exact ⟨t, List.mem_append_right _ (List.mem_singleton.2 rfl), equiv_refl t⟩

theorem mem_foldl_merge {found : List Tree} {a : Tree} (h : a ∈ found) (ts : List Tree) :
    a ∈ ts.foldl merge found := by
  induction ts generalizing found with
  | nil => exact h
  | cons t ts ih => exact ih (mem_merge h)

/-- Of equal trees one is kept. -/
theorem exists_equiv_mem_merged {ts : List Tree} {a : Tree} (h : a ∈ ts) :
    ∃ b ∈ merged ts, b.equiv a = true := by
  unfold merged
  generalize ([] : List Tree) = found
  induction ts generalizing found with
  | nil => cases h
  | cons t ts ih =>
      rcases List.mem_cons.1 h with rfl | h
      · obtain ⟨b, hb, equal⟩ := exists_equiv_mem_merge found a
        exact ⟨b, mem_foldl_merge hb ts, equal⟩
      · exact ih h _

/-- The alternatives of a union are those it is made of. -/
theorem alternatives_ofAlternatives {ts : List Tree}
    (single : ∀ a ∈ ts, a.isKind .union = false ∧ a.isKind .never = false) :
    (ofAlternatives ts).alternatives = ts := by
  have alone : ∀ a ∈ ts, a.alternatives = [a] := by
    intro a ha
    rw [alternatives_eq, (single a ha).1, (single a ha).2]
    rfl
  match ts with
  | [] => rfl
  | [t] => exact alone t (List.mem_singleton.2 rfl)
  | t :: u :: rest =>
    have children : (ofAlternatives (t :: u :: rest)).children = t :: u :: rest := rfl
    rw [alternatives_eq, children, List.flatMap_congr alone, List.flatMap_singleton']
    rfl

end Merging

section Normalizing

variable {s t u : Tree}

/-- A normalized type is `unknown` if that is an alternative, and has the merged alternatives
otherwise. -/
theorem alternatives_of_normalized (h : t.normalized = .ok u) :
    (u.isKind .unknown = true ∧ ∃ a ∈ t.alternatives, a.isKind .unknown = true) ∨
      ((∀ a ∈ t.alternatives, a.isKind .unknown = false) ∧
        u.alternatives = merged t.alternatives) := by
  obtain ⟨found, hf, h⟩ := bind_eq_ok h
  rw [distinctAlternatives_eq] at hf
  split at hf
  · cases hf
    cases h
    split
    · next known =>
      obtain ⟨a, ha, known⟩ := List.any_eq_true.1 known
      exact .inl ⟨rfl, a, mem_of_mem_merged ha, known⟩
    · next known =>
      simp only [List.any_eq_true, not_exists, not_and] at known
      refine .inr ⟨fun a ha => ?_, alternatives_ofAlternatives fun a ha => ?_⟩
      · obtain ⟨b, hb, equal⟩ := exists_equiv_mem_merged ha
        rw [← isKind_eq_of_equiv equal]
        exact Bool.eq_false_iff.2 (known b hb)
      · exact isKind_of_mem_alternatives (mem_of_mem_merged ha)
  · cases hf

variable (normal : ∀ a ∈ t.alternatives, a.Normal) (h : t.normalized = .ok u)

include normal h

/-- A normalized type is assignable to what takes all alternatives. -/
theorem normalized_assignable_iff (target : Tree) :
    u.assignable target = true ↔ ∀ a ∈ t.alternatives, a.assignable target = true := by
  rcases alternatives_of_normalized h with ⟨known, a, ha, absorbing⟩ | ⟨-, kept⟩
  · rw [assignable_of_unknown_iff known]
    constructor
    · exact fun top _ _ => assignable_of_unknown top
    · exact fun each => (assignable_of_unknown_iff absorbing).1 (each a ha)
  · rw [assignable_iff_each, kept]
    constructor
    · intro each a ha
      obtain ⟨b, hb, equal⟩ := exists_equiv_mem_merged ha
      have swapped := (normal b (mem_of_mem_merged hb)).replaces equal target
      exact swapped.source (each b hb)
    · exact fun each a ha => each a (mem_of_mem_merged ha)

/-- A normalized type takes what one of the alternatives takes. -/
theorem assignable_normalized_iff (single : s.IsAlternative) :
    s.assignable u = true ↔ ∃ a ∈ t.alternatives, s.assignable a = true := by
  rcases alternatives_of_normalized h with ⟨known, a, ha, absorbing⟩ | ⟨-, kept⟩
  · exact ⟨fun _ => ⟨a, ha, assignable_of_unknown absorbing⟩, fun _ => assignable_of_unknown known⟩
  · rw [single.assignable_iff_some, kept]
    constructor
    · rintro ⟨a, ha, accepts⟩
      exact ⟨a, mem_of_mem_merged ha, accepts⟩
    · rintro ⟨a, ha, accepts⟩
      obtain ⟨b, hb, equal⟩ := exists_equiv_mem_merged ha
      have swapped := (normal a ha).replaces (equiv_symm equal) s
      exact ⟨b, hb, swapped.target accepts⟩

omit normal in
theorem normalized_isKind_unknown_iff :
    u.isKind .unknown = true ↔ ∃ a ∈ t.alternatives, a.isKind .unknown = true := by
  rcases alternatives_of_normalized h with ⟨known, absorbing⟩ | ⟨others, kept⟩
  · exact ⟨fun _ => absorbing, fun _ => known⟩
  · constructor
    · intro known
      have inside : u ∈ u.alternatives := by simp [alternatives_of_unknown known]
      rw [kept] at inside
      exact ⟨u, mem_of_mem_merged inside, known⟩
    · rintro ⟨a, ha, known⟩
      rw [others a ha] at known
      cases known

end Normalizing

section Joining

variable {ts : List Tree} {u : Tree} (normal : ∀ t ∈ ts, t.Normal)
  (h : (node (.ofKind .union) ts).normalized = .ok u)

theorem alternatives_union (ts : List Tree) :
    (node (.ofKind .union) ts).alternatives = ts.flatMap alternatives := by
  rw [alternatives_eq]
  rfl

include normal in
theorem normal_of_mem_alternatives_union :
    ∀ a ∈ (node (.ofKind .union) ts).alternatives, a.Normal := by
  intro a ha
  rw [alternatives_union] at ha
  obtain ⟨t, ht, ha⟩ := List.mem_flatMap.1 ha
  exact (normal t ht).of_mem_alternatives ha

include normal h

theorem union_assignable_iff (target : Tree) :
    u.assignable target = true ↔ ∀ t ∈ ts, t.assignable target = true := by
  rw [normalized_assignable_iff (normal_of_mem_alternatives_union normal) h, alternatives_union]
  constructor
  · intro each t ht
    exact (assignable_iff_each t target).2 fun a ha => each a (List.mem_flatMap.2 ⟨t, ht, ha⟩)
  · intro each a ha
    obtain ⟨t, ht, ha⟩ := List.mem_flatMap.1 ha
    exact (assignable_iff_each t target).1 (each t ht) a ha

theorem assignable_union_iff (nonempty : ts ≠ []) {s : Tree} (single : s.isKind .union = false) :
    s.assignable u = true ↔ ∃ t ∈ ts, s.assignable t = true := by
  cases never : s.isKind .never with
  | true =>
      obtain ⟨t, ht⟩ := List.exists_mem_of_ne_nil ts nonempty
      exact ⟨fun _ => ⟨t, ht, assignable_of_never never⟩, fun _ => assignable_of_never never⟩
  | false =>
      cases known : s.isKind .unknown with
      | true =>
          simp only [assignable_of_unknown_iff known]
          rw [normalized_isKind_unknown_iff h, alternatives_union]
          constructor
          · rintro ⟨a, ha, top⟩
            obtain ⟨t, ht, ha⟩ := List.mem_flatMap.1 ha
            exact ⟨t, ht, (normal t ht).isKind_unknown_of_mem ha top⟩
          · rintro ⟨t, ht, top⟩
            refine ⟨t, List.mem_flatMap.2 ⟨t, ht, ?_⟩, top⟩
            rw [alternatives_of_unknown top]
            exact List.mem_singleton.2 rfl
      | false =>
          have alternative : s.IsAlternative := ⟨single, never, known⟩
          rw [assignable_normalized_iff (normal_of_mem_alternatives_union normal) h alternative,
            alternatives_union]
          constructor
          · rintro ⟨a, ha, accepts⟩
            obtain ⟨t, ht, ha⟩ := List.mem_flatMap.1 ha
            exact ⟨t, ht, (alternative.assignable_iff_some t).2 ⟨a, ha, accepts⟩⟩
          · rintro ⟨t, ht, accepts⟩
            obtain ⟨a, ha, accepts⟩ := (alternative.assignable_iff_some t).1 accepts
            exact ⟨a, List.mem_flatMap.2 ⟨t, ht, ha⟩, accepts⟩

end Joining

end Tree

namespace Descriptor

theorem tree_of_union {cap : Nat} {operands : List (Descriptor cap)} {d : Descriptor cap}
    (made : union operands = .ok d) :
    (Tree.node (.ofKind .union) (operands.map tree)).normalized = .ok d.tree := by
  obtain ⟨raw, collected, made⟩ := bind_eq_ok made
  obtain ⟨t, normalized, made⟩ := bind_eq_ok made
  rw [tree_of_ofTree made, ← (tree_of_ofNode collected).2, normalized]

/-- A union type is the join of its operands: it is assignable to exactly what takes all of them,
and takes a type that is no union exactly when one of them does. The operands may be unions, `never`,
`unknown` or equal to one another, and the other type may be stored at any capacity. -/
theorem union_is_join {cap : Nat} {operands : List (Descriptor cap)} {d : Descriptor cap}
    (nonempty : operands ≠ []) (each : ∀ o ∈ operands, o.Reachable) (made : union operands = .ok d) :
    (∀ {n : Nat} (t : Descriptor n),
      d.tree.assignable t.tree = true ↔ ∀ o ∈ operands, o.tree.assignable t.tree = true) ∧
    (∀ {n : Nat} (s : Descriptor n), s.tree.isKind .union = false →
      (s.tree.assignable d.tree = true ↔ ∃ o ∈ operands, s.tree.assignable o.tree = true)) := by
  have normal := normal_trees fun o ho => (each o ho).normal
  have normalized := tree_of_union made
  constructor
  · intro n t
    rw [Tree.union_assignable_iff normal normalized, List.forall_mem_map]
  · intro n s single
    have operand : operands.map tree ≠ [] := by simpa using nonempty
    rw [Tree.assignable_union_iff normal normalized operand single]
    simp only [List.mem_map, exists_exists_and_eq_and]

/-- Nested unions, `never` and repeated operands leave the join as it is. -/
theorem union_is_join_repeated :
    ∃ d : Descriptor 8, (do
      let text ← ofKind 8 .string
      let number ← ofKind 8 .number
      union [← union [text, number], ← ofKind 8 .never, number]) = .ok d ∧
      ∃ s : Descriptor 1, stringLiteral 1 (.ofString "a") = .ok s ∧
        ∃ t : Descriptor 2, object 2 [] = .ok t ∧
          s.tree.assignable d.tree = true ∧ d.tree.assignable t.tree = true := by
  apply exists_ok (by decide +kernel)
  intro d made
  refine exists_ok_of_test (fun s => s.tree.assignable (.ofKind .string) = true ∧
    s.tree.isKind .union = false) (by decide +kernel) fun s source known => ?_
  obtain ⟨fits, solid⟩ := of_decide_eq_true known
  refine exists_ok_of_test (fun t => ∀ kind ∈ [Kind.string, .number, .never],
    (Tree.ofKind kind).assignable t.tree = true) (by decide +kernel) fun t target known => ?_
  have takes := of_decide_eq_true known
  obtain ⟨text, ht, made⟩ := bind_eq_ok made
  obtain ⟨number, hn, made⟩ := bind_eq_ok made
  obtain ⟨either, he, made⟩ := bind_eq_ok made
  obtain ⟨never, hv, made⟩ := bind_eq_ok made
  obtain ⟨rt, textTree⟩ := Gives.holds ht (.knownKind rfl)
  obtain ⟨rn, numberTree⟩ := Gives.holds hn (.knownKind rfl)
  obtain ⟨rv, neverTree⟩ := Gives.holds hv (.knownKind rfl)
  have kinds : ∀ o ∈ [text, number], o.Reachable := by simp [rt, rn]
  have joined := Reachable.union kinds he
  have inner := union_is_join (List.cons_ne_nil _ _) kinds he
  have outer := union_is_join (List.cons_ne_nil _ _) (by simp [joined, rv, rn]) made
  constructor
  · refine (outer.2 s solid).2 ⟨either, List.mem_cons_self, ?_⟩
    refine (inner.2 s solid).2 ⟨text, List.mem_cons_self, ?_⟩
    rwa [textTree]
  · have first : either.tree.assignable t.tree = true := (inner.1 t).2 (by
      simp [textTree, numberTree, takes])
    exact (outer.1 t).2 (by simp [first, neverTree, numberTree, takes])

end Descriptor

end StructuralTypes
