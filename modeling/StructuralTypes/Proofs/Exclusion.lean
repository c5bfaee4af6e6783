import StructuralTypes.Proofs.UnionAlgebra

/-!
# The algebra of exclusion

Excluding a type keeps the alternatives that are not assignable to it. Since equal alternatives are
assignable to the same types, it makes no difference whether this is done before or after a union is
normalized. So exclusion is to unions what the difference is to sets.
-/

namespace StructuralTypes

namespace Tree

section Filtering

/-- A property that equal trees share picks the same first occurrences before and after. -/
theorem firstOccurrences_filter {p : Tree → Bool} {ts : List Tree}
    (shared : ∀ a ∈ ts, ∀ b, a.equiv b = true → p a = p b) :
    firstOccurrences (ts.filter p) = (firstOccurrences ts).filter p := by
  induction ts with
  | nil => rfl
  | cons t ts ih =>
      have ih := ih fun a ha => shared a (List.mem_cons_of_mem t ha)
      have first := shared t List.mem_cons_self
      cases kept : p t with
      | true =>
          rw [List.filter_cons_of_pos kept, firstOccurrences, firstOccurrences,
            List.filter_cons_of_pos kept, ih, List.filter_filter, List.filter_filter]
          simp only [Bool.and_comm]
      | false =>
          -- What equals `t` is dropped with it.
          have dropped : ∀ u, p u = true → t.equiv u = false := by
            intro u hu
            rw [Bool.eq_false_iff]
            intro same
            rw [first u same, hu] at kept
            cases kept
          rw [List.filter_cons_of_neg (by simp [kept]), firstOccurrences,
            List.filter_cons_of_neg (by simp [kept]), ih, List.filter_filter]
          refine List.filter_congr fun u _ => ?_
          cases hu : p u with
          | true => rw [dropped u hu]; rfl
          | false => rfl

theorem isKind_never_ofAlternatives_iff {ts : List Tree}
    (single : ∀ a ∈ ts, a.isKind .union = false ∧ a.isKind .never = false) :
    (ofAlternatives ts).isKind .never = true ↔ ts = [] := by
  match ts with
  | [] => exact ⟨fun _ => rfl, fun _ => rfl⟩
  | [a] =>
      change a.isKind .never = true ↔ _
      rw [(single a List.mem_cons_self).2]
      exact ⟨nofun, nofun⟩
  | _ :: _ :: _ => exact ⟨nofun, nofun⟩

end Filtering

namespace Normal

variable {t : Tree} (h : t.Normal) (u : Tree)

include h

theorem assignable_refl : t.assignable t = true := h.assignable_of_equiv (equiv_refl t)

/-- An alternative is assignable to the type. -/
theorem assignable_of_mem_alternatives {a : Tree} (ha : a ∈ t.alternatives) :
    a.assignable t = true :=
  (assignable_iff_each t t).1 h.assignable_refl a ha

/-- The alternatives that are left, in order. -/
theorem alternatives_exclude :
    (t.exclude u).alternatives = t.alternatives.filter fun a => !a.assignable u := by
  rw [h.exclude_eq_filter]
  exact alternatives_ofAlternatives fun a ha => isKind_of_mem_alternatives (List.mem_filter.1 ha).1

/-- Nothing is left of a type just if it is assignable. -/
theorem exclude_isKind_never_iff : (t.exclude u).isKind .never = true ↔ t.assignable u = true := by
  rw [h.exclude_eq_filter, isKind_never_ofAlternatives_iff, List.filter_eq_nil_iff,
    assignable_iff_each]
  · simp only [Bool.not_eq_true', Bool.not_eq_false]
  · exact fun a ha => isKind_of_mem_alternatives (List.mem_filter.1 ha).1

theorem exclude_assignable : (t.exclude u).assignable t = true := by
  rw [assignable_iff_each, h.alternatives_exclude]
  exact fun a ha => h.assignable_of_mem_alternatives (List.mem_filter.1 ha).1

theorem exclude_exclude : (t.exclude u).exclude u = t.exclude u := by
  rw [(h.exclude u).exclude_eq_filter, h.alternatives_exclude, List.filter_filter,
    h.exclude_eq_filter]
  simp only [Bool.and_self]

/-- What is left and what is excluded make up for the type. -/
theorem assignable_exclude_union (hu : u.Normal) {v : Tree}
    (joined : (node (.ofKind .union) [t.exclude u, u]).normalized = .ok v) :
    t.assignable v = true := by
  have normal : ∀ x ∈ [t.exclude u, u], x.Normal := by simp [h.exclude u, hu]
  rw [assignable_iff_each]
  intro a ha
  have single := (isKind_of_mem_alternatives ha).1
  rw [assignable_union_iff normal joined (List.cons_ne_nil _ _) single]
  cases excluded : a.assignable u with
  | true => exact ⟨u, by simp, excluded⟩
  | false =>
      have left : a ∈ (t.exclude u).alternatives := by
        rw [h.alternatives_exclude]
        exact List.mem_filter.2 ⟨ha, by rw [excluded]; rfl⟩
      exact ⟨_, List.mem_cons_self, (h.exclude u).assignable_of_mem_alternatives left⟩

end Normal

section Distribution

/-- The union of the leaves that are left is what is left of the union. -/
theorem IsUnionOf.exclude {ts : List Tree} {v x : Tree} (whole : IsUnionOf ts v)
    (single : ∀ a ∈ ts, a.isKind .union = false ∧ a.isKind .never = false) {u : Tree}
    (left : IsUnionOf (ts.filter fun a => !a.assignable u) x) :
    x = ofAlternatives (v.alternatives.filter fun a => !a.assignable u) := by
  rcases whole.absorbed_or_kept with ⟨rfl, a, inside, known⟩ | ⟨proper, rfl⟩
  · change x = ofAlternatives ([ofKind .unknown].filter fun a => !a.assignable u)
    cases target : u.isKind .unknown with
    | true =>
        have nothing (ts : List Tree) : ts.filter (fun a => !a.assignable u) = [] :=
          List.filter_eq_nil_iff.2 fun b _ => by simp [assignable_of_unknown target]
        rw [nothing] at left ⊢
        exact left.eq_ofAlternatives nofun
    | false =>
        have stays {b : Tree} (known : b.isKind .unknown = true) : (!b.assignable u) = true := by
          rw [not_assignable_of_unknown known target]
          rfl
        have kept : [ofKind .unknown].filter (fun a => !a.assignable u) = [ofKind .unknown] :=
          List.filter_eq_self.2 (List.forall_mem_singleton.2 (stays rfl))
        rw [kept]
        exact left.eq_unknown (List.mem_filter.2 ⟨inside, stays known⟩) known
  · rw [alternatives_ofAlternatives single]
    exact left.eq_ofAlternatives fun a ha => proper a (List.mem_filter.1 ha).1

/-- Excluding from the alternatives and then normalizing gives what is left of the normal form. -/
theorem normalized_exclude {t v w : Tree} (normal : ∀ a ∈ t.alternatives, a.Normal)
    (h : t.normalized = .ok v) (u : Tree)
    (left : w.alternatives = t.alternatives.filter fun a => !a.assignable u) :
    w.normalized = .ok (v.exclude u) := by
  obtain ⟨few, whole⟩ := isUnionOf_of_normalized h
  have leaves : w.leaves = t.leaves.filter fun a => !a.assignable u := by
    rw [Tree.leaves, left]
    refine firstOccurrences_filter fun a ha b same => ?_
    rw [(normal a ha).regular.assignable_congr_source (.of_equiv same)]
  obtain ⟨x, result, known⟩ : ∃ x, w.normalized = .ok x ∧ IsUnionOf w.leaves x := by
    apply w.normalized_total.1
    rw [leaves]
    exact (List.length_filter_le _ _).trans few
  rw [leaves] at known
  rw [result, (normal_normalized normal h).exclude_eq_filter, whole.exclude _ known]
  exact fun a ha => isKind_of_mem_alternatives (mem_alternatives_of_mem_leaves ha)

/-- A union without what is excluded is the union of what is left of the operands. -/
theorem exclude_union {ts : List Tree} {v : Tree} (normal : ∀ t ∈ ts, t.Normal)
    (h : (node (.ofKind .union) ts).normalized = .ok v) (u : Tree) :
    (node (.ofKind .union) (ts.map (·.exclude u))).normalized = .ok (v.exclude u) := by
  apply normalized_exclude (normal_of_mem_alternatives_union normal) h
  rw [alternatives_union, alternatives_union, List.flatMap_map, List.filter_flatMap]
  exact List.flatMap_congr fun t ht => (normal t ht).alternatives_exclude u

end Distribution

end Tree

namespace Descriptor

variable {cap : Nat}

/-- What is left of a type `t` without the alternatives that are assignable to `u`. -/
structure Excludes (t u e : Descriptor cap) : Prop where
  made : t.exclude u = .ok e
  alternatives : e.tree.alternatives = t.tree.alternatives.filter fun a => !a.assignable u.tree
  never : e.tree.isKind .never = true ↔ t.tree.assignable u.tree = true
  smaller : e.tree.assignable t.tree = true
  again : e.exclude u = .ok e
  whole : ∀ d, union [e, u] = .ok d → t.tree.assignable d.tree = true

namespace Normal

variable {d : Descriptor cap}

theorem alternatives_eq (h : d.Normal) : d.tree.alternatives =
    if d.tree.isKind .union then d.tree.children
    else if d.tree.isKind .never then [] else [d.tree] := by
  cases union : d.tree.isKind .union with
  | true => rw [if_pos rfl, h.type.alternatives_of_union union]
  | false => rw [Tree.alternatives_eq, union]; rfl

theorem exists_exclude (h : d.Normal) {u : Descriptor cap} (hu : u.Normal) :
    ∃ e, Excludes d u e := by
  have small := (Tree.size_exclude_le d.tree u.tree).trans h.size_le
  obtain ⟨e, made, normal, same⟩ := (Stores.ofTree (h.type.exclude u.tree) small).exists_of_ok
  refine ⟨e, made, ?_, ?_, ?_, ?_, ?_⟩
  · rw [same, h.type.alternatives_exclude]
  · rw [same, h.type.exclude_isKind_never_iff]
  · rw [same, h.type.exclude_assignable]
  · rw [exclude, same, h.type.exclude_exclude, ← same, normal.laidOut]
  · intro d joined
    apply h.type.assignable_exclude_union u.tree hu.type
    rw [← same]
    exact tree_of_union joined

end Normal

section Distribution

variable {c : Descriptor cap}

/-- A union is built only if all its operands fit together. -/
theorem room_of_union {operands : List (Descriptor cap)} (made : union operands = .ok c) :
    operands.length ≤ 16 ∧ Tree.sizeAll (operands.map tree) < cap := by
  obtain ⟨raw, collected, -⟩ := bind_eq_ok made
  obtain ⟨few, -⟩ := tree_of_ofNode collected
  rw [make, ofNode, if_neg (Nat.not_lt.2 few)] at collected
  have fits := size_le_of_ofTree collected
  rw [Tree.size_eq] at fits
  rw [List.length_map] at few
  exact ⟨few, fits⟩

/-- What is left of a union is the union of what is left of its operands. -/
theorem union_of_excludes {u e : Descriptor cap} {pairs : List (Descriptor cap × Descriptor cap)}
    (normal : ∀ p ∈ pairs, p.1.Normal) (each : ∀ p ∈ pairs, p.1.exclude u = .ok p.2)
    (made : union (pairs.map Prod.fst) = .ok c) (left : c.exclude u = .ok e) :
    union (pairs.map Prod.snd) = .ok e := by
  have trees : (pairs.map Prod.snd).map tree =
      ((pairs.map Prod.fst).map tree).map (·.exclude u.tree) := by
    simp only [List.map_map]
    exact List.map_congr_left fun p hp => tree_of_ofTree (each p hp)
  have smaller : Tree.sizeAll ((pairs.map Prod.snd).map tree) ≤
      Tree.sizeAll ((pairs.map Prod.fst).map tree) := by
    rw [trees, Tree.sizeAll_eq_sum, Tree.sizeAll_eq_sum, List.map_map]
    exact List.sum_le_sum fun t _ => Tree.size_exclude_le t u.tree
  obtain ⟨few, room⟩ := room_of_union made
  have normal' : ∀ o ∈ pairs.map Prod.fst, o.Normal := List.forall_mem_map.2 normal
  have stores : Stores (union (pairs.map Prod.snd)) (.ok (c.tree.exclude u.tree)) := by
    rw [← Tree.exclude_union (normal_trees normal') (tree_of_union made), ← trees]
    apply union_stores
    · exact List.forall_mem_map.2 fun p hp => normal_exclude (normal p hp) (each p hp)
    · simpa using few
    · exact smaller.trans_lt room
  obtain ⟨d, joined, stored, same⟩ := stores.exists_of_ok
  calc union (pairs.map Prod.snd)
      = .ok d := joined
    _ = ofTree cap d.tree := stored.laidOut.symm
    _ = c.exclude u := by rw [same, exclude]
    _ = .ok e := left

end Distribution

/-- Excluding a type never fails. It leaves the alternatives that are not assignable, in order, and
nothing just if all are. What is left is assignable to the type, loses nothing when the same is
excluded again, and makes up for the type together with what is excluded. What is left of a union is
the union of what is left of its operands, node for node. -/
theorem exclusion_is_difference :
    (∀ {cap : Nat} (t : Descriptor cap), t.Reachable → t.tree.alternatives =
      if t.tree.isKind .union then t.tree.children
      else if t.tree.isKind .never then [] else [t.tree]) ∧
    (∀ {cap : Nat} (t u : Descriptor cap), t.Reachable → u.Reachable → ∃ e, Excludes t u e) ∧
    (∀ {cap : Nat} (a b u c : Descriptor cap), a.Reachable → b.Reachable → u.Reachable →
      union [a, b] = .ok c → ∃ left right rest, a.exclude u = .ok left ∧ b.exclude u = .ok right ∧
        c.exclude u = .ok rest ∧ union [left, right] = .ok rest) := by
  refine ⟨fun t h => h.normal.alternatives_eq, fun t u ht hu => ?_, fun a b u c ha hb hu made => ?_⟩
  · exact ht.normal.exists_exclude hu.normal
  · have hc : c.Normal := normal_union (by simp [ha.normal, hb.normal]) made
    obtain ⟨left, first⟩ := ha.normal.exists_exclude hu.normal
    obtain ⟨right, second⟩ := hb.normal.exists_exclude hu.normal
    obtain ⟨rest, whole⟩ := hc.exists_exclude hu.normal
    refine ⟨left, right, rest, first.made, second.made, whole.made, ?_⟩
    have joined : union ([(a, left), (b, right)].map Prod.fst) = .ok c := made
    refine union_of_excludes ?_ ?_ joined whole.made
    · simp [ha.normal, hb.normal]
    · simp [first.made, second.made]

/-- Of a literal or a number, and of the union of it and its widening, the number is left. -/
theorem exclusion_is_difference_widened :
    ∃ u : Descriptor 8, ofKind 8 .string = .ok u ∧ ∃ t : Descriptor 8, (do
      union [← stringLiteral 8 (.ofString "a"), ← ofKind 8 .number]) = .ok t ∧
      (∃ e, Excludes t u e ∧ e.tree.isKind .number = true) ∧ ∃ c : Descriptor 8, (do
        union [← union [← stringLiteral 8 (.ofString "a"), ← ofKind 8 .number],
          ← ofKind 8 .string]) = .ok c ∧
        ∃ left right rest, t.exclude u = .ok left ∧ u.exclude u = .ok right ∧
          c.exclude u = .ok rest ∧ union [left, right] = .ok rest := by
  obtain ⟨-, difference, distribution⟩ := exclusion_is_difference
  apply exists_ok (by decide +kernel)
  intro u hu
  refine exists_ok_of_test (fun t => (t.tree.exclude (.ofKind .string)).isKind .number)
    (by decide +kernel) ?_
  intro t ht known
  obtain ⟨literal, hl, made⟩ := bind_eq_ok ht
  obtain ⟨number, hn, made⟩ := bind_eq_ok made
  have operands : ∀ o ∈ [literal, number], o.Reachable := by
    simp [Reachable.stringLiteral hl, Reachable.ofKind rfl hn]
  have source : t.Reachable := .union operands made
  have target : u.Reachable := .ofKind rfl hu
  constructor
  · obtain ⟨e, excludes⟩ := difference t u source target
    refine ⟨e, excludes, ?_⟩
    rwa [tree_of_ofTree excludes.made, tree_of_ofTree hu]
  · apply exists_ok (by decide +kernel)
    intro c joined
    rw [hl, hn, hu] at joined
    change (do union [← union [literal, number], u]) = .ok c at joined
    rw [made] at joined
    exact distribution t u u c source target target joined

end Descriptor

end StructuralTypes
