import StructuralTypes.Proofs.ObjectRoundTrip
import StructuralTypes.Proofs.UnionAlgebra

/-!
# Absorption by `unknown`

A union with `unknown` among its operands is `unknown`. It is normalized like any other union,
though: `unknown` is looked for among the leaves when they all have been collected, and takes one of
the 16 places itself. So it absorbs at most 15 others.
-/

namespace StructuralTypes

namespace Tree

/-- A tree of a kind that no other tree has is kept besides the others. -/
theorem length_firstOccurrences_cons {t : Tree} {ts : List Tree} {kind : Kind}
    (known : t.isKind kind = true) (others : ∀ u ∈ ts, u.isKind kind = false) :
    (firstOccurrences (t :: ts)).length = (firstOccurrences ts).length + 1 := by
  have kept : ∀ u ∈ firstOccurrences ts, (!t.equiv u) = true := by
    intro u hu
    rw [Bool.not_eq_true', Bool.eq_false_iff]
    intro same
    rw [← merged_eq_firstOccurrences] at hu
    rw [isKind_eq_of_equiv same, others u (mem_of_mem_merged hu)] at known
    cases known
  rw [firstOccurrences, List.filter_eq_self.2 kept, List.length_cons]

end Tree

namespace Descriptor

variable {cap : Nat} {operands : List (Descriptor cap)}

/-- The operands besides `unknown`. -/
def besidesUnknown (operands : List (Descriptor cap)) : List (Descriptor cap) :=
  operands.filter fun o => !o.tree.isKind .unknown

/-- The number of alternatives that some operands contribute to a union, equal ones counted once. -/
def contributed (operands : List (Descriptor cap)) : Nat :=
  (Tree.firstOccurrences (alternatives operands)).length

theorem unknown_of_ofKind {top : Descriptor cap} (made : ofKind cap .unknown = .ok top) :
    top.Reachable ∧ top.tree.isKind .unknown = true ∧ top.arena.size = 1 := by
  have reachable : top.Reachable := .ofKind rfl made
  have known := tree_of_ofTree made
  exact ⟨reachable, by rw [known]; rfl, by rw [reachable.normal.size_arena, known]; rfl⟩

theorem besidesUnknown_pair {d top : Descriptor cap} (proper : d.tree.isKind .unknown = false)
    (known : top.tree.isKind .unknown = true) : besidesUnknown [d, top] = [d] := by
  simp [besidesUnknown, proper, known]

section Collecting

theorem contributed_congr {order : List (Descriptor cap)} (h : ∀ o, o ∈ order ↔ o ∈ operands) :
    contributed order = contributed operands :=
  (sameSet_of_mem_iff h).length_firstOccurrences

/-- `unknown` is an alternative besides those of the other operands. -/
theorem mem_alternatives_of_unknown (normal : ∀ o ∈ operands, o.Normal)
    (unknown : ∃ o ∈ operands, o.tree.isKind .unknown = true) (t : Tree) :
    t ∈ alternatives operands ↔
      t ∈ Tree.ofKind .unknown :: alternatives (besidesUnknown operands) := by
  have single : ∀ o ∈ operands, o.tree.isKind .unknown = true →
      o.tree.alternatives = [.ofKind .unknown] := by
    intro o ho known
    rw [(normal o ho).type.eq_ofKind rfl known]
    rfl
  simp only [alternatives, besidesUnknown, List.mem_cons, List.mem_flatMap, List.mem_filter,
    Bool.not_eq_true']
  constructor
  · rintro ⟨o, ho, ht⟩
    cases known : o.tree.isKind .unknown with
    | true =>
        rw [single o ho known] at ht
        exact .inl (List.mem_singleton.1 ht)
    | false => exact .inr ⟨o, ⟨ho, known⟩, ht⟩
  · rintro (rfl | ⟨o, ⟨ho, -⟩, ht⟩)
    · obtain ⟨o, ho, known⟩ := unknown
      exact ⟨o, ho, by simp [single o ho known]⟩
    · exact ⟨o, ho, ht⟩

theorem isKind_unknown_besidesUnknown (normal : ∀ o ∈ operands, o.Normal) :
    ∀ t ∈ alternatives (besidesUnknown operands), t.isKind .unknown = false := by
  intro t ht
  obtain ⟨o, ho, ht⟩ := List.mem_flatMap.1 ht
  obtain ⟨ho, proper⟩ := List.mem_filter.1 ho
  rw [Bool.not_eq_true'] at proper
  apply Bool.eq_false_iff.2
  intro known
  exact Bool.eq_false_iff.1 proper ((normal o ho).type.isKind_unknown_of_mem ht known)

/-- `unknown` takes a place of its own. -/
theorem contributed_of_unknown (normal : ∀ o ∈ operands, o.Normal)
    (unknown : ∃ o ∈ operands, o.tree.isKind .unknown = true) :
    contributed operands = contributed (besidesUnknown operands) + 1 := by
  have same := Tree.SameSet.of_mem_iff (mem_alternatives_of_unknown normal unknown)
  calc contributed operands
      = (Tree.firstOccurrences
          (Tree.ofKind .unknown :: alternatives (besidesUnknown operands))).length :=
        same.length_firstOccurrences
    _ = contributed (besidesUnknown operands) + 1 :=
        Tree.length_firstOccurrences_cons rfl (isKind_unknown_besidesUnknown normal)

/-- All operands together have as many nodes as their arenas. -/
theorem sizeAll_trees (normal : ∀ o ∈ operands, o.Normal) :
    Tree.sizeAll (operands.map tree) = (operands.map fun o => o.arena.size).sum := by
  rw [Tree.sizeAll_eq_sum, List.map_map]
  congr 1
  exact List.map_congr_left fun o ho => (normal o ho).size_arena.symm

end Collecting

section Absorbing

variable (normal : ∀ o ∈ operands, o.Normal) (few : operands.length ≤ 16)
  (fits : (operands.map fun o => o.arena.size).sum < cap)

include normal few fits

/-- With room for its operands, a union fails just when they contribute more than 16 alternatives. -/
theorem union_total :
    (contributed operands ≤ 16 → ∃ u, union operands = .ok u ∧ u.Normal ∧
      Tree.IsUnionOf (Tree.firstOccurrences (alternatives operands)) u.tree) ∧
    (16 < contributed operands → union operands = .error .tooManyAlternatives) := by
  have stores := union_stores normal few (sizeAll_trees normal ▸ fits)
  have opened : (Tree.node (.ofKind .union) (operands.map tree)).leaves =
      Tree.firstOccurrences (alternatives operands) := by
    rw [Tree.leaves, Tree.alternatives_union, List.flatMap_map]
    rfl
  obtain ⟨room, full⟩ := (Tree.node (.ofKind .union) (operands.map tree)).normalized_total
  rw [opened] at room full
  constructor
  · intro fitting
    obtain ⟨t, made, known⟩ := room fitting
    rw [made] at stores
    obtain ⟨u, stored, normal, rfl⟩ := stores.exists_of_ok
    exact ⟨u, stored, normal, known⟩
  · intro many
    rw [full many] at stores
    exact stores.eq_error_iff.2 rfl

/-- `unknown` among the operands absorbs at most 15 others. -/
theorem union_of_unknown (unknown : ∃ o ∈ operands, o.tree.isKind .unknown = true) :
    (contributed (besidesUnknown operands) ≤ 15 → union operands = ofKind cap .unknown) ∧
    (15 < contributed (besidesUnknown operands) →
      union operands = .error .tooManyAlternatives) := by
  obtain ⟨room, full⟩ := union_total normal few fits
  rw [contributed_of_unknown normal unknown] at room full
  refine ⟨fun fitting => ?_, fun many => full (Nat.succ_lt_succ many)⟩
  obtain ⟨u, made, stored, known⟩ := room (Nat.succ_le_succ fitting)
  have absorbed : u.tree = .ofKind .unknown := by
    obtain ⟨o, ho, top⟩ := unknown
    have inside : o.tree ∈ alternatives operands :=
      List.mem_flatMap.2 ⟨o, ho, by simp [Tree.alternatives_of_unknown top]⟩
    obtain ⟨a, ha, same⟩ := Tree.exists_equiv_mem_merged inside
    rw [Tree.merged_eq_firstOccurrences] at ha
    apply known.eq_unknown ha
    rw [Tree.isKind_eq_of_equiv same, top]
  calc union operands
      = .ok u := made
    _ = ofTree cap u.tree := stored.laidOut.symm
    _ = ofKind cap .unknown := by rw [absorbed]; rfl

/-- The order of the operands makes no difference. -/
theorem union_of_unknown_perm (unknown : ∃ o ∈ operands, o.tree.isKind .unknown = true)
    {order : List (Descriptor cap)} (same : order.Perm operands) :
    (contributed (besidesUnknown operands) ≤ 15 → union order = ofKind cap .unknown) ∧
    (15 < contributed (besidesUnknown operands) → union order = .error .tooManyAlternatives) := by
  have others : contributed (besidesUnknown order) = contributed (besidesUnknown operands) :=
    contributed_congr fun o => (same.filter _).mem_iff
  rw [← others]
  apply union_of_unknown
  · exact fun o ho => normal o (same.mem_iff.1 ho)
  · exact same.length_eq ▸ few
  · rw [(same.map _).sum_eq]
    exact fits
  · obtain ⟨o, ho, known⟩ := unknown
    exact ⟨o, same.mem_iff.2 ho, known⟩

end Absorbing

/-- Operands that fit together, `unknown` among them, have `unknown` as their union, in any order,
as long as the others contribute at most 15 alternatives. Otherwise the union has too many. -/
theorem unknown_absorbs_fifteen (reachable : ∀ o ∈ operands, o.Reachable)
    (few : operands.length ≤ 16) (fits : (operands.map fun o => o.arena.size).sum + 1 ≤ cap)
    (unknown : ∃ o ∈ operands, o.tree.isKind .unknown = true) :
    ∃ top, ofKind cap .unknown = .ok top ∧ ∀ order : List (Descriptor cap), order.Perm operands →
      (contributed (besidesUnknown operands) ≤ 15 → union order = .ok top) ∧
      (15 < contributed (besidesUnknown operands) →
        union order = .error .tooManyAlternatives) := by
  have room : (Tree.ofKind .unknown).size ≤ cap := (Nat.le_add_left 1 _).trans fits
  obtain ⟨top, made⟩ := (ofTree_total cap _).1 room
  have normal : ∀ o ∈ operands, o.Normal := fun o ho => (reachable o ho).normal
  refine ⟨top, made, fun order same => ?_⟩
  obtain ⟨absorbs, full⟩ := union_of_unknown_perm normal few fits unknown same
  exact ⟨fun fitting => (absorbs fitting).trans made, full⟩

/-- `unknown` absorbs a union of 15 literals from either side. -/
theorem unknown_absorbs_fifteen_letters :
    ∃ wide : Descriptor 18, (do
      let letters := (Text.ofString "abcdefghijklmno").map fun c => [c]
      union (← letters.mapM (stringLiteral 18))) = .ok wide ∧
      ∃ top, ofKind 18 .unknown = .ok top ∧ union [wide, top] = .ok top ∧
        union [top, wide] = .ok top := by
  refine exists_ok_of_test (fun wide => wide.arena.size = 16 ∧ contributed [wide] = 15 ∧
    wide.tree.isKind .unknown = false) (by decide +kernel) ?_
  intro wide made known
  obtain ⟨size, fitting, proper⟩ := of_decide_eq_true known
  have built : wide.Reachable := Gives.holds made (.bind .stringLiterals fun _ => .union)
  apply exists_ok (by decide +kernel)
  intro top stored
  obtain ⟨reachable, known, single⟩ := unknown_of_ofKind stored
  have each : ∀ o ∈ [wide, top], o.Reachable := by simp [built, reachable]
  obtain ⟨top', same, absorbs⟩ := unknown_absorbs_fifteen each (by simp) (by simp [size, single])
    ⟨top, by simp, known⟩
  obtain rfl := Except.ok.inj (stored.symm.trans same)
  have few : contributed (besidesUnknown [wide, top]) ≤ 15 := by
    rw [besidesUnknown_pair proper known, fitting]
  exact ⟨(absorbs _ (.refl _)).1 few, (absorbs _ (.swap _ _ _)).1 few⟩

/-- A union of 16 literals is a type by itself, but `unknown` does not absorb it. -/
theorem unknown_beside_sixteen_letters :
    ∃ wide : Descriptor 64, (do
      let letters := (Text.ofString "abcdefghijklmnop").map fun c => [c]
      union (← letters.mapM (stringLiteral 64))) = .ok wide ∧ wide.Reachable ∧
      ∃ top : Descriptor 64, ofKind 64 .unknown = .ok top ∧ top.Reachable ∧
        wide.arena.size + top.arena.size ≤ 63 ∧
        union [wide, top] = .error .tooManyAlternatives ∧
        union [top, wide] = .error .tooManyAlternatives := by
  refine exists_ok_of_test (fun wide => wide.arena.size = 17 ∧ contributed [wide] = 16 ∧
    wide.tree.isKind .unknown = false) (by decide +kernel) ?_
  intro wide made known
  obtain ⟨size, many, proper⟩ := of_decide_eq_true known
  have built : wide.Reachable := Gives.holds made (.bind .stringLiterals fun _ => .union)
  refine ⟨built, ?_⟩
  apply exists_ok (by decide +kernel)
  intro top stored
  obtain ⟨reachable, known, single⟩ := unknown_of_ofKind stored
  have many : 15 < contributed (besidesUnknown [wide, top]) := by
    rw [besidesUnknown_pair proper known, many]
    decide
  have full : ∀ order : List (Descriptor 64), order.Perm [wide, top] →
      union order = .error .tooManyAlternatives := by
    intro order same
    apply (union_of_unknown_perm _ _ _ ⟨top, by simp, known⟩ same).2 many
    · simp [built.normal, reachable.normal]
    · simp
    · simp [size, single]
  exact ⟨reachable, by simp [size, single], full _ (.refl _), full _ (.swap _ _ _)⟩

end Descriptor

end StructuralTypes
