import Mathlib.Algebra.GroupWithZero.Nat
import Mathlib.Data.List.Nodup
import Mathlib.Data.List.Perm.Subperm
import StructuralTypes.Proofs.Unfolding

/-!
# Storage without sharing

In an arena where no node is a child twice, a node has at most one parent. The walk below a node
then meets no index twice, and so a stored type has no more nodes than the arena. Sharing is what
lets a type unfold to more nodes than are stored.
-/

namespace StructuralTypes

theorem Tree.sizeAll_eq_sum (ts : List Tree) : Tree.sizeAll ts = (ts.map Tree.size).sum := by
  induction ts with
  | nil => rfl
  | cons t ts ih => rw [Tree.sizeAll, ih, List.map_cons, List.sum_cons]

namespace Arena

variable {cap : Nat} {a : Arena cap}

/-- No node is a child twice, neither of one node nor of two. -/
def Unshared (a : Arena cap) : Prop := (a.nodes.toList.flatMap Node.children).Nodup

instance (a : Arena cap) : Decidable a.Unshared :=
  inferInstanceAs (Decidable (a.nodes.toList.flatMap Node.children).Nodup)

section Walking

variable {i j : Nat}

theorem lt_of_mem_walk (h : j ∈ a.walk i) : i < a.nodes.size := by
  by_contra outside
  rw [walk, dif_neg outside] at h
  cases h

theorem mem_walk_iff (inside : i < a.nodes.size) :
    j ∈ a.walk i ↔ j = i ∨ ∃ c ∈ a.nodes[i].children, j ∈ a.walk c := by
  rw [a.walk_eq inside, List.mem_append, List.mem_flatMap, List.mem_singleton, or_comm]

theorem mem_walk_self (inside : i < a.nodes.size) : i ∈ a.walk i :=
  (mem_walk_iff inside).2 (.inl rfl)

theorem le_of_mem_walk (h : j ∈ a.walk i) : j ≤ i := by
  induction i using Nat.strongRecOn with
  | _ i ih =>
      have inside := lt_of_mem_walk h
      rcases (mem_walk_iff inside).1 h with rfl | ⟨c, hc, below⟩
      · exact Nat.le_refl j
      · have backward := a.ordered i inside c hc
        exact Nat.le_trans (ih c backward below) (Nat.le_of_lt backward)

/-- What is met on a walk below its start is met below a parent on the walk. -/
theorem exists_parent (h : j ∈ a.walk i) (start : j ≠ i) :
    ∃ p ∈ a.walk i, ∃ inside : p < a.nodes.size, j ∈ a.nodes[p].children := by
  induction i using Nat.strongRecOn with
  | _ i ih =>
      have inside := lt_of_mem_walk h
      rcases (mem_walk_iff inside).1 h with rfl | ⟨c, hc, below⟩
      · exact absurd rfl start
      · by_cases child : j = c
        · exact ⟨i, mem_walk_self inside, inside, child ▸ hc⟩
        · obtain ⟨p, hp, stored⟩ := ih c (a.ordered i inside c hc) below child
          exact ⟨p, (mem_walk_iff inside).2 (.inr ⟨c, hc, hp⟩), stored⟩

/-- The walk meets a node for every node of the unfolded tree. -/
theorem length_walk (inside : i < a.nodes.size) : (a.walk i).length = (a.tree i).size := by
  induction i using Nat.strongRecOn with
  | _ i ih =>
      have below : ∀ c ∈ a.nodes[i].children, (a.walk c).length = (a.tree c).size := fun c hc =>
        have backward := a.ordered i inside c hc
        ih c backward (Nat.lt_trans backward inside)
      calc (a.walk i).length
          = (a.nodes[i].children.map fun c => (a.walk c).length).sum + 1 := by
            rw [a.walk_eq inside, List.length_append, List.length_flatMap, List.length_singleton]
        _ = (a.nodes[i].children.map fun c => (a.tree c).size).sum + 1 := by
            rw [List.map_congr_left below]
        _ = (a.tree i).size := by
            rw [a.tree_eq inside, Tree.size, Tree.sizeAll_eq_sum, List.map_map]
            rfl

end Walking

namespace Unshared

variable (h : a.Unshared)

include h

/-- A node has at most one parent. -/
theorem parent_unique {i j c : Nat} (hi : i < a.nodes.size) (hj : j < a.nodes.size)
    (below : c ∈ a.nodes[i].children) (again : c ∈ a.nodes[j].children) : i = j := by
  have apart := List.pairwise_iff_getElem.1 (List.nodup_flatMap.1 h).2
  rcases Nat.lt_trichotomy i j with before | same | after
  · exact absurd again (apart i j hi hj before below)
  · exact same
  · exact absurd below (apart j i hj hi after again)

theorem nodup_children {i : Nat} (hi : i < a.nodes.size) : a.nodes[i].children.Nodup :=
  (List.nodup_flatMap.1 h).1 _ (Array.getElem_mem_toList hi)

/-- Two walks that meet somewhere have met all the way up to the earlier start. -/
theorem mem_walk_of_meet {b c j : Nat} (order : b ≤ c) (hb : j ∈ a.walk b) (hc : j ∈ a.walk c) :
    b ∈ a.walk c := by
  induction distance : b - j using Nat.strongRecOn generalizing j with
  | _ n ih =>
      subst distance
      have low := le_of_mem_walk hb
      by_cases start : j = b
      · exact start ▸ hc
      · obtain ⟨p, hp, inside, child⟩ := exists_parent hb start
        obtain ⟨q, hq, inside', child'⟩ := exists_parent hc (by omega)
        obtain rfl := h.parent_unique inside inside' child child'
        have backward := a.ordered p inside j child
        exact ih (b - p) (by omega) hp hq rfl

theorem disjoint_walk {i b c : Nat} (inside : i < a.nodes.size) (hb : b ∈ a.nodes[i].children)
    (hc : c ∈ a.nodes[i].children) (different : b ≠ c) : (a.walk b).Disjoint (a.walk c) := by
  -- A child that is met below another child has a second parent there.
  have apart {b c : Nat} (hb : b ∈ a.nodes[i].children) (hc : c ∈ a.nodes[i].children)
      (different : b ≠ c) (met : b ∈ a.walk c) : False := by
    obtain ⟨p, hp, inside', child⟩ := exists_parent met different
    obtain rfl := h.parent_unique inside inside' hb child
    have up := le_of_mem_walk hp
    have down := a.ordered i inside c hc
    omega
  intro j left right
  rcases Nat.le_total b c with order | order
  · exact apart hb hc different (h.mem_walk_of_meet order left right)
  · exact apart hc hb different.symm (h.mem_walk_of_meet order right left)

/-- Every node is met on one path at most. -/
theorem nodup_walk (i : Nat) : (a.walk i).Nodup := by
  induction i using Nat.strongRecOn with
  | _ i ih =>
      by_cases inside : i < a.nodes.size
      · rw [a.walk_eq inside]
        refine List.nodup_append.2 ⟨List.nodup_flatMap.2 ⟨?_, ?_⟩, List.nodup_singleton i, ?_⟩
        · exact fun c hc => ih c (a.ordered i inside c hc)
        · exact (h.nodup_children inside).imp_of_mem fun hb hc => h.disjoint_walk inside hb hc
        · intro j hj k hk same
          obtain ⟨c, hc, met⟩ := List.mem_flatMap.1 hj
          have up := le_of_mem_walk met
          have down := a.ordered i inside c hc
          have last := List.mem_singleton.1 hk
          omega
      · rw [walk, dif_neg inside]
        exact List.nodup_nil

/-- A type that is stored without sharing has no more nodes than are stored. -/
theorem size_tree_le {i : Nat} (inside : i < a.size) : (a.tree i).size ≤ a.size := by
  have within : a.walk i ⊆ List.range a.size := fun j hj =>
    List.mem_range.2 (Nat.lt_of_le_of_lt (le_of_mem_walk hj) inside)
  calc (a.tree i).size
      = (a.walk i).length := (length_walk inside).symm
    _ ≤ (List.range a.size).length := (List.subperm_of_subset (h.nodup_walk i) within).length_le
    _ = a.size := List.length_range

end Unshared

end Arena

end StructuralTypes
