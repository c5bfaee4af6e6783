import Mathlib.Data.List.Forall2
import StructuralTypes.Arena.Layout

/-!
# Unfolding and walking stored nodes

A stored node unfolds to one tree, however many nodes share a subtree. The walk below a node lists
the indices that are met on the way, children before their parent and a shared node once for every
path to it. The walk below the root of a laid out tree counts up from zero: every node is met
exactly once, and the order of storage is the order of the walk.
-/

namespace StructuralTypes.Arena

variable {cap : Nat} (a : Arena cap)

/-- The tree that is read off from a stored node by following indices. -/
inductive Unfolds : Nat → Tree → Prop
  | node {i : Nat} {ts : List Tree} (inside : i < a.nodes.size)
      (children : List.Forall₂ Unfolds a.nodes[i].children ts) :
      Unfolds i (.node a.nodes[i].head ts)

/-- Every stored node unfolds to its tree and to no other. -/
theorem unfolds_iff {i : Nat} {t : Tree} : a.Unfolds i t ↔ i < a.size ∧ t = a.tree i := by
  induction i using Nat.strongRecOn generalizing t with
  | _ i ih =>
      constructor
      · rintro ⟨inside, children⟩
        refine ⟨inside, ?_⟩
        rw [a.tree_eq inside]
        have same : List.Forall₂ (fun c u => a.tree c = u) a.nodes[i].children _ :=
          ((List.forall₂_and_left _ _).2 ⟨a.ordered i inside, children⟩).imp fun c u ⟨below, h⟩ =>
            (((ih c below).1 h).2).symm
        rw [← List.forall₂_map_left_iff, List.forall₂_eq_eq_eq] at same
        rw [same]
      · rintro ⟨inside, rfl⟩
        rw [a.tree_eq inside]
        refine .node inside (List.forall₂_map_right_iff.2 (List.forall₂_same.2 fun c hc => ?_))
        have below := a.ordered i inside c hc
        exact (ih c below).2 ⟨Nat.lt_trans below inside, rfl⟩

/-- The indices met below a node, children before their parent. -/
def walk (i : Nat) : List Nat :=
  if h : i < a.nodes.size then
    (a.nodes[i].children.attach.flatMap fun c => walk c.1) ++ [i]
  else []
termination_by i
decreasing_by exact a.ordered i h c.1 c.2

theorem walk_eq {i : Nat} (h : i < a.nodes.size) :
    a.walk i = a.nodes[i].children.flatMap a.walk ++ [i] := by
  rw [walk, dif_pos h]
  simp

/-- What holds of the tree of a node, and passes from a tree to the trees below its root, holds of
the tree of every node that is met below it. -/
theorem forall_mem_walk {motive : Tree → Prop}
    (inherited : ∀ t, motive t → ∀ c ∈ t.children, motive c) {i : Nat} (start : motive (a.tree i)) :
    ∀ j ∈ a.walk i, motive (a.tree j) := by
  induction i using Nat.strongRecOn with
  | _ i ih =>
      intro j hj
      by_cases inside : i < a.nodes.size
      · rw [a.walk_eq inside, List.mem_append, List.mem_flatMap, List.mem_singleton] at hj
        rcases hj with ⟨c, hc, hj⟩ | rfl
        · refine ih c (a.ordered i inside c hc) (inherited _ start _ ?_) j hj
          rw [a.tree_eq inside, Tree.children_node]
          exact List.mem_map_of_mem hc
        · exact start
      · rw [walk, dif_neg inside] at hj
        cases hj

mutual

/-- The walk below the root of a tree that is laid out from index `base` on meets its nodes in order
of storage. -/
theorem walk_of_layout {base : Nat} (t : Tree) (before after : List Node)
    (start : before.length = base) (h : a.nodes.toList = before ++ t.layout base ++ after) :
    a.walk (base + t.size - 1) = List.range' base t.size := by
  match t with
  | .node head children =>
    rw [Tree.layout] at h
    have below := flatMap_walk_of_layoutAll children before
      ([⟨head, Tree.layoutRoots base children⟩] ++ after) start (by simpa using h)
    have stored : a.nodes[base + Tree.sizeAll children]? =
        some ⟨head, Tree.layoutRoots base children⟩ := by
      rw [← Array.getElem?_toList, h]
      simp [start]
    obtain ⟨inside, same⟩ := Array.getElem?_eq_some_iff.1 stored
    rw [Tree.size, ← Nat.add_assoc, Nat.add_sub_cancel, a.walk_eq inside, same, below,
      List.range'_concat, Nat.one_mul]

theorem flatMap_walk_of_layoutAll {base : Nat} (ts : List Tree) (before after : List Node)
    (start : before.length = base)
    (h : a.nodes.toList = before ++ Tree.layoutAll base ts ++ after) :
    (Tree.layoutRoots base ts).flatMap a.walk = List.range' base (Tree.sizeAll ts) := by
  match ts with
  | [] => rfl
  | t :: ts =>
    rw [Tree.layoutAll] at h
    have first := walk_of_layout t before (Tree.layoutAll (base + t.size) ts ++ after) start
      (by simpa using h)
    have shifted : (before ++ t.layout base).length = base + t.size := by simp [start]
    have rest := flatMap_walk_of_layoutAll ts (before ++ t.layout base) after shifted
      (by simpa using h)
    rw [Tree.layoutRoots, List.flatMap_cons, first, rest, Tree.sizeAll, List.range'_append_1]

end

end StructuralTypes.Arena
