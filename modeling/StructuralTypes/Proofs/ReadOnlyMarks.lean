import StructuralTypes.Proofs.Substitution

/-!
# Assignability is blind to read-only marks

The members of a stored type may be marked as read-only, or not, at any depth: below parameters,
elements and alternatives as well. The types that result are alike, however they are marked, and
alike types replace one another.
-/

namespace StructuralTypes

namespace Arena

variable {cap : Nat}

/-- Set or clear the read-only marks of some stored members, chosen by index. -/
def remark (a : Arena cap) (marks : Nat → Option Bool) : Arena cap where
  nodes := a.nodes.mapIdx fun i node => ⟨node.head.remark (marks i), node.children⟩
  bounded := by
    rw [Array.size_mapIdx]
    exact a.bounded
  ordered := by
    intro i h c hc
    rw [Array.getElem_mapIdx] at hc
    rw [Array.size_mapIdx] at h
    exact a.ordered i h c hc

variable (a : Arena cap) (marks : Nat → Option Bool)

@[simp] theorem size_remark : (a.remark marks).size = a.size := Array.size_mapIdx

/-- Marks are all that changes in the trees of the nodes. -/
theorem unmarked_tree_remark {i : Nat} (h : i < a.size) :
    ((a.remark marks).tree i).unmarked = (a.tree i).unmarked := by
  induction i using Nat.strongRecOn with
  | _ i ih =>
      have h' : i < (a.remark marks).nodes.size := by
        rw [← size, size_remark]
        exact h
      have node : (a.remark marks).nodes[i] =
          ⟨a.nodes[i].head.remark (marks i), a.nodes[i].children⟩ := Array.getElem_mapIdx ..
      rw [tree_eq _ h', tree_eq a h, node, Tree.unmarked_node, Tree.unmarked_node,
        Head.unmarked_remark, List.map_map, List.map_map]
      congr 1
      refine List.map_congr_left fun c hc => ?_
      have earlier := a.ordered i h c hc
      exact ih c earlier (Nat.lt_trans earlier h)

end Arena

namespace Descriptor

variable {m n : Nat} {s : Descriptor m} {t : Descriptor n}

/-- Set or clear the read-only marks of some stored members, chosen by index. -/
def remark (d : Descriptor n) (marks : Nat → Option Bool) : Descriptor n :=
  ⟨d.arena.remark marks, d.root, (d.arena.size_remark marks).symm ▸ d.inside⟩

theorem alike_remark (d : Descriptor n) (marks : Nat → Option Bool) :
    d.tree.Alike (d.remark marks).tree :=
  .of_unmarked_eq (d.arena.unmarked_tree_remark marks d.inside).symm

/-- Assignability does not depend on which members are marked as read-only, on either side. -/
theorem assignable_remark (hs : s.Reachable) (ht : t.Reachable) (f g : Nat → Option Bool) :
    (s.remark f).tree.assignable (t.remark g).tree = s.tree.assignable t.tree := by
  have source := hs.normal.type.regular
  have target := ht.normal.type.regular
  calc (s.remark f).tree.assignable (t.remark g).tree
      = s.tree.assignable (t.remark g).tree :=
        (source.assignable_congr_source (alike_remark s f) _).symm
    _ = s.tree.assignable t.tree :=
        (target.assignable_congr_target (alike_remark t g) _).symm

/-- A parameter whose member is read-only stands for one whose member is not. -/
theorem assignable_remark_parameter :
    ∃ s : Descriptor 8, (do
      let member ← Member.make (.ofString "a") (← ofKind 8 .number) .none
      fn (← ofKind 8 .void) [← object 8 [member]]) = .ok s ∧
        (s.remark fun _ => some true).tree.assignable
          (s.remark fun _ => some false).tree = true := by
  apply exists_ok (by decide +kernel)
  intro s made
  have function : s.Reachable := Gives.holds made <| .member (.kind rfl) fun m hm =>
    .bind (.kind rfl) fun void hv => .bind (.object (List.forall_mem_singleton.2 hm))
      fun shape hs => .fn hv (List.forall_mem_singleton.2 hs)
  rw [assignable_remark function function]
  exact function.normal.type.assignable_of_equiv (Tree.equiv_refl _)

end Descriptor

end StructuralTypes
