import StructuralTypes.Proofs.RawShapes

/-!
# Marks in place

Changing the modifiers of the children of a root leaves the layout of the type as it is, apart from
the heads of the nodes that are the roots of these children.
-/

namespace StructuralTypes

/-- The node with other modifiers. -/
def Node.mark (f : Head → Modifiers) (node : Node) : Node :=
  { node with head := { node.head with modifiers := f node.head } }

namespace Tree

theorem bounds_of_mem_layoutRoots {base c : Nat} {ts : List Tree} (h : c ∈ layoutRoots base ts) :
    base ≤ c ∧ c < base + sizeAll ts := by
  induction ts generalizing base with
  | nil => cases h
  | cons t ts ih =>
      have := t.size_pos
      rw [sizeAll]
      rcases List.mem_cons.1 h with rfl | h
      · omega
      · have := ih h
        omega

variable (f : Head → Modifiers)

/-- The root of a tree is its last node, and changes alone. -/
theorem getElem?_layout_withModifiers (base : Nat) (t : Tree) (i : Nat) :
    ((t.withModifiers (f t.head)).layout base)[i]? =
      (t.layout base)[i]?.map fun node => if i + 1 = t.size then node.mark f else node := by
  obtain ⟨head, children⟩ := t
  rw [withModifiers, layout, layout, size, children_node, List.getElem?_append,
    List.getElem?_append, length_layoutAll]
  rcases Nat.lt_trichotomy i (sizeAll children) with below | rfl | beyond
  · rw [if_pos below, if_pos below]
    simp [below.ne]
  · simp [Node.mark]
  · have none : i - sizeAll children ≠ 0 := by omega
    rw [if_neg beyond.not_gt, if_neg beyond.not_gt]
    simp [none]

/-- Of some trees that are laid out, the roots change alone. -/
theorem getElem?_layoutAll_withModifiers (base : Nat) (ts : List Tree) (i : Nat) :
    (layoutAll base (ts.map fun t => t.withModifiers (f t.head)))[i]? =
      (layoutAll base ts)[i]?.map fun node =>
        if base + i ∈ layoutRoots base ts then node.mark f else node := by
  induction ts generalizing base i with
  | nil => rfl
  | cons t ts ih =>
      have same : (t.withModifiers (f t.head)).size = t.size := Arena.size_withModifiers t _
      have first := getElem?_layout_withModifiers f base t i
      rw [List.map_cons, layoutAll, layoutAll, layoutRoots, same, List.getElem?_append,
        List.getElem?_append, length_layout, length_layout, same]
      split
      · next inside =>
        have root : base + i ∈ (base + t.size - 1) :: layoutRoots (base + t.size) ts ↔
            i + 1 = t.size := by
          constructor
          · intro h
            rcases List.mem_cons.1 h with h | h
            · omega
            · have := bounds_of_mem_layoutRoots h
              omega
          · intro h
            rw [show base + i = base + t.size - 1 by omega]
            exact List.mem_cons_self
        simp only [root]
        exact first
      · next behind =>
        have shift : base + t.size + (i - t.size) = base + i := by omega
        have other : base + i ≠ base + t.size - 1 := by
          have := t.size_pos
          omega
        rw [ih, shift]
        simp only [List.mem_cons, other, false_or]

end Tree

namespace Descriptor

variable {cap : Nat} {d e : Descriptor cap}

/-- A type is stored like another one, apart from the modifiers of the children of the root. -/
structure MarkedAs (d e : Descriptor cap) (f : Head → Modifiers) : Prop where
  root : e.root = d.root
  nodes : ∀ i, e.arena.nodes[i]? = d.arena.nodes[i]?.map fun node =>
    if i ∈ (d.arena.node d.root).children then node.mark f else node

/-- Changing the modifiers of the children of a type that is laid out changes no other nodes. -/
theorem markedAs_of_ofTree {t : Tree} (f : Head → Modifiers) (stored : ofTree cap t = .ok d)
    (made : ofTree cap (t.mapModifiers fun m => f m.head) = .ok e) : MarkedAs d e f := by
  obtain ⟨nodes, root⟩ := nodes_of_ofTree stored
  obtain ⟨nodes', root'⟩ := nodes_of_ofTree made
  have below : (d.arena.node d.root).children = Tree.layoutRoots 0 t.children := by
    rw [node_root_of_ofTree stored]
    rfl
  have size : (Tree.layoutAll 0 (t.mapModifiers fun m => f m.head).children).length =
      Tree.sizeAll t.children := by
    rw [Tree.length_layoutAll]
    exact Tree.sizeAll_mapModifiers t.children _
  have same : rootNode (t.mapModifiers fun m => f m.head) = rootNode t :=
    congrArg (Node.mk t.head) (Arena.layoutRoots_withModifiers f 0 t.children)
  refine ⟨?_, fun i => ?_⟩
  · rw [root, root']
    exact Tree.sizeAll_mapModifiers t.children _
  · have inner := Tree.getElem?_layoutAll_withModifiers f 0 t.children i
    rw [Nat.zero_add] at inner
    rw [nodes, nodes', below, List.getElem?_toArray, List.getElem?_toArray, List.getElem?_append,
      List.getElem?_append, size, Tree.length_layoutAll, same]
    by_cases inside : i < Tree.sizeAll t.children
    · rw [if_pos inside, if_pos inside]
      exact inner
    · -- The root itself is not one of its children.
      have other : i ∉ Tree.layoutRoots 0 t.children := fun hi =>
        inside (by simpa using (Tree.bounds_of_mem_layoutRoots hi).2)
      rw [if_neg inside, if_neg inside]
      simp [other]

end Descriptor

end StructuralTypes
