import StructuralTypes.Arena.Layout
import StructuralTypes.Numeral
import StructuralTypes.Tree.Category
import StructuralTypes.Tree.Shape

/-!
# Type descriptors

A descriptor is a type in storage: an arena and the index of a root. What it describes is the tree
of its root. Every operation lays its result out anew, so that the arena holds the nodes of the
result alone, children before parents and the root last; it fails when the result has more nodes
than the capacity.
-/

namespace StructuralTypes

/-- A type stored in at most `cap` nodes. -/
structure Descriptor (cap : Nat) where
  arena : Arena cap
  root : Nat
  inside : root < arena.size

namespace Descriptor

variable {cap : Nat}

@[ext] theorem ext {a b : Descriptor cap} (ha : a.arena = b.arena) (hr : a.root = b.root) :
    a = b := by
  cases a; cases b; cases ha; cases hr; rfl

/-- The type that is described. -/
def tree (d : Descriptor cap) : Tree := d.arena.tree d.root

/-- Lay a tree out in an arena of its own. -/
def ofTree (cap : Nat) (t : Tree) : Except Fault (Descriptor cap) := do
  let b ← (Arena.empty : Arena cap).graft t
  return ⟨b.1, b.1.size - 1, by have := b.2; omega⟩

/-- Laying out succeeds if the tree fits, and is out of room otherwise. -/
theorem ofTree_total (cap : Nat) (t : Tree) :
    (t.size ≤ cap → ∃ d, ofTree cap t = .ok d) ∧
      (cap < t.size → ofTree cap t = .error .storageFull) := by
  obtain ⟨fits, full⟩ := Arena.graft_total t (.empty : Arena cap)
  have none : (Arena.empty : Arena cap).size = 0 := rfl
  constructor
  · intro h
    obtain ⟨b, hb⟩ := fits (by omega)
    exact ⟨_, by rw [ofTree, hb]; rfl⟩
  · intro h
    rw [ofTree, full (by omega)]
    rfl

/-- A laid out tree is stored in post-order with its root last. -/
theorem layout_of_ofTree {t : Tree} {d : Descriptor cap} (h : ofTree cap t = .ok d) :
    d.arena.nodes = (t.layout 0).toArray ∧ d.root + 1 = t.size := by
  obtain ⟨b, hb, h⟩ := bind_eq_ok h
  have nodes := Arena.nodes_graft t hb
  have size := Arena.size_graft hb
  cases h
  have none : (Arena.empty : Arena cap).size = 0 := rfl
  have := b.2
  exact ⟨by simpa [Arena.empty, Arena.size] using nodes, by simp only; omega⟩

/-- A laid out tree is the tree that is described. -/
theorem tree_of_ofTree {t : Tree} {d : Descriptor cap} (h : ofTree cap t = .ok d) : d.tree = t := by
  obtain ⟨b, hb, h⟩ := bind_eq_ok h
  cases h
  exact Arena.tree_graft t hb

/-- The descriptor of the type that a transformation makes of the tree. -/
def transform (d : Descriptor cap) (f : Tree → Except Fault Tree) :
    Except Fault (Descriptor cap) := do
  ofTree cap (← f d.tree)

/-- The descriptor of a stored node. -/
def extract (d : Descriptor cap) (i : Nat) : Except Fault (Descriptor cap) :=
  ofTree cap (d.arena.tree i)

/-- The descriptor of a child of the root, if there is one at that position. -/
def child? (d : Descriptor cap) (i : Nat) : Option (Except Fault (Descriptor cap)) :=
  d.tree.children[i]?.map (ofTree cap)

/-- The same type at another capacity. -/
def resize (d : Descriptor cap) (capacity : Nat) : Except Fault (Descriptor capacity) :=
  ofTree capacity d.tree

/-- The descriptor of a node over some trees, at most 16. -/
def ofNode (cap : Nat) (head : Head) (children : List Tree) : Except Fault (Descriptor cap) :=
  if 16 < children.length then .error .tooManyChildren else ofTree cap (.node head children)

/-- A node over the types of some descriptors. -/
def make (head : Head) (operands : List (Descriptor cap)) : Except Fault (Descriptor cap) :=
  ofNode cap head (operands.map tree)

/-- A node over some stored nodes. -/
def assemble (d : Descriptor cap) (head : Head) (ids : List Nat) : Except Fault (Descriptor cap) :=
  ofNode cap head (ids.map d.arena.tree)

end Descriptor

end StructuralTypes
