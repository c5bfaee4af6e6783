import StructuralTypes.Tree

/-!
# Node storage

An arena stores nodes in a row. The children of a node are indices of earlier nodes, so every stored
node unfolds to a finite tree, and one node may be a child of several others. An arena of capacity
`cap` never has more than `cap` nodes.
-/

namespace StructuralTypes

/-- A stored node: its children are given by index. -/
structure Node where
  head : Head
  children : List Nat
deriving DecidableEq

instance : Inhabited Node := ⟨⟨default, []⟩⟩

/-- The tree of a node whose children unfold to the trees listed at their indices. -/
def Node.unfold (seen : Array Tree) (node : Node) : Tree :=
  .node node.head (node.children.map fun c => seen[c]?.getD default)

/-- At most `cap` nodes in order of storage, every child before its parent. -/
structure Arena (cap : Nat) where
  nodes : Array Node
  bounded : nodes.size ≤ cap
  ordered : ∀ i (h : i < nodes.size), ∀ c ∈ nodes[i].children, c < i

namespace Arena

variable {cap : Nat}

@[ext] theorem ext {a b : Arena cap} (h : a.nodes = b.nodes) : a = b := by
  cases a; cases b; cases h; rfl

/-- The arena without nodes. -/
def empty : Arena cap := ⟨#[], Nat.zero_le _, fun _ h => absurd h (Nat.not_lt_zero _)⟩

/-- The number of nodes. -/
def size (a : Arena cap) : Nat := a.nodes.size

/-- Store a node behind the others. -/
def push (a : Arena cap) (node : Node) (known : ∀ c ∈ node.children, c < a.size) :
    Except Fault { b : Arena cap // b.size = a.size + 1 } :=
  if room : a.size < cap then
    .ok ⟨{
      nodes := a.nodes.push node
      bounded := by rw [Array.size_push]; exact room
      ordered := by
        intro i h c hc
        rw [Array.size_push] at h
        rw [Array.getElem_push] at hc
        split at hc
        · next hi => exact a.ordered i hi c hc
        · next hi =>
          have : c < a.nodes.size := known c hc
          omega }, by simp [size]⟩
  else .error .storageFull

/-- Store a node that has a tag alone and at most 16 children. -/
def pushTagged (a : Arena cap) (tag : Text) (children : List Nat)
    (known : ∀ c ∈ children, c < a.size) :
    Except Fault { b : Arena cap // b.size = a.size + 1 } := do
  if 16 < children.length then .error .tooManyChildren
  else a.push ⟨← Head.ofTexts tag [] .none, children⟩ known

/-- An arena that grew out of `a`, and indices into it. -/
structure Extension (a : Arena cap) where
  arena : Arena cap
  roots : List Nat
  grown : a.size ≤ arena.size
  known : ∀ c ∈ roots, c < arena.size

theorem Extension.known_cons {a b : Arena cap} (e : Extension b) (h : a.size < b.size) :
    ∀ c ∈ (b.size - 1) :: e.roots, c < e.arena.size := by
  intro c hc
  rcases List.mem_cons.1 hc with rfl | hc
  · have := e.grown
    omega
  · exact e.known c hc

mutual

/-- Store a tree behind the other nodes, children before parents. Its root is the last node. -/
def graft (a : Arena cap) : Tree → Except Fault { b : Arena cap // a.size < b.size }
  | .node head children => do
    let e ← a.graftAll children
    let b ← e.arena.push ⟨head, e.roots⟩ e.known
    return ⟨b.1, Nat.lt_of_lt_of_eq (Nat.lt_succ_of_le e.grown) b.2.symm⟩

/-- Store some trees one after the other; the indices are those of their roots. -/
def graftAll (a : Arena cap) : List Tree → Except Fault (Extension a)
  | [] => .ok ⟨a, [], Nat.le_refl _, fun _ h => absurd h List.not_mem_nil⟩
  | t :: ts => do
    let b ← a.graft t
    let e ← b.1.graftAll ts
    return {
      arena := e.arena
      roots := (b.1.size - 1) :: e.roots
      grown := Nat.le_trans (Nat.le_of_lt b.2) e.grown
      known := e.known_cons b.2 }

end

/-- The trees of all nodes in order of storage. A shared node is unfolded once. -/
def trees (a : Arena cap) : Array Tree :=
  a.nodes.foldl (fun seen node => seen.push (node.unfold seen)) #[]

private theorem unfold_push {seen : Array Tree} {node : Node} (t : Tree)
    (h : ∀ c ∈ node.children, c < seen.size) :
    node.unfold (seen.push t) = node.unfold seen := by
  unfold Node.unfold
  refine congrArg _ (List.map_congr_left fun c hc => ?_)
  rw [Array.getElem?_push_lt (h c hc), Array.getElem?_eq_getElem (h c hc)]

private theorem trees_spec (a : Arena cap) :
    a.trees.size = a.nodes.size ∧
      ∀ i (h : i < a.nodes.size), a.trees[i]? = some (a.nodes[i].unfold a.trees) := by
  refine Array.foldl_induction
    (motive := fun k seen => seen.size = k ∧
      ∀ i (h : i < a.nodes.size), i < k → seen[i]? = some (a.nodes[i].unfold seen))
    ⟨rfl, by simp⟩ ?_ |>.imp id fun h i hi => h i hi hi
  intro k seen ⟨hs, hu⟩
  refine ⟨by simp [hs], fun i hi hk => ?_⟩
  have below : ∀ c ∈ a.nodes[i].children, c < seen.size := fun c hc => by
    have := a.ordered i hi c hc
    omega
  rw [unfold_push _ below]
  by_cases hik : i < k.val
  · rw [Array.getElem?_push_lt (by omega), ← hu i hi hik, Array.getElem?_eq_getElem]
  · obtain rfl : i = k.val := by omega
    simp [← hs]

@[simp] theorem size_trees (a : Arena cap) : a.trees.size = a.size := (trees_spec a).1

/-- The tree of a stored node. -/
def tree (a : Arena cap) (i : Nat) : Tree := a.trees[i]?.getD default

/-- A stored node unfolds to its head over the trees of its children. -/
theorem tree_eq (a : Arena cap) {i : Nat} (h : i < a.nodes.size) :
    a.tree i = .node a.nodes[i].head (a.nodes[i].children.map a.tree) := by
  rw [tree, (trees_spec a).2 i h]
  rfl

end Arena

end StructuralTypes
