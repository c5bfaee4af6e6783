import StructuralTypes.Descriptor
import StructuralTypes.Proofs.Outcomes
import StructuralTypes.Tree.Equality
import StructuralTypes.Tree.Rendering

/-!
# Procedures that follow indices

Stored types are copied, compared and rendered in place: the procedures follow the indices of
children, and a shared node is visited again on every path to it. They come to an end because
children precede their parents. Each of them gives what is defined on the unfolded trees. A node
that is shown through its first child has to have one, and there is no answer where it has none.
-/

namespace StructuralTypes

/-- Nodes of this tag are read through their first child. -/
def Tag.readsFirst : Tag → Bool
  | .known .fn | .known .ctor | .known .array | .known .member => true
  | _ => false

/-- Every node below that is read through its first child has one, and so has every child of an
object. -/
inductive Tree.Complete : Tree → Prop
  | node {head : Head} {children : List Tree}
      (first : head.tag.readsFirst = true → children ≠ [])
      (members : head.tag = .known .object → ∀ m ∈ children, m.children ≠ [])
      (below : ∀ c ∈ children, Complete c) : Complete (node head children)

/-- Every node below that is read through its first child has one. -/
inductive Tree.Legible : Tree → Prop
  | node {head : Head} {children : List Tree}
      (first : head.tag.readsFirst = true → children ≠ [])
      (below : ∀ c ∈ children, Legible c) : Legible (node head children)

namespace Tree.Complete

variable {t : Tree}

theorem child (h : t.Complete) : ∀ c ∈ t.children, c.Complete := by
  cases h
  assumption

theorem children_ne_nil (h : t.Complete) (reads : t.tag.readsFirst = true) : t.children ≠ [] := by
  cases h with
  | node first => exact first reads

theorem member_ne_nil (h : t.Complete) (object : t.tag = .known .object) :
    ∀ m ∈ t.children, m.children ≠ [] := by
  cases h with
  | node _ members => exact members object

theorem legible (h : t.Complete) : t.Legible := by
  induction h with
  | node first _ _ ih => exact .node first ih

end Tree.Complete

theorem removeFirst?_map {α β : Type} (p : β → Bool) (f : α → β) (xs : List α) :
    removeFirst? p (xs.map f) = (removeFirst? (fun x => p (f x)) xs).map (List.map f) := by
  induction xs with
  | nil => rfl
  | cons x xs ih =>
      rw [List.map_cons, removeFirst?, removeFirst?, ih]
      split
      · rfl
      · cases removeFirst? (fun x => p (f x)) xs <;> rfl

namespace Tree

theorem matchAll_map {α β : Type} (f : α → Tree) (g : β → Tree) (as : List α) (bs : List β) :
    matchAll (as.map f) (bs.map g) =
      (as.foldlM (fun free c => removeFirst? (fun d => (f c).equiv (g d)) free) bs).isSome := by
  induction as generalizing bs with
  | nil => rfl
  | cons a as ih =>
      rw [List.map_cons, matchAll, removeFirst?_map, List.foldlM_cons]
      cases removeFirst? (fun d => (f a).equiv (g d)) bs with
      | none => rfl
      | some rest => exact ih rest

theorem equivAll_map {α β : Type} (f : α → Tree) (g : β → Tree) (as : List α) (bs : List β) :
    equivAll (as.map f) (bs.map g) = (as.zip bs).all fun p => (f p.1).equiv (g p.2) := by
  induction as generalizing bs with
  | nil => rfl
  | cons a as ih =>
      cases bs with
      | nil => rfl
      | cons b bs => rw [List.map_cons, List.map_cons, equivAll, ih, List.zip_cons_cons,
          List.all_cons]

theorem isCompound_congr {t u : Tree} (heads : t.head = u.head) : t.isCompound = u.isCompound := by
  unfold isCompound isKind tag
  rw [heads]

/-- The words for a node depend on the heads of its children alone. -/
theorem parts_congr (head : Head) {ts us : List Tree} (heads : ts.map Tree.head = us.map Tree.head)
    (parameters : Text) (shown : List Text) :
    parts head ts parameters shown = parts head us parameters shown := by
  have compound : ts.head?.any isCompound = us.head?.any isCompound := by
    cases ts <;> cases us
    · rfl
    · cases heads
    · cases heads
    · exact isCompound_congr (List.cons.inj heads).1
  unfold parts
  split <;> simp only [compound]

theorem shownChildren_congr (head : Head) {ts us : List Tree} (lengths : ts.length = us.length) :
    shownChildren head ts = shownChildren head us := by
  unfold shownChildren
  split <;> simp only [lengths]

end Tree

namespace Arena

variable {m n : Nat}

section Nodes

variable (a : Arena m)

/-- The node at an index. Beyond the last node there is nothing but `never`. -/
def node (i : Nat) : Node := a.nodes[i]?.getD default

theorem node_eq {i : Nat} (h : i < a.nodes.size) : a.node i = a.nodes[i] := by
  rw [node, Array.getElem?_eq_getElem h]
  rfl

theorem node_eq_default {i : Nat} (h : a.nodes.size ≤ i) : a.node i = default := by
  rw [node, Array.getElem?_eq_none h]
  rfl

theorem child_lt {i c : Nat} (h : c ∈ (a.node i).children) : c < i := by
  rcases Nat.lt_or_ge i a.nodes.size with inside | outside
  · rw [a.node_eq inside] at h
    exact a.ordered i inside c h
  · rw [a.node_eq_default outside] at h
    cases h

/-- A node unfolds to its head over the trees of its children. -/
theorem tree_node (i : Nat) :
    a.tree i = .node (a.node i).head ((a.node i).children.map a.tree) := by
  rcases Nat.lt_or_ge i a.nodes.size with inside | outside
  · rw [a.tree_eq inside, a.node_eq inside]
  · rw [a.node_eq_default outside, tree, Array.getElem?_eq_none (by simpa [size] using outside)]
    rfl

theorem head_tree (i : Nat) : (a.tree i).head = (a.node i).head := by
  rw [a.tree_node, Tree.head_node]

theorem tag_tree (i : Nat) : (a.tree i).tag = (a.node i).head.tag :=
  congrArg Head.tag (a.head_tree i)

theorem name_tree (i : Nat) : (a.tree i).name = (a.node i).head.name :=
  congrArg Head.name (a.head_tree i)

theorem modifiers_tree (i : Nat) : (a.tree i).modifiers = (a.node i).head.modifiers :=
  congrArg Head.modifiers (a.head_tree i)

/-- Below a tree are the trees of the children, which may be asked where they come from. -/
theorem children_tree (i : Nat) :
    (a.tree i).children = (a.node i).children.attach.map fun c => a.tree c.1 := by
  rw [a.tree_node, Tree.children_node, List.attach_map_val]

theorem length_children_tree (i : Nat) :
    (a.tree i).children.length = (a.node i).children.length := by
  rw [a.tree_node, Tree.children_node, List.length_map]

theorem tree_mem_children {i c : Nat} (h : c ∈ (a.node i).children) :
    a.tree c ∈ (a.tree i).children := by
  rw [a.tree_node]
  exact List.mem_map_of_mem h

/-- Every stored node that is read through its first child has one. -/
structure Complete : Prop where
  first : ∀ i < a.size, (a.node i).head.tag.readsFirst = true → (a.node i).children ≠ []
  members : ∀ i < a.size, (a.node i).head.tag = .known .object →
    ∀ c ∈ (a.node i).children, (a.node c).children ≠ []

variable {a}

theorem Complete.tree (h : a.Complete) (i : Nat) : (a.tree i).Complete := by
  induction i using Nat.strongRecOn with
  | _ i ih =>
      rw [a.tree_node]
      have below : ∀ t ∈ (a.node i).children.map a.tree, t.Complete :=
        List.forall_mem_map.2 fun c hc => ih c (a.child_lt hc)
      rcases Nat.lt_or_ge i a.size with inside | outside
      · refine .node (fun reads => ?_) (fun object => List.forall_mem_map.2 fun c hc => ?_) below
        · simpa using h.first i inside reads
        · rw [a.tree_node]
          simpa using h.members i inside object c hc
      · rw [a.node_eq_default outside] at below ⊢
        exact .node nofun nofun below

end Nodes

section Copying

mutual

/-- Copy a node of `a` and what is below it behind the nodes of `b`, children before parents. -/
def copyFrom (b : Arena n) (a : Arena m) (i : Nat) :
    Except Fault { c : Arena n // b.size < c.size } := do
  let e ← b.copyAllFrom a i (a.node i).children fun _ => a.child_lt
  let c ← e.arena.push ⟨(a.node i).head, e.roots⟩ e.known
  return ⟨c.1, Nat.lt_of_lt_of_eq (Nat.lt_succ_of_le e.grown) c.2.symm⟩
termination_by (i, 1, 0)

/-- Copy some nodes of `a` one after the other. All of them come before the node at `top`. -/
def copyAllFrom (b : Arena n) (a : Arena m) (top : Nat) (children : List Nat)
    (below : ∀ c ∈ children, c < top) : Except Fault (Extension b) :=
  match children with
  | [] => .ok ⟨b, [], Nat.le_refl _, fun _ h => absurd h List.not_mem_nil⟩
  | child :: rest => do
    let c ← b.copyFrom a child
    let e ← c.1.copyAllFrom a top rest fun _ h => below _ (List.mem_cons_of_mem _ h)
    return {
      arena := e.arena
      roots := (c.1.size - 1) :: e.roots
      grown := Nat.le_trans (Nat.le_of_lt c.2) e.grown
      known := e.known_cons c.2 }
termination_by (top, 0, children.length)
decreasing_by
  · exact .left _ _ (below child List.mem_cons_self)
  · exact .right _ (.right _ (Nat.lt_succ_self _))

end

variable {a : Arena m}

/-- Copying some nodes grafts their trees if copying one node grafts its tree. -/
theorem copyAllFrom_eq_graftAll {top : Nat}
    (each : ∀ c < top, ∀ b : Arena n, b.copyFrom a c = b.graft (a.tree c)) (b : Arena n)
    (children : List Nat) (below : ∀ c ∈ children, c < top) :
    b.copyAllFrom a top children below = b.graftAll (children.map a.tree) := by
  induction children generalizing b with
  | nil => rw [copyAllFrom, List.map_nil, graftAll]
  | cons child rest ih =>
      rw [copyAllFrom, List.map_cons, graftAll, each child (below child List.mem_cons_self)]
      refine congrArg _ (funext fun c => ?_)
      rw [ih]

/-- Copying a node grafts its tree. -/
theorem copyFrom_eq_graft (b : Arena n) (i : Nat) : b.copyFrom a i = b.graft (a.tree i) := by
  induction i using Nat.strongRecOn generalizing b with
  | _ i ih =>
      rw [copyFrom, a.tree_node, graft,
        copyAllFrom_eq_graftAll fun c hc b => ih c hc b]

end Copying

section Comparing

/-- Compare two stored nodes. The children of objects and unions are matched one to one. -/
def equalAt (a : Arena m) (b : Arena n) (i j : Nat) : Bool :=
  (a.node i).head == (b.node j).head &&
    (a.node i).children.length == (b.node j).children.length &&
      if (a.node i).head.tag.unordered then
        ((a.node i).children.attach.foldlM
          (fun free c => removeFirst? (fun d => a.equalAt b c.1 d) free)
          (b.node j).children).isSome
      else ((a.node i).children.attach.zip (b.node j).children).all fun p => a.equalAt b p.1.1 p.2
termination_by i
decreasing_by
  · exact a.child_lt c.2
  · exact a.child_lt p.1.2

/-- Stored nodes are equal when their trees are. -/
theorem equalAt_eq_equiv (a : Arena m) (b : Arena n) (i j : Nat) :
    a.equalAt b i j = (a.tree i).equiv (b.tree j) := by
  induction i using Nat.strongRecOn generalizing j with
  | _ i ih =>
      have each (c : { c // c ∈ (a.node i).children }) (d : Nat) :
          a.equalAt b c.1 d = (a.tree c.1).equiv (b.tree d) := ih c.1 (a.child_lt c.2) d
      rw [equalAt, a.tree_node, b.tree_node, Tree.equiv, List.length_map, List.length_map,
        ← List.attach_map_val (f := a.tree), Tree.matchAll_map, Tree.equivAll_map]
      simp only [each]

end Comparing

section Rendering

/-- The children of a node, by their heads alone. -/
def childHeads (a : Arena m) (i : Nat) : List Tree :=
  (a.node i).children.map fun c => .node (a.node c).head []

/-- Render a stored node, from the texts of its children. -/
def renderAt (a : Arena m) (i : Nat) : Option (Buffer 256) :=
  if (a.node i).head.tag.readsFirst && (a.node i).children.isEmpty then none
  else do
    let count := Tree.shownChildren (a.node i).head (a.childHeads i)
    let shown ← ((a.node i).children.attach.take count).mapM fun c =>
      Buffer.content <$> a.renderAt c.1
    let parameters : Buffer 256 := .ofParts (Tree.parameterParts (shown.drop 1))
    return .ofParts (Tree.parts (a.node i).head (a.childHeads i) parameters.content shown)
termination_by i
decreasing_by exact a.child_lt c.2

theorem map_head_childHeads (a : Arena m) (i : Nat) :
    (a.childHeads i).map Tree.head = ((a.node i).children.map a.tree).map Tree.head := by
  rw [childHeads, List.map_map, List.map_map]
  refine List.map_congr_left fun c _ => ?_
  rw [Function.comp_apply, Function.comp_apply, a.tree_node, Tree.head_node, Tree.head_node]

/-- A legible node is rendered as its tree is. -/
theorem renderAt_of_legible (a : Arena m) {i : Nat} (h : (a.tree i).Legible) :
    a.renderAt i = some (a.tree i).render := by
  induction i using Nat.strongRecOn with
  | _ i ih =>
      rw [a.tree_node] at h ⊢
      cases h with
      | node first below =>
          have given : ((a.node i).head.tag.readsFirst && (a.node i).children.isEmpty) = false := by
            cases reads : (a.node i).head.tag.readsFirst with
            | true => simpa using first reads
            | false => rfl
          have text (c : { c // c ∈ (a.node i).children }) :
              Buffer.content <$> a.renderAt c.1 = some (a.tree c.1).text := by
            rw [ih c.1 (a.child_lt c.2) (below _ (List.mem_map_of_mem c.2))]
            rfl
          have shown (count : Nat) :
              ((a.node i).children.attach.take count).mapM
                  (fun c => Buffer.content <$> a.renderAt c.1) =
                some ((((a.node i).children.map a.tree).take count).map Tree.text) := by
            rw [mapM_eq_some fun c _ => text c, List.map_take,
              List.attach_map_val (f := fun c => (a.tree c).text), List.map_take, List.map_map]
            rfl
          have heads := a.map_head_childHeads i
          have lengths : (a.childHeads i).length = ((a.node i).children.map a.tree).length := by
            simpa using congrArg List.length heads
          rw [renderAt, given, Tree.shownChildren_congr _ lengths, Tree.render, Tree.renderFirst_eq]
          simp only [shown, Tree.parts_congr _ heads]
          rfl

/-- A complete node is rendered as its tree is. -/
theorem renderAt_eq_render (a : Arena m) {i : Nat} (h : (a.tree i).Complete) :
    a.renderAt i = some (a.tree i).render :=
  a.renderAt_of_legible h.legible

end Rendering

end Arena

end StructuralTypes
