import StructuralTypes.Arena

/-!
# Layout of grafted trees

Grafting a tree appends its nodes in post-order and leaves the nodes before them as they are. It
succeeds exactly when they fit, and the new root unfolds to the tree again.
-/

namespace StructuralTypes

namespace Tree

mutual

/-- The nodes of a tree in post-order, when the first of them has index `base`. -/
def layout (base : Nat) : Tree → List Node
  | node head children => layoutAll base children ++ [⟨head, layoutRoots base children⟩]

/-- The nodes of some trees, one tree after the other. -/
def layoutAll (base : Nat) : List Tree → List Node
  | [] => []
  | t :: ts => t.layout base ++ layoutAll (base + t.size) ts

/-- The indices of the roots of some trees laid out one after the other. -/
def layoutRoots (base : Nat) : List Tree → List Nat
  | [] => []
  | t :: ts => (base + t.size - 1) :: layoutRoots (base + t.size) ts

end

mutual

@[simp] theorem length_layout (base : Nat) (t : Tree) : (t.layout base).length = t.size := by
  match t with
  | node head children => simp [layout, size, length_layoutAll base children]

@[simp] theorem length_layoutAll (base : Nat) (ts : List Tree) :
    (layoutAll base ts).length = sizeAll ts := by
  match ts with
  | [] => rfl
  | t :: ts => simp [layoutAll, sizeAll, length_layout base t, length_layoutAll (base + t.size) ts]

end

end Tree

namespace Arena

variable {cap : Nat}

mutual

/-- Grafting appends the layout of the tree. -/
theorem nodes_graft (t : Tree) {a : Arena cap} {b : { b : Arena cap // a.size < b.size }}
    (h : a.graft t = .ok b) : b.1.nodes = a.nodes ++ (t.layout a.size).toArray := by
  match t with
  | .node head children =>
    rw [graft] at h
    obtain ⟨e, he, h⟩ := bind_eq_ok h
    obtain ⟨c, hc, h⟩ := bind_eq_ok h
    obtain ⟨hn, hr⟩ := nodes_graftAll children he
    rw [push] at hc
    split at hc
    · cases hc
      cases h
      simp [hn, hr, Tree.layout]
    · cases hc

theorem nodes_graftAll (ts : List Tree) {a : Arena cap} {e : Extension a}
    (h : a.graftAll ts = .ok e) :
    e.arena.nodes = a.nodes ++ (Tree.layoutAll a.size ts).toArray ∧
      e.roots = Tree.layoutRoots a.size ts := by
  match ts with
  | [] =>
    rw [graftAll] at h
    cases h
    simp [Tree.layoutAll, Tree.layoutRoots]
  | t :: ts =>
    rw [graftAll] at h
    obtain ⟨b, hb, h⟩ := bind_eq_ok h
    obtain ⟨c, hc, h⟩ := bind_eq_ok h
    have first := nodes_graft t hb
    obtain ⟨rest, roots⟩ := nodes_graftAll ts hc
    have hs : b.1.size = a.size + t.size := by simp [size, first]
    cases h
    simp [rest, first, roots, hs, Tree.layoutAll, Tree.layoutRoots]

end

theorem size_graft {t : Tree} {a : Arena cap} {b : { b : Arena cap // a.size < b.size }}
    (h : a.graft t = .ok b) : b.1.size = a.size + t.size := by
  simp [size, nodes_graft t h]

theorem size_graftAll {ts : List Tree} {a : Arena cap} {e : Extension a}
    (h : a.graftAll ts = .ok e) : e.arena.size = a.size + Tree.sizeAll ts := by
  simp [size, (nodes_graftAll ts h).1]

mutual

/-- Grafting succeeds if the tree fits, and is out of room otherwise. -/
theorem graft_total (t : Tree) (a : Arena cap) :
    (a.size + t.size ≤ cap → ∃ b, a.graft t = .ok b) ∧
      (cap < a.size + t.size → a.graft t = .error .storageFull) := by
  match t with
  | .node head children =>
    obtain ⟨fits, full⟩ := graftAll_total children a
    rw [graft, Tree.size]
    constructor
    · intro h
      obtain ⟨e, he⟩ := fits (by omega)
      have hs := size_graftAll he
      have room : e.arena.size < cap := by omega
      rw [he]
      simp [bind, Except.bind, push, room, pure, Except.pure]
    · intro h
      by_cases hc : cap < a.size + Tree.sizeAll children
      · rw [full hc]
        rfl
      · obtain ⟨e, he⟩ := fits (by omega)
        have hs := size_graftAll he
        have room : ¬e.arena.size < cap := by omega
        rw [he]
        simp [bind, Except.bind, push, room]

theorem graftAll_total (ts : List Tree) (a : Arena cap) :
    (a.size + Tree.sizeAll ts ≤ cap → ∃ e, a.graftAll ts = .ok e) ∧
      (cap < a.size + Tree.sizeAll ts → a.graftAll ts = .error .storageFull) := by
  match ts with
  | [] =>
    rw [graftAll, Tree.sizeAll]
    exact ⟨fun _ => ⟨_, rfl⟩, fun h => absurd a.bounded (Nat.not_le.2 h)⟩
  | t :: ts =>
    obtain ⟨fits, full⟩ := graft_total t a
    rw [graftAll, Tree.sizeAll]
    by_cases ht : cap < a.size + t.size
    · rw [full ht]
      exact ⟨fun h => by omega, fun _ => rfl⟩
    · obtain ⟨b, hb⟩ := fits (by omega)
      have hs := size_graft hb
      obtain ⟨fitsAll, fullAll⟩ := graftAll_total ts b.1
      rw [hb]
      constructor
      · intro h
        obtain ⟨e, he⟩ := fitsAll (by omega)
        simp [bind, Except.bind, he, pure, Except.pure]
      · intro h
        simp [bind, Except.bind, fullAll (by omega)]

end

/-- Nodes stored behind others do not change the trees of those before them. -/
theorem tree_append {a b : Arena cap} {more : Array Node} (h : b.nodes = a.nodes ++ more) {i : Nat}
    (hi : i < a.size) : b.tree i = a.tree i := by
  induction i using Nat.strongRecOn with
  | _ i ih =>
      have hia : i < a.nodes.size := hi
      have hib : i < b.nodes.size := by rw [h, Array.size_append]; omega
      have same : b.nodes[i] = a.nodes[i] := by simp [h, Array.getElem_append_left hia]
      rw [tree_eq b hib, tree_eq a hia, same]
      refine congrArg _ (List.map_congr_left fun c hc => ?_)
      have := a.ordered i hia c hc
      exact ih c this (Nat.lt_trans this hi)

theorem tree_graftAll_of_lt {ts : List Tree} {a : Arena cap} {e : Extension a}
    (h : a.graftAll ts = .ok e) {i : Nat} (hi : i < a.size) : e.arena.tree i = a.tree i :=
  tree_append (nodes_graftAll ts h).1 hi

mutual

/-- The root of a grafted tree unfolds to the tree. -/
theorem tree_graft (t : Tree) {a : Arena cap} {b : { b : Arena cap // a.size < b.size }}
    (h : a.graft t = .ok b) : b.1.tree (b.1.size - 1) = t := by
  match t with
  | .node head children =>
    rw [graft] at h
    obtain ⟨e, he, h⟩ := bind_eq_ok h
    obtain ⟨c, hc, h⟩ := bind_eq_ok h
    have below := map_tree_graftAll children he
    cases h
    rw [push] at hc
    split at hc
    · cases hc
      have inside : e.arena.nodes.size < (e.arena.nodes.push ⟨head, e.roots⟩).size := by simp
      have last : (e.arena.nodes.push ⟨head, e.roots⟩)[e.arena.nodes.size] = ⟨head, e.roots⟩ :=
        Array.getElem_push_eq ..
      simp only [size, Array.size_push, Nat.add_sub_cancel]
      rw [tree_eq _ inside]
      simp only [last]
      conv => rhs; rw [← below]
      refine congrArg _ (List.map_congr_left fun i hi => ?_)
      exact tree_append Array.push_eq_append (e.known i hi)
    · cases hc

theorem map_tree_graftAll (ts : List Tree) {a : Arena cap} {e : Extension a}
    (h : a.graftAll ts = .ok e) : e.roots.map e.arena.tree = ts := by
  match ts with
  | [] =>
    rw [graftAll] at h
    cases h
    rfl
  | t :: ts =>
    rw [graftAll] at h
    obtain ⟨b, hb, h⟩ := bind_eq_ok h
    obtain ⟨c, hc, h⟩ := bind_eq_ok h
    have first := tree_graft t hb
    have rest := map_tree_graftAll ts hc
    cases h
    have hlt : b.1.size - 1 < b.1.size := by have := b.2; omega
    simp only [List.map_cons, rest, tree_graftAll_of_lt hc hlt, first]

end

end Arena

end StructuralTypes
