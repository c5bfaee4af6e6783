import StructuralTypes.Proofs.EqualShapes
import StructuralTypes.Proofs.RawUnions
import StructuralTypes.Proofs.UnsharedStorage

/-!
# Copies of trees in memory

What is copied is the tree that is read off from a node by following the slots in use. Copying
works on any memory: slots out of use may hold anything, nodes may be shared, and about the nodes
that are there already nothing is known. It appends the nodes of the tree in post-order if they fit,
and gives up otherwise. Types that are compact already are copied to themselves, and a node that is
put together from several types has them as its children.
-/

namespace StructuralTypes

namespace RawNode

/-- The indices in the slots in use. -/
def children (n : RawNode) : List Int := n.slots.toList.take n.used

/-- The node in memory has the head and the children of a proper one, in as many slots. -/
structure Shows (n : RawNode) (node : Node) : Prop where
  head : n.head = node.head
  used : n.used = node.children.length
  children : n.children = node.children.map Int.ofNat

theorem length_children (n : RawNode) : n.children.length = min n.used 16 := by
  rw [children, List.length_take, Vector.length_toList]

theorem Shows.few {n : RawNode} {node : Node} (h : n.Shows node) : n.used ≤ 16 := by
  have length := congrArg List.length h.children
  rw [n.length_children, List.length_map, ← h.used] at length
  omega

theorem child_eq {n : RawNode} (few : n.used ≤ 16) {k : Nat} (h : k < n.children.length) :
    n.child k = pure n.children[k] := by
  have inUse : k < min n.used 16 := n.length_children ▸ h
  have inRow : k < 16 := by omega
  rw [child, if_pos (by omega), Row.read, Vector.getElem?_eq_getElem inRow, Checked.within_some]
  simp [children]

/-- The node that adopts some children has them in its slots, whatever was there. -/
theorem shows_overlay (n : RawNode) {roots : List Nat} (few : roots.length ≤ 16) :
    Shows { n with slots := n.slots.overlay 0 (roots.map Int.ofNat), used := roots.length }
      ⟨n.head, roots⟩ where
  head := rfl
  used := rfl
  children := by
    apply List.ext_getElem
    · rw [length_children, List.length_map]
      exact Nat.min_eq_left few
    · intro k h h'
      have inside : k < roots.length := by rwa [List.length_map] at h'
      simp only [children, List.getElem_take, Vector.getElem_toList]
      rw [Row.getElem_overlay _ _ _ (by omega)]
      simp [inside]

end RawNode

namespace RawArena

variable {s target : RawArena}

/-- The tree that is read off from memory by following the slots in use. -/
inductive Unfolds (s : RawArena) : Int → Tree → Prop
  | node {i : Int} {n : RawNode} {ts : List Tree} (stored : s.read i = pure n) (few : n.used ≤ 16)
      (children : List.Forall₂ s.Unfolds n.children ts) : Unfolds s i (.node n.head ts)

/-- The slots in use hold the indices of earlier nodes. -/
structure Ordered (s : RawArena) : Prop where
  few : ∀ i (h : i < s.nodes.size), s.nodes[i].used ≤ 16
  earlier : ∀ i (h : i < s.nodes.size), ∀ c ∈ s.nodes[i].children, 0 ≤ c ∧ c < i

theorem read_eq {i : Nat} {n : RawNode} (stored : s.nodes[i]? = some n) : s.read i = pure n := by
  rw [read, if_pos (Int.natCast_nonneg i), Int.toNat_natCast, stored]
  rfl

section Unfolding

mutual

/-- A node is read as one tree at most. -/
theorem Unfolds.unique (t : Tree) {u : Tree} {i : Int} (h : s.Unfolds i t) (k : s.Unfolds i u) :
    t = u := by
  match t with
  | .node head ts =>
    obtain ⟨stored, -, children⟩ := h
    obtain ⟨stored', -, children'⟩ := k
    obtain rfl := Except.ok.inj (Option.some.inj (stored.symm.trans stored'))
    exact congrArg _ (Unfolds.unique_all ts children children')

theorem Unfolds.unique_all (ts : List Tree) {us : List Tree} {cs : List Int}
    (h : List.Forall₂ s.Unfolds cs ts) (k : List.Forall₂ s.Unfolds cs us) : ts = us := by
  match ts with
  | [] =>
    cases h
    cases k
    rfl
  | t :: ts =>
    cases h with
    | cons first rest =>
        cases k with
        | cons first' rest' =>
            rw [Unfolds.unique t first first', Unfolds.unique_all ts rest rest']

end

/-- Every node of an ordered memory is read as a tree. -/
theorem Ordered.exists_unfolds (h : s.Ordered) {i : Nat} (hi : i < s.nodes.size) :
    ∃ t, s.Unfolds i t := by
  induction i using Nat.strongRecOn with
  | _ i ih =>
    have below : ∀ c ∈ s.nodes[i].children, ∃ t, s.Unfolds c t := by
      intro c hc
      obtain ⟨nonneg, before⟩ := h.earlier i hi c hc
      obtain ⟨k, rfl⟩ := Int.eq_ofNat_of_zero_le nonneg
      exact ih k (by omega) (by omega)
    have trees (cs : List Int) (each : ∀ c ∈ cs, ∃ t, s.Unfolds c t) :
        ∃ ts, List.Forall₂ s.Unfolds cs ts := by
      induction cs with
      | nil => exact ⟨[], .nil⟩
      | cons c cs ih =>
          obtain ⟨⟨t, first⟩, others⟩ := List.forall_mem_cons.1 each
          obtain ⟨ts, rest⟩ := ih others
          exact ⟨t :: ts, .cons first rest⟩
    obtain ⟨ts, children⟩ := trees _ below
    exact ⟨_, .node (read_eq (Array.getElem?_eq_getElem hi)) (h.few i hi) children⟩

end Unfolding

section Appending

/-- From an index on, the memory holds some nodes. -/
def Holds (s : RawArena) (base : Nat) (nodes : List Node) : Prop :=
  ∀ l (h : l < nodes.length), ∃ n, s.nodes[base + l]? = some n ∧ n.Shows nodes[l]

/-- The memory has some nodes behind those of `target`, which are as they were. -/
structure Appends (target : RawArena) (added : List Node) (s : RawArena) : Prop where
  capacity : s.capacity = target.capacity
  size : s.nodes.size = target.nodes.size + added.length
  kept : ∀ i < target.nodes.size, s.nodes[i]? = target.nodes[i]?
  holds : s.Holds target.nodes.size added

theorem holds_append {base : Nat} {xs ys : List Node} :
    s.Holds base (xs ++ ys) ↔ s.Holds base xs ∧ s.Holds (base + xs.length) ys := by
  constructor
  · intro h
    refine ⟨fun l hl => ?_, fun l hl => ?_⟩
    · have := h l (by rw [List.length_append]; omega)
      rwa [List.getElem_append_left hl] at this
    · have := h (xs.length + l) (by rw [List.length_append]; omega)
      rwa [← Nat.add_assoc, List.getElem_append_right (by omega), getElem_congr_idx
        (Nat.add_sub_cancel_left ..)] at this
  · rintro ⟨first, second⟩ l hl
    rw [List.length_append] at hl
    by_cases inside : l < xs.length
    · rw [List.getElem_append_left inside]
      exact first l inside
    · obtain ⟨n, stored, shows⟩ := second (l - xs.length) (by omega)
      rw [Nat.add_assoc, Nat.add_sub_cancel' (by omega)] at stored
      rw [List.getElem_append_right (by omega)]
      exact ⟨n, stored, shows⟩

namespace Appends

theorem refl (target : RawArena) : target.Appends [] target :=
  ⟨rfl, rfl, fun _ _ => rfl, nofun⟩

theorem trans {r : RawArena} {xs ys : List Node} (h : target.Appends xs s) (k : s.Appends ys r) :
    target.Appends (xs ++ ys) r where
  capacity := k.capacity.trans h.capacity
  size := by rw [k.size, h.size, List.length_append, Nat.add_assoc]
  kept i hi := by rw [k.kept i (by rw [h.size]; omega), h.kept i hi]
  holds := by
    refine holds_append.2 ⟨fun l hl => ?_, h.size ▸ k.holds⟩
    rw [k.kept _ (by rw [h.size]; omega)]
    exact h.holds l hl

/-- One more node is put behind the others. -/
theorem push {n : RawNode} {node : Node} (shows : n.Shows node) :
    s.Appends [node] { s with nodes := s.nodes.push n } where
  capacity := rfl
  size := by simp
  kept i hi := Array.getElem?_push_lt hi |>.trans (Array.getElem?_eq_getElem hi).symm
  holds := by
    intro l hl
    obtain rfl : l = 0 := by simpa using hl
    exact ⟨n, by simp, shows⟩

end Appends

mutual

/-- The last node of a layout in memory is read as the tree that is laid out. -/
theorem unfolds_of_holds {base : Nat} (t : Tree) (h : s.Holds base (t.layout base)) :
    s.Unfolds (base + t.size - 1 : Nat) t := by
  match t with
  | .node head ts =>
    obtain ⟨below, last⟩ := holds_append.1 (Tree.layout.eq_1 .. ▸ h)
    obtain ⟨n, stored, shows⟩ := last 0 Nat.one_pos
    rw [Tree.length_layoutAll] at stored
    have children := forall₂_unfolds_of_holds ts below
    obtain rfl : n.head = head := shows.head
    rw [Tree.size]
    refine .node (read_eq stored) shows.few ?_
    rw [shows.children]
    exact children

theorem forall₂_unfolds_of_holds {base : Nat} (ts : List Tree)
    (h : s.Holds base (Tree.layoutAll base ts)) :
    List.Forall₂ s.Unfolds ((Tree.layoutRoots base ts).map Int.ofNat) ts := by
  match ts with
  | [] => exact .nil
  | t :: ts =>
    obtain ⟨first, rest⟩ := holds_append.1 (Tree.layoutAll.eq_2 .. ▸ h)
    rw [Tree.length_layout] at rest
    exact .cons (unfolds_of_holds t first) (forall₂_unfolds_of_holds ts rest)

end

end Appending

section Copying

/-- Copy one more node, and note its new index in the next slot. -/
def copyRound (origin : Nat → Checked (RawArena × Int)) (state : RawArena × Row Int) (k : Nat) :
    Checked (RawArena × Row Int) := do
  let node ← origin k
  let copied ← state.1 |>.copy node.1 node.2
  return (copied.1, ← state.2.write k copied.2)

theorem copyEach_eq (target : RawArena) (origin : Nat → Checked (RawArena × Int)) (count : Nat)
    (ids : Row Int) : target.copyEach origin count ids =
      (List.range' 0 count).foldlM (copyRound origin) (target, ids) := by
  rw [copyEach, List.range_eq_range']
  rfl

/-- The node goes behind the others if there is room, with the indices of a row for its children. -/
theorem add_adopted (n : RawNode) {roots : List Nat} (few : roots.length ≤ 16) (s : RawArena) :
    (s.nodes.size < s.capacity →
      ∃ r, n.adopt (.filled 0 (roots.map Int.ofNat)) roots.length >>= s.add =
          pure (r, (s.nodes.size : Int)) ∧ s.Appends [⟨n.head, roots⟩] r) ∧
    (s.capacity ≤ s.nodes.size →
      n.adopt (.filled 0 (roots.map Int.ofNat)) roots.length >>= s.add = throw .storageFull) := by
  rw [Arena.adopt_raw n few, pure_bind]
  constructor
  · intro room
    exact ⟨_, if_neg (Nat.not_le.2 room), .push (n.shows_overlay few)⟩
  · exact fun full => if_pos full

mutual

/-- Copying appends the nodes of the tree if there is room for them, and gives up otherwise. -/
theorem copy_of_unfolds (t : Tree) {i : Int} (h : s.Unfolds i t) (target : RawArena) :
    (target.nodes.size + t.size ≤ target.capacity →
      ∃ r, target.copy s i = pure (r, ((target.nodes.size + t.size - 1 : Nat) : Int)) ∧
        target.Appends (t.layout target.nodes.size) r) ∧
    (target.capacity < target.nodes.size + t.size → target.copy s i = throw .storageFull) := by
  match t with
  | .node head ts =>
    cases h with
    | @node _ n _ stored few children =>
      have used : n.used = ts.length := by
        rw [← children.length_eq, n.length_children, Nat.min_eq_left few]
      let origin (k : Nat) : Checked (RawArena × Int) := do return (s, ← n.child k)
      have slots l (h : l < n.children.length) : origin (0 + l) = pure (s, n.children[l]) := by
        simp only [origin]
        rw [Nat.zero_add, RawNode.child_eq few h, pure_bind]
      obtain ⟨fits, full⟩ := copyRound_of_unfolds ts children (k := 0) (by omega) slots target
        (.replicate 16 0)
      have roots := Tree.length_layoutRoots target.nodes.size ts
      have added := add_adopted n (roots.symm ▸ used ▸ few)
      rw [roots] at added
      -- Without children nothing is copied, however many nodes there are already.
      rw [Tree.size, Tree.layout, ← Nat.add_assoc, Nat.add_sub_cancel, copy, stored, pure_bind,
        copyEach_eq, used]
      by_cases below : ts = [] ∨ target.nodes.size + Tree.sizeAll ts ≤ target.capacity
      · obtain ⟨r, copied, appended⟩ := fits below
        have size := appended.size
        rw [Tree.length_layoutAll] at size
        obtain ⟨room, tight⟩ := added r
        rw [appended.capacity, size] at room tight
        rw [copied, pure_bind]
        refine ⟨fun h => ?_, fun h => tight (Nat.le_of_lt_succ h)⟩
        obtain ⟨q, stored, last⟩ := room h
        exact ⟨q, stored, appended.trans last⟩
      · obtain ⟨some, large⟩ := not_or.1 below
        rw [full some (Nat.not_le.1 large)]
        exact ⟨fun h => by omega, fun _ => rfl⟩

/-- The children are copied in order, and the row receives the indices of their copies. -/
theorem copyRound_of_unfolds (ts : List Tree) {cs : List Int}
    (h : List.Forall₂ s.Unfolds cs ts) {origin : Nat → Checked (RawArena × Int)} {k : Nat}
    (few : k + ts.length ≤ 16) (each : ∀ l (h : l < cs.length), origin (k + l) = pure (s, cs[l]))
    (target : RawArena) (ids : Row Int) :
    (ts = [] ∨ target.nodes.size + Tree.sizeAll ts ≤ target.capacity →
      ∃ r, (List.range' k ts.length).foldlM (copyRound origin) (target, ids) =
          pure (r, ids.overlay k ((Tree.layoutRoots target.nodes.size ts).map Int.ofNat)) ∧
        target.Appends (Tree.layoutAll target.nodes.size ts) r) ∧
    (ts ≠ [] → target.capacity < target.nodes.size + Tree.sizeAll ts →
      (List.range' k ts.length).foldlM (copyRound origin) (target, ids) =
        throw .storageFull) := by
  match ts with
  | [] =>
    refine ⟨fun _ => ⟨target, ?_, .refl target⟩, fun some => absurd rfl some⟩
    exact congrArg (fun ids => pure (target, ids)) (Row.overlay_nil ids k).symm
  | t :: ts =>
    cases h with
    | @cons c _ cs _ first rest =>
      rw [List.length_cons] at few
      have source : origin k = pure (s, c) := each 0 (Nat.zero_lt_succ _)
      have sources l (h : l < cs.length) : origin (k + 1 + l) = pure (s, cs[l]) := by
        rw [Nat.succ_add_eq_add_succ]
        exact each (l + 1) (Nat.succ_lt_succ h)
      obtain ⟨fits, full⟩ := copy_of_unfolds t first target
      have inside : k < 16 := by omega
      rw [List.length_cons, List.range'_succ, List.foldlM_cons, copyRound, source, pure_bind,
        Tree.sizeAll, Tree.layoutRoots, Tree.layoutAll, ← Nat.add_assoc]
      by_cases tight : target.capacity < target.nodes.size + t.size
      · rw [full tight]
        refine ⟨fun room => absurd (room.resolve_left (List.cons_ne_nil t ts)) ?_, fun _ _ => rfl⟩
        omega
      · obtain ⟨r, copied, appended⟩ := fits (Nat.not_lt.1 tight)
        have size := appended.size
        rw [Tree.length_layout] at size
        obtain ⟨fits, full⟩ := copyRound_of_unfolds ts rest (k := k + 1) (by omega) sources r
          (ids.set k ((target.nodes.size + t.size - 1 : Nat) : Int) inside)
        rw [size, appended.capacity] at fits full
        rw [copied, pure_bind, Row.write_eq inside, pure_bind, pure_bind, List.map_cons,
          Row.overlay_cons ids inside]
        constructor
        · intro room
          obtain ⟨q, copied, more⟩ := fits (.inr (room.resolve_left (List.cons_ne_nil t ts)))
          exact ⟨q, copied, appended.trans more⟩
        · intro _ large
          refine full ?_ large
          rintro rfl
          exact tight large

end

/-- What copying node `i` of `s` does to another memory, when tree `t` is read there. -/
structure CopiesTree (s target : RawArena) (i : Int) (t : Tree) : Prop where
  room : (∃ r, target.copy s i = pure r) ↔ target.nodes.size + t.size ≤ target.capacity
  full : target.capacity < target.nodes.size + t.size → target.copy s i = throw .storageFull
  /-- The tree comes behind what was there, and its root is the last node. -/
  copied : ∀ r last, target.copy s i = pure (r, last) →
    target.Appends (t.layout target.nodes.size) r ∧ last + 1 = r.nodes.size ∧ r.Unfolds last t

theorem Unfolds.copiesTree {i : Int} {t : Tree} (h : s.Unfolds i t) (target : RawArena) :
    s.CopiesTree target i t := by
  obtain ⟨fits, full⟩ := copy_of_unfolds t h target
  by_cases room : target.nodes.size + t.size ≤ target.capacity
  · obtain ⟨q, made, appended⟩ := fits room
    refine ⟨iff_of_true ⟨_, made⟩ room, full, fun r last again => ?_⟩
    obtain ⟨rfl, rfl⟩ := Prod.mk.inj (Except.ok.inj (Option.some.inj (made.symm.trans again)))
    have size := appended.size
    rw [Tree.length_layout] at size
    have positive := t.size_pos
    exact ⟨appended, by omega, unfolds_of_holds t appended.holds⟩
  · have failed := full (Nat.not_le.1 room)
    refine ⟨iff_of_false ?_ room, full, fun r last made => ?_⟩
    · rintro ⟨r, made⟩
      cases failed.symm.trans made
    · cases failed.symm.trans made

end Copying

end RawArena

namespace Arena

section Images

variable {cap : Nat} {a : Arena cap}

theorem shows_raw (narrow : a.Narrow) (i : Nat) : (a.node i).raw.Shows (a.node i) :=
  RawNode.shows_overlay (.ofHead (a.node i).head) (narrow i)

theorem getElem_raw {i : Nat} (h : i < a.raw.nodes.size) : a.raw.nodes[i] = (a.node i).raw := by
  have inside : i < a.size := a.size_nodes_raw ▸ h
  rw [a.node_eq inside]
  exact Array.getElem_map ..

/-- Proper nodes are ordered in memory. -/
theorem ordered_raw (narrow : a.Narrow) : a.raw.Ordered where
  few i h := by
    rw [getElem_raw h]
    exact narrow i
  earlier i h c hc := by
    rw [getElem_raw h, (shows_raw narrow i).children] at hc
    obtain ⟨k, hk, rfl⟩ := List.mem_map.1 hc
    exact ⟨Int.natCast_nonneg k, Int.ofNat_lt.2 (a.child_lt hk)⟩

/-- Proper nodes are read in memory as the trees that they unfold to. -/
theorem unfolds_raw (narrow : a.Narrow) {i : Nat} (hi : i < a.size) :
    a.raw.Unfolds i (a.tree i) := by
  induction i using Nat.strongRecOn with
  | _ i ih =>
    rw [a.tree_node]
    refine .node (read_raw hi) (narrow i) ?_
    rw [(shows_raw narrow i).children, List.forall₂_map_left_iff, List.forall₂_map_right_iff,
      List.forall₂_same]
    exact fun c hc => ih c (a.child_lt hc) (lt_size_of_mem hi hc)

end Images

section Walking

variable {cap : Nat} {a : Arena cap}

/-- Walks that count up one after the other meet the layouts of the trees that they start from. -/
theorem layoutAll_of_walk {cs : List Nat} {base n : Nat} (stored : ∀ c ∈ cs, c < a.nodes.size)
    (each : ∀ c ∈ cs, ∀ base n, a.walk c = List.range' base n →
      c + 1 = base + (a.tree c).size ∧
        (a.nodes.toList.drop base).take (a.tree c).size = (a.tree c).layout base)
    (counts : cs.flatMap a.walk = List.range' base n) :
    n = Tree.sizeAll (cs.map a.tree) ∧ cs = Tree.layoutRoots base (cs.map a.tree) ∧
      (a.nodes.toList.drop base).take (Tree.sizeAll (cs.map a.tree)) =
        Tree.layoutAll base (cs.map a.tree) := by
  induction cs generalizing base n with
  | nil =>
      have none : 0 = n := by simpa using congrArg List.length counts
      exact ⟨none.symm, rfl, rfl⟩
  | cons c cs ih =>
      obtain ⟨inside, insides⟩ := List.forall_mem_cons.1 stored
      obtain ⟨first, rest⟩ := List.forall_mem_cons.1 each
      rw [List.flatMap_cons, eq_comm, List.range'_eq_append_iff] at counts
      obtain ⟨k, few, start, others⟩ := counts
      have size : k = (a.tree c).size := by
        rw [← length_walk inside, start, List.length_range']
      subst size
      rw [Nat.mul_one] at others
      obtain ⟨root, layout⟩ := first _ _ start
      obtain ⟨size, roots, layouts⟩ := ih insides rest others
      refine ⟨?_, ?_, ?_⟩
      · rw [List.map_cons, Tree.sizeAll, ← size]
        omega
      · rw [List.map_cons, Tree.layoutRoots, ← roots, ← root, Nat.add_sub_cancel]
      · rw [List.map_cons, Tree.sizeAll, Tree.layoutAll, List.take_add, layout, List.drop_drop,
          layouts]

/-- A walk that counts up meets the layout of the tree that it starts from. -/
theorem layout_of_walk {i base n : Nat} (inside : i < a.nodes.size)
    (counts : a.walk i = List.range' base n) :
    i + 1 = base + (a.tree i).size ∧
      (a.nodes.toList.drop base).take (a.tree i).size = (a.tree i).layout base := by
  induction i using Nat.strongRecOn generalizing base n with
  | _ i ih =>
    rw [a.walk_eq inside, eq_comm, List.range'_eq_append_iff] at counts
    obtain ⟨k, few, below, last⟩ := counts
    have stored : ∀ c ∈ a.nodes[i].children, c < a.nodes.size := fun c hc =>
      Nat.lt_trans (a.ordered i inside c hc) inside
    obtain ⟨rfl, roots, layouts⟩ := layoutAll_of_walk stored
      (fun c hc base n => ih c (a.ordered i inside c hc) (stored c hc)) below
    have alone : 1 = n - Tree.sizeAll (a.nodes[i].children.map a.tree) := by
      simpa using congrArg List.length last
    rw [← alone, Nat.mul_one] at last
    have root : i = base + Tree.sizeAll (a.nodes[i].children.map a.tree) :=
      List.singleton_inj.1 last
    have node : (a.nodes.toList.drop i).take 1 = [a.nodes[i]] := by
      rw [List.drop_eq_getElem_cons inside, List.take_succ_cons, List.take_zero,
        Array.getElem_toList]
    rw [a.tree_eq inside, Tree.size, Tree.layout, List.take_add, layouts, List.drop_drop, ← root,
      ← roots, node]
    exact ⟨by omega, rfl⟩

end Walking

end Arena

namespace Descriptor

open Checked (answer)

theorem exists_ofTree_iff {n : Nat} {t : Tree} : (∃ d, ofTree n t = .ok d) ↔ t.size ≤ n :=
  ⟨fun ⟨_, made⟩ => size_le_of_ofTree made, (ofTree_total n t).1⟩

section Compact

variable {m : Nat} {d : Descriptor m}

/-- A type whose walk from the root meets every node once, in order of storage, is laid out. -/
theorem layout_of_walk (compact : d.arena.walk d.root = List.range d.arena.size) :
    d.arena.nodes = (d.tree.layout 0).toArray ∧ d.root + 1 = d.tree.size ∧
      d.tree.size = d.arena.size := by
  rw [List.range_eq_range'] at compact
  obtain ⟨root, layout⟩ := Arena.layout_of_walk d.inside compact
  have size : d.tree.size = d.arena.size := by
    calc d.tree.size
        = (d.arena.walk d.root).length := (Arena.length_walk d.inside).symm
      _ = d.arena.size := by rw [compact, List.length_range']
  refine ⟨?_, by rw [root, Nat.zero_add]; rfl, size⟩
  have whole : d.arena.nodes.toList.take d.tree.size = d.arena.nodes.toList :=
    List.take_of_length_le size.ge
  rw [← Array.toList_inj, ← whole]
  exact layout

/-- A compact type is copied node for node wherever there is room for it. -/
theorem resize_of_walk (compact : d.arena.walk d.root = List.range d.arena.size) (n : Nat) :
    ((∃ e, d.resize n = .ok e) ↔ d.arena.size ≤ n) ∧
      ∀ e, d.resize n = .ok e → e.arena.nodes = d.arena.nodes ∧ e.root = d.root := by
  obtain ⟨nodes, root, size⟩ := layout_of_walk compact
  constructor
  · rw [← size]
    exact exists_ofTree_iff
  · intro e made
    obtain ⟨nodes', root'⟩ := layout_of_ofTree made
    exact ⟨nodes'.trans nodes.symm, Nat.succ.inj (root'.trans root.symm)⟩

theorem extract_of_walk (compact : d.arena.walk d.root = List.range d.arena.size) :
    d.extract d.root = .ok d := by
  obtain ⟨room, same⟩ := resize_of_walk compact m
  obtain ⟨e, made⟩ := room.2 d.arena.bounded
  obtain ⟨nodes, root⟩ := same e made
  obtain rfl : e = d := Descriptor.ext (Arena.ext nodes) root
  exact made

end Compact

section Making

variable {cap : Nat} {d : Descriptor cap} {operands : List (Descriptor cap)}

/-- There is room for a node over some types when there is room for their trees and for it. -/
theorem exists_make_iff (head : Head) (few : operands.length ≤ 16) :
    (∃ d, make head operands = .ok d) ↔ 1 + (operands.map (·.tree.size)).sum ≤ cap := by
  have within : ¬16 < (operands.map tree).length := by rwa [List.length_map, Nat.not_lt]
  rw [make, ofNode, if_neg within, exists_ofTree_iff, Tree.size, Tree.sizeAll_eq_sum, List.map_map,
    Nat.add_comm]
  rfl

/-- The children of a node over some types are these types, node for node. -/
theorem child_of_make {head : Head} (made : make head operands = .ok d) {i : Nat}
    (h : i < operands.length) :
    ∃ c e, (d.arena.node d.root).children[i]? = some c ∧ d.extract c = .ok e ∧
      d.child? i = some (.ok e) ∧ operands[i].extract operands[i].root = .ok e := by
  rw [make, ofNode] at made
  split at made
  · cases made
  · have unfolded : d.tree = .node head (operands.map tree) := tree_of_ofTree made
    have children : (d.arena.node d.root).children.map d.arena.tree = operands.map tree := by
      rw [tree, d.arena.tree_node] at unfolded
      exact (Tree.node.inj unfolded).2
    have count : (d.arena.node d.root).children.length = operands.length := by
      simpa using congrArg List.length children
    have below : d.arena.tree (d.arena.node d.root).children[i] = operands[i].tree := by
      have same := List.getElem_of_eq children (by rwa [List.length_map, count])
      rwa [List.getElem_map, List.getElem_map] at same
    have small : operands[i].tree.size ≤ cap := by
      refine Nat.le_trans (Nat.le_of_lt ?_) (size_le_of_ofTree made)
      exact Tree.size_lt_of_mem (List.mem_map_of_mem (List.getElem_mem h))
    obtain ⟨e, stored⟩ := exists_ofTree_iff.2 small
    refine ⟨_, e, List.getElem?_eq_getElem (count ▸ h), ?_, ?_, stored⟩
    · rw [extract, below]
      exact stored
    · simp [child?, unfolded, h, stored]

end Making

/-- A proper type is in memory what it is by definition, and copying it there gives what is laid
out. -/
structure CopiedInMemory {m : Nat} (d : Descriptor m) : Prop where
  ordered : d.arena.raw.Ordered
  unfolds : ∀ i < d.arena.size, d.arena.raw.Unfolds i (d.arena.tree i)
  extract : ∀ i < d.arena.size,
    RawDescriptor.extract m d.arena.raw i = answer (raw <$> d.extract i)
  resize : ∀ n, RawDescriptor.extract n d.arena.raw d.root = answer (raw <$> d.resize n)

theorem copiedInMemory {m : Nat} {d : Descriptor m} (narrow : d.arena.Narrow) :
    d.CopiedInMemory where
  ordered := Arena.ordered_raw narrow
  unfolds _ hi := Arena.unfolds_raw narrow hi
  extract _ hi := extract_raw narrow hi
  resize _ := extract_raw narrow d.inside

/-- Copying a node appends the tree that is read off there. In an ordered memory every node is read
as one tree, and shared nodes are read once for every path to them. Whatever the other memory holds,
the copy succeeds when the nodes of the tree fit behind the nodes that are there; those stay as they
are, the others come in post-order, and the last of them is read as the same tree. So compact types
are copied to themselves, wherever they fit; a node over at most sixteen types fits when their trees
do, and its children are these types, node for node. -/
theorem copying_appends_unfolded_tree :
    (∀ {s : RawArena}, s.Ordered → ∀ {i : Nat}, i < s.nodes.size →
      ∃ t, (∀ u, s.Unfolds i u ↔ u = t) ∧ ∀ target : RawArena, s.CopiesTree target i t) ∧
    (∀ {m : Nat} (d : Descriptor m), d.arena.Narrow → d.CopiedInMemory) ∧
    (∀ {m : Nat} (d : Descriptor m), d.arena.walk d.root = List.range d.arena.size →
      d.extract d.root = .ok d ∧
      ∀ n, ((∃ e, d.resize n = .ok e) ↔ d.arena.size ≤ n) ∧
        ∀ e, d.resize n = .ok e → e.arena.nodes = d.arena.nodes ∧ e.root = d.root) ∧
    ∀ {cap : Nat} (head : Head) (operands : List (Descriptor cap)), operands.length ≤ 16 →
      ((∃ d, make head operands = .ok d) ↔ 1 + (operands.map (·.tree.size)).sum ≤ cap) ∧
      ((∀ o ∈ operands, o.arena.Narrow) →
        RawDescriptor.make cap head (operands.map raw) = answer (raw <$> make head operands)) ∧
      ∀ d, make head operands = .ok d → ∀ i (h : i < operands.length),
        ∃ c e, (d.arena.node d.root).children[i]? = some c ∧ d.extract c = .ok e ∧
          d.child? i = some (.ok e) ∧ operands[i].extract operands[i].root = .ok e := by
  refine ⟨fun ordered _ hi => ?_, fun _ => copiedInMemory,
    fun _ compact => ⟨extract_of_walk compact, resize_of_walk compact⟩,
    fun head _ few => ⟨exists_make_iff head few, make_raw head, fun _ => child_of_make⟩⟩
  obtain ⟨t, unfolds⟩ := ordered.exists_unfolds hi
  refine ⟨t, fun u => ⟨fun again => again.unique u unfolds, fun same => same ▸ unfolds⟩, ?_⟩
  exact unfolds.copiesTree

/-- A function type whose result and parameters share one node, with something left in the slots out
of use, goes behind a node that is its own child if there are five cells, and not if there are four.
An array type is copied to itself, and a signature over two types takes three cells. -/
theorem copying_appends_unfolded_tree_shared :
    (∃ s : RawArena, s = ⟨3, #[⟨.ofKind .number, .replicate 16 7, 0⟩,
        ⟨.ofKind .string, .replicate 16 7, 0⟩, ⟨.ofKind .fn, .filled 7 [0, 0, 0], 3⟩]⟩ ∧
      s.Ordered ∧ 2 < s.nodes.size ∧
      s.Unfolds 2 (.node (.ofKind .fn) (.replicate 3 (.ofKind .number))) ∧
      (∃ r, RawArena.copy ⟨5, #[⟨.ofKind .array, .replicate 16 0, 1⟩]⟩ s 2 = pure r) ∧
      RawArena.copy ⟨4, #[⟨.ofKind .array, .replicate 16 0, 1⟩]⟩ s 2 = throw .storageFull) ∧
    (∃ d : Descriptor 2, (do (← ofKind 2 .number).array) = .ok d ∧ d.extract d.root = .ok d) ∧
    ∃ number : Descriptor 3, ofKind 3 .number = .ok number ∧ [number, number].length ≤ 16 ∧
      (∃ d, make (.ofKind .fn) [number, number] = .ok d) ∧
      ¬∃ d, make (.ofKind .fn) [number, number, number] = .ok d := by
  obtain ⟨copies, -, compact, making⟩ := copying_appends_unfolded_tree
  refine ⟨⟨_, rfl, ?_⟩, ?_, ?_⟩
  · let s : RawArena := ⟨3, #[⟨.ofKind .number, .replicate 16 7, 0⟩,
      ⟨.ofKind .string, .replicate 16 7, 0⟩, ⟨.ofKind .fn, .filled 7 [0, 0, 0], 3⟩]⟩
    have ordered : s.Ordered := ⟨by decide, by decide⟩
    have number : s.Unfolds 0 (.ofKind .number) :=
      .node (n := ⟨.ofKind .number, .replicate 16 7, 0⟩) rfl (by decide) .nil
    have signature : s.Unfolds 2 (.node (.ofKind .fn) (.replicate 3 (.ofKind .number))) :=
      .node (n := ⟨.ofKind .fn, .filled 7 [0, 0, 0], 3⟩) rfl (by decide)
        (.cons number (.cons number (.cons number .nil)))
    obtain ⟨t, read, copied⟩ := copies ordered (i := 2) (by decide)
    obtain rfl := (read _).1 signature
    exact ⟨ordered, by decide, signature, (copied _).room.2 (by decide),
      (copied _).full (by decide)⟩
  · refine exists_ok (by decide +kernel) fun d made => compact d ?_ |>.1
    have reachable : d.Reachable := Gives.holds made (.bind (.kind rfl) fun number => .array)
    exact reachable.compact.walk
  · refine exists_ok (by decide +kernel) fun number made => ?_
    have small : number.tree.size = 1 := by rw [tree_of_ofTree made]; rfl
    refine ⟨Nat.le_of_ble_eq_true rfl, (making _ _ (Nat.le_of_ble_eq_true rfl)).1.2 ?_, ?_⟩
    · simp [small]
    · rw [(making _ _ (Nat.le_of_ble_eq_true rfl)).1]
      simp [small]

end Descriptor

end StructuralTypes
