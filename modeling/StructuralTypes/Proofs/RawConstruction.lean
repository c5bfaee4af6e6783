import StructuralTypes.Descriptor.Construction
import StructuralTypes.Proofs.RawStorage

/-!
# Building types in raw storage

A node is copied after its children, whose new indices are collected in a row of sixteen and written
into the slots when all are known. Nodes over several types or over some nodes of one type are put
together in the same way. What is built is in memory what the proper construction stores, fault for
fault.
-/

namespace StructuralTypes

namespace RawNode

/-- A node without children. -/
def ofHead (head : Head) : RawNode := ⟨head, .replicate 16 (-1), 0⟩

/-- Take the first indices of a row for the children. -/
def adopt (n : RawNode) (ids : Row Int) (count : Nat) : Checked RawNode := do
  let slots ← (List.range count).foldlM (fun slots k => do slots.write k (← ids.read k)) n.slots
  return { n with slots := slots, used := count }

end RawNode

namespace RawArena

mutual

/-- Copy a node and what is below it behind the nodes of another type. -/
def copy (target source : RawArena) (i : Int) : Checked (RawArena × Int) := do
  let n ← source.read i
  let copied ← target |>.copyEach (fun k => return (source, ← n.child k)) n.used (.replicate 16 0)
  copied.1.add (← n.adopt copied.2 n.used)
partial_fixpoint

/-- Copy some nodes one after the other, and note their new indices from the first slot on. -/
def copyEach (target : RawArena) (origin : Nat → Checked (RawArena × Int)) (count : Nat)
    (ids : Row Int) : Checked (RawArena × Row Int) :=
  (List.range count).foldlM (fun (state : RawArena × Row Int) k => do
    let node ← origin k
    let copied ← state.1 |>.copy node.1 node.2
    return (copied.1, ← state.2.write k copied.2)) (target, ids)
partial_fixpoint

end

end RawArena

namespace RawDescriptor

/-- The type whose root is put behind the other nodes. -/
def place (s : RawArena) (n : RawNode) : Checked RawDescriptor := do
  let stored ← s.add n
  return ⟨stored.1, stored.2⟩

/-- A node without children. -/
def leaf (capacity : Nat) (head : Head) : Checked RawDescriptor :=
  place (.empty capacity) (.ofHead head)

/-- The type of a node in memory. -/
def extract (capacity : Nat) (s : RawArena) (i : Int) : Checked RawDescriptor := do
  let copied ← (RawArena.empty capacity).copy s i
  return ⟨copied.1, copied.2⟩

/-- A node over some types, at most 16. -/
def make (capacity : Nat) (head : Head) (operands : List RawDescriptor) :
    Checked RawDescriptor := do
  if 16 < operands.length then throw .tooManyChildren
  let origin (k : Nat) := Checked.within (operands[k]?.map fun o => (o.arena, o.root))
  let copied ← (RawArena.empty capacity).copyEach origin operands.length (.replicate 16 0)
  place copied.1 (← (RawNode.ofHead head).adopt copied.2 operands.length)

/-- A node over some nodes of a type. -/
def assemble (capacity : Nat) (head : Head) (s : RawArena) (ids : Row Int) (count : Nat) :
    Checked RawDescriptor := do
  if 16 < count then throw .tooManyChildren
  let header := RawNode.ofHead head
  let copied ← (RawArena.empty capacity).copyEach (fun k => return (s, ← ids.read k)) count
    header.slots
  place copied.1 { header with slots := copied.2, used := count }

end RawDescriptor

namespace Arena

open Checked (answer)

variable {m cap : Nat} {a : Arena m}

/-- The arena in memory, and the index of the node that was stored last. -/
def rawLast {k : Nat} (b : { b : Arena cap // k < b.size }) : RawArena × Int :=
  (b.1.raw, (b.1.size - 1 : Nat))

theorem raw_empty : (empty : Arena cap).raw = .empty cap := by
  simp [raw, empty, RawArena.empty]

theorem add_raw (b : Arena cap) (n : Node) (known : ∀ c ∈ n.children, c < b.size) :
    b.raw.add n.raw = answer ((fun c => (c.1.raw, ((c.1.size - 1 : Nat) : Int))) <$>
      b.push n known) := by
  have size : b.raw.nodes.size = b.size := b.size_nodes_raw
  rcases Nat.lt_or_ge b.size cap with room | full
  · have stored : b.raw.add n.raw =
        pure ({ b.raw with nodes := b.raw.nodes.push n.raw }, (b.raw.nodes.size : Int)) :=
      if_neg (Nat.not_le.2 (size ▸ room))
    rw [stored, push, dif_pos room, size]
    refine congrArg pure (Prod.ext ?_ ?_)
    · simp [raw]
    · simp [Arena.size]
  · have rejected : b.raw.add n.raw = throw .storageFull := if_pos (size ▸ full)
    rw [rejected, push, dif_neg (Nat.not_lt.2 full)]
    rfl

/-- Nodes are copied one after the other if each of them is. -/
theorem foldlM_copy {origin : Nat → Checked (RawArena × Int)} (ts : List Tree) (k : Nat)
    (few : k + ts.length ≤ 16)
    (each : ∀ l (h : l < ts.length) (b : Arena cap), (do
      let node ← origin (k + l)
      b.raw.copy node.1 node.2) = answer (rawLast <$> b.graft ts[l]))
    (b : Arena cap) (ids : Row Int) :
    (List.range' k ts.length).foldlM (fun (state : RawArena × Row Int) k => do
      let node ← origin k
      let copied ← state.1.copy node.1 node.2
      return (copied.1, ← state.2.write k copied.2)) (b.raw, ids) =
    answer ((fun e => (e.arena.raw, ids.overlay k (e.roots.map Int.ofNat))) <$> b.graftAll ts) := by
  induction ts generalizing k b ids with
  | nil =>
      rw [graftAll]
      exact congrArg (fun ids => pure (b.raw, ids)) (Row.overlay_nil ids k).symm
  | cons t ts ih =>
      rw [List.length_cons] at few
      have first := each 0 (Nat.zero_lt_succ _) b
      have rest l (h : l < ts.length) (b : Arena cap) : (do
          let node ← origin (k + 1 + l)
          b.raw.copy node.1 node.2) = answer (rawLast <$> b.graft ts[l]) := by
        rw [Nat.succ_add_eq_add_succ]
        exact each (l + 1) (Nat.succ_lt_succ h) b
      have inside : k < 16 := by omega
      have step : (do
          let node ← origin k
          let copied ← b.raw.copy node.1 node.2
          return (copied.1, ← ids.write k copied.2)) =
          answer ((fun c => (c.1.raw, ids.set k ((c.1.size - 1 : Nat) : Int) inside)) <$>
            b.graft t) := by
        rw [← bind_assoc]
        refine (congrArg (· >>= _) first).trans (Checked.answer_map_bind fun c _ => ?_)
        rw [rawLast, Row.write_eq inside]
        rfl
      rw [List.length_cons, List.range'_succ, List.foldlM_cons, step, graftAll, map_bind]
      refine Checked.answer_map_bind fun c _ => ?_
      rw [ih (k + 1) (by omega) rest]
      cases c.1.graftAll ts with
      | error e => rfl
      | ok e =>
          exact congrArg (fun ids => answer (.ok (e.arena.raw, ids)))
            (Row.overlay_cons ids inside _ _).symm

theorem copyEach_raw {origin : Nat → Checked (RawArena × Int)} {ts : List Tree}
    (few : ts.length ≤ 16)
    (each : ∀ l (h : l < ts.length) (b : Arena cap), (do
      let node ← origin l
      b.raw.copy node.1 node.2) = answer (rawLast <$> b.graft ts[l]))
    (b : Arena cap) (ids : Row Int) :
    b.raw.copyEach origin ts.length ids =
      answer ((fun e => (e.arena.raw, ids.overlay 0 (e.roots.map Int.ofNat))) <$>
        b.graftAll ts) := by
  rw [RawArena.copyEach, List.range_eq_range']
  refine foldlM_copy ts 0 (by omega) (fun l h b => ?_) b ids
  rw [Nat.zero_add]
  exact each l h b

/-- Some nodes have as many roots as there are trees. -/
theorem length_roots {ts : List Tree} {b : Arena cap} {e : Extension b}
    (h : b.graftAll ts = .ok e) : e.roots.length = ts.length := by
  rw [← map_tree_graftAll ts h, List.length_map]

theorem adopt_raw (n : RawNode) {roots : List Nat} (few : roots.length ≤ 16) :
    n.adopt ((Row.filled 0 (roots.map Int.ofNat))) roots.length =
      pure { n with slots := n.slots.overlay 0 (roots.map Int.ofNat), used := roots.length } := by
  have length : (roots.map Int.ofNat).length = roots.length := List.length_map ..
  have slots l (h : l < (roots.map Int.ofNat).length) :
      (Row.filled 0 (roots.map Int.ofNat)).read (0 + l) = pure (roots.map Int.ofNat)[l] := by
    rw [Nat.zero_add]
    exact Row.read_overlay _ h (by omega)
  have written := Row.foldlM_write _ 0 (by omega) slots n.slots
  rw [length, ← List.range_eq_range'] at written
  rw [RawNode.adopt, written]
  rfl

/-- Copying in memory stores what copying in the arena does. -/
theorem copy_raw (narrow : a.Narrow) {i : Nat} (hi : i < a.size) (b : Arena cap) :
    b.raw.copy a.raw i = answer (rawLast <$> b.graft (a.tree i)) := by
  -- Children precede their parents, so a node is copied after nodes of smaller indices.
  induction i using Nat.strongRecOn generalizing b with
  | _ i ih =>
    have few : ((a.node i).children.map a.tree).length ≤ 16 := by
      rw [List.length_map]
      exact narrow i
    have each l (h : l < ((a.node i).children.map a.tree).length) (b : Arena cap) : (do
        let node ← (do return (a.raw, ← (a.node i).raw.child l) : Checked (RawArena × Int))
        b.raw.copy node.1 node.2) =
        answer (rawLast <$> b.graft ((a.node i).children.map a.tree)[l]) := by
      rw [List.length_map] at h
      have inside := List.getElem_mem h
      have earlier := a.child_lt inside
      rw [Node.child_raw (narrow i) h, pure_bind, pure_bind, List.getElem_map]
      exact ih _ earlier (Nat.lt_trans earlier hi) b
    have used : (a.node i).raw.used = ((a.node i).children.map a.tree).length :=
      (List.length_map ..).symm
    rw [RawArena.copy, read_raw hi, pure_bind, used, copyEach_raw few each, a.tree_node, graft,
      map_bind]
    refine Checked.answer_map_bind fun e he => ?_
    have roots : e.roots.length = ((a.node i).children.map a.tree).length := length_roots he
    have adopted := adopt_raw (a.node i).raw (roots ▸ few)
    have node : { (a.node i).raw with
        slots := (a.node i).raw.slots.overlay 0 (e.roots.map Int.ofNat), used := e.roots.length } =
        (⟨(a.node i).head, e.roots⟩ : Node).raw := by
      refine congrArg (fun slots => RawNode.mk (a.node i).head slots e.roots.length) ?_
      apply Row.overlay_overlay
      refine Nat.le_of_eq ?_
      rw [List.length_map, List.length_map, roots, List.length_map]
    rw [node] at adopted
    rw [← roots]
    refine (congrArg (· >>= _) adopted).trans ?_
    rw [pure_bind, add_raw e.arena ⟨(a.node i).head, e.roots⟩ e.known]
    cases e.arena.push ⟨(a.node i).head, e.roots⟩ e.known <;> rfl

/-- At most sixteen nodes, in some order. -/
structure Selection (a : Arena m) where
  ids : List Nat
  few : ids.length ≤ 16
  inside : ∀ i ∈ ids, i < a.size

namespace Selection

/-- The indices from the first slot on, and how many they are. -/
def raw (s : a.Selection) : Row Int × Nat := (.filled 0 (s.ids.map Int.ofNat), s.ids.length)

/-- The trees of the nodes. -/
def trees (s : a.Selection) : List Tree := s.ids.map a.tree

theorem inside_nil (a : Arena m) : ∀ i ∈ ([] : List Nat), i < a.size := nofun

/-- No node. -/
def none : a.Selection := ⟨[], Nat.zero_le 16, inside_nil a⟩

/-- One more node, behind the others. -/
def snoc (s : a.Selection) {i : Nat} (hi : i < a.size) (room : s.ids.length < 16) :
    a.Selection where
  ids := s.ids ++ [i]
  few := by
    rw [List.length_append]
    exact room
  inside := by
    intro k hk
    rcases List.mem_append.1 hk with hk | hk
    · exact s.inside k hk
    · rwa [List.mem_singleton.1 hk]

theorem read_raw (s : a.Selection) {k : Nat} (h : k < s.ids.length) :
    s.raw.1.read k = pure (s.ids[k] : Int) := by
  have few : (s.ids.map Int.ofNat).length ≤ 16 := by
    rw [List.length_map]
    exact s.few
  rw [raw, Row.filled, Row.read_overlay _ (by rwa [List.length_map]) few, List.getElem_map]
  rfl

theorem raw_none : (none : a.Selection).raw = (.replicate 16 0, 0) :=
  Prod.ext (Row.overlay_nil _ 0) rfl

/-- A node is written into the slot behind the others. -/
theorem write_raw (s : a.Selection) {i : Nat} (hi : i < a.size) (room : s.ids.length < 16) :
    (do return (← s.raw.1.write s.raw.2 i, s.raw.2 + 1)) =
      (pure (s.snoc hi room).raw : Checked (Row Int × Nat)) := by
  have length : (s.ids.map Int.ofNat).length = s.ids.length := List.length_map ..
  have written := Row.write_filled 0 (i : Int) (length ▸ room)
  have ids : s.ids.map Int.ofNat ++ [(i : Int)] = (s.snoc hi room).ids.map Int.ofNat := by
    rw [snoc, List.map_append]
    rfl
  have count : s.raw.2 + 1 = (s.snoc hi room).ids.length := by
    rw [snoc, List.length_append]
    rfl
  rw [length, ids] at written
  rw [count]
  exact congrArg (· >>= _) written

/-- A node on its own. -/
theorem exists_single {i : Nat} (hi : i < a.size) :
    ∃ s : a.Selection, Row.single 0 (i : Int) = pure s.raw ∧ s.trees = [a.tree i] := by
  have written := none.write_raw hi (Nat.zero_lt_succ _)
  rw [raw_none] at written
  exact ⟨_, written, rfl⟩

end Selection

end Arena

namespace Descriptor

open Checked (answer)
open Arena (rawLast)

variable {m cap : Nat} {a : Arena m}

/-- The tree of a node in memory is laid out on its own. -/
theorem extract_raw (narrow : a.Narrow) {i : Nat} (hi : i < a.size) :
    RawDescriptor.extract cap a.raw i = answer (raw <$> ofTree cap (a.tree i)) := by
  have copied := Arena.copy_raw narrow hi (.empty : Arena cap)
  rw [Arena.raw_empty] at copied
  rw [RawDescriptor.extract, copied, ofTree, map_bind]
  exact Checked.answer_map_bind fun b _ => rfl

/-- The root is put behind the trees below it. -/
theorem place_raw {head : Head} {ts : List Tree} (node : RawArena × Row Int → Checked RawNode)
    {ids : Row Int} (complete : ∀ e : Arena.Extension (.empty : Arena cap),
      e.roots.length = ts.length → node (e.arena.raw, ids.overlay 0 (e.roots.map Int.ofNat)) =
        pure (⟨head, e.roots⟩ : Node).raw) :
    (do
      let copied ← answer ((fun e => (e.arena.raw, ids.overlay 0 (e.roots.map Int.ofNat))) <$>
        (Arena.empty : Arena cap).graftAll ts)
      RawDescriptor.place copied.1 (← node copied)) =
    answer (raw <$> ofTree cap (.node head ts)) := by
  rw [ofTree, Arena.graft, bind_assoc, map_bind]
  refine Checked.answer_map_bind fun e he => ?_
  rw [complete e (Arena.length_roots he), pure_bind, RawDescriptor.place, Arena.add_raw _ _ e.known]
  cases e.arena.push ⟨head, e.roots⟩ e.known <;> rfl

/-- Nodes of one type are put together under a new root. -/
theorem assemble_raw (narrow : a.Narrow) (head : Head) (s : a.Selection) :
    RawDescriptor.assemble cap head a.raw s.raw.1 s.raw.2 =
      answer (raw <$> ofTree cap (.node head s.trees)) := by
  have length : s.trees.length = s.ids.length := List.length_map ..
  have each l (h : l < s.trees.length) (b : Arena cap) : (do
      let node ← (do return (a.raw, ← s.raw.1.read l) : Checked (RawArena × Int))
      b.raw.copy node.1 node.2) = answer (rawLast <$> b.graft s.trees[l]) := by
    have inside := List.getElem_mem (length ▸ h)
    rw [s.read_raw (length ▸ h), pure_bind, pure_bind]
    refine (Arena.copy_raw narrow (s.inside _ inside) b).trans ?_
    simp only [Arena.Selection.trees, List.getElem_map]
  have copied := Arena.copyEach_raw (length ▸ s.few) each (.empty : Arena cap) (.replicate 16 (-1))
  rw [Arena.raw_empty, length] at copied
  have room : ¬16 < s.raw.2 := Nat.not_lt.2 s.few
  rw [RawDescriptor.assemble, if_neg room]
  refine (congrArg (· >>= _) copied).trans ?_
  refine place_raw (fun copied =>
    pure { RawNode.ofHead head with slots := copied.2, used := s.ids.length }) fun e roots => ?_
  rw [length] at roots
  rw [← roots]
  rfl

theorem leaf_raw (head : Head) : RawDescriptor.leaf cap head = answer (raw <$> leaf cap head) := by
  have node : RawNode.ofHead head = (⟨head, []⟩ : Node).raw :=
    congrArg (fun slots => RawNode.mk head slots 0) (Row.overlay_nil _ 0).symm
  have placed := @place_raw cap head [] (fun _ => pure (.ofHead head)) (.replicate 16 0)
    fun e roots => by rw [node, List.length_eq_zero_iff.1 roots]
  rw [Arena.graftAll] at placed
  rw [leaf, ← placed, RawDescriptor.leaf, ← Arena.raw_empty]
  rfl

/-- Types are put together under a new root. -/
theorem make_raw (head : Head) {operands : List (Descriptor cap)}
    (narrow : ∀ o ∈ operands, o.arena.Narrow) :
    RawDescriptor.make cap head (operands.map raw) = answer (raw <$> make head operands) := by
  have length : (operands.map raw).length = operands.length := List.length_map ..
  have length' : (operands.map tree).length = operands.length := List.length_map ..
  rw [RawDescriptor.make, make, ofNode, length, length']
  split
  · rfl
  · next few =>
    rw [Nat.not_lt] at few
    have each l (h : l < (operands.map tree).length) (b : Arena cap) : (do
        let node ← Checked.within ((operands.map raw)[l]?.map fun o => (o.arena, o.root))
        b.raw.copy node.1 node.2) = answer (rawLast <$> b.graft (operands.map tree)[l]) := by
      rw [length'] at h
      rw [List.getElem?_map, List.getElem?_eq_getElem h, Option.map_some, Option.map_some,
        Checked.within_some, pure_bind, List.getElem_map]
      exact Arena.copy_raw (narrow _ (List.getElem_mem h)) operands[l].inside b
    have copied := Arena.copyEach_raw (length' ▸ few) each (.empty : Arena cap) (.replicate 16 0)
    rw [Arena.raw_empty, length'] at copied
    refine (congrArg (· >>= _) copied).trans ?_
    refine place_raw (fun copied =>
      (RawNode.ofHead head).adopt copied.2 operands.length) fun e roots => ?_
    rw [length'] at roots
    rw [← roots]
    exact Arena.adopt_raw _ (roots ▸ few)

end Descriptor

end StructuralTypes
