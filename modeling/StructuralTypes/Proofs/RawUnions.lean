import StructuralTypes.Descriptor.Construction
import StructuralTypes.Proofs.RawAssignability
import StructuralTypes.Proofs.RawConstruction
import StructuralTypes.Proofs.Reachable

/-!
# Unions in raw storage

The alternatives of a union are collected by their indices, in a row of sixteen. An alternative that
equals one in the row is left out, and one that comes when the row is full is a fault. Excluding
collects in the same way the alternatives that are not assignable. What is collected becomes a type
of its own.
-/

namespace StructuralTypes

namespace RawNode

/-- The children that pass a test, and how many they are. -/
def gather (n : RawNode) (test : Int → Checked Bool) : Checked (Row Int × Nat) :=
  n.positions.foldlM (fun kept k => do
    let c ← n.child k
    if ← test c then return (← kept.1.write kept.2 c, kept.2 + 1)
    else return kept) (.replicate 16 0, 0)

end RawNode

namespace RawArena

/-- Go on collecting the alternatives at and below a node. -/
def collect (s : RawArena) (i : Int) (found : Row Int × Nat) : Checked (Row Int × Nat) := do
  let n ← s.read i
  if n.head.tag == .known .union then
    n.positions.foldlM (fun found k => do s |>.collect (← n.child k) found) found
  else if n.head.tag == .known .never then return found
  else if ← (List.range found.2).anyM fun k => do s.equal s (← found.1.read k) i then return found
  else if 16 ≤ found.2 then throw .tooManyAlternatives
  else return (← found.1.write found.2 i, found.2 + 1)
partial_fixpoint

end RawArena

namespace RawDescriptor

/-- The type of some alternatives. -/
def unionOf (capacity : Nat) (s : RawArena) (found : Row Int × Nat) : Checked RawDescriptor := do
  if found.2 = 0 then leaf capacity (.ofKind .never)
  else if found.2 = 1 then extract capacity s (← found.1.read 0)
  else assemble capacity (.ofKind .union) s found.1 found.2

/-- The normal form of a union. -/
def normalized (d : RawDescriptor) : Checked RawDescriptor := do
  let found ← d.arena.collect d.root (.replicate 16 0, 0)
  if ← (List.range found.2).anyM fun k => do
      return (← d.arena.read (← found.1.read k)).head.tag == .known .unknown then
    leaf d.arena.capacity (.ofKind .unknown)
  else unionOf d.arena.capacity d.arena found

/-- A union type. -/
def union (capacity : Nat) (operands : List RawDescriptor) : Checked RawDescriptor := do
  normalized (← make capacity (.ofKind .union) operands)

/-- The nodes of the alternatives that are not assignable to another type. -/
def kept (d other : RawDescriptor) : Checked (Row Int × Nat) := do
  let n ← d.arena.read d.root
  if n.head.tag == .known .union then
    n.gather fun c => return !(← d.arena.assignable other.arena c other.root)
  else if n.head.tag == .known .never then return (.replicate 16 0, 0)
  else if ← d.arena.assignable other.arena d.root other.root then return (.replicate 16 0, 0)
  else Row.single 0 d.root

/-- The alternatives of `d` that are not assignable to `other`. -/
def exclude (d other : RawDescriptor) : Checked RawDescriptor := do
  unionOf d.arena.capacity d.arena (← d.kept other)

end RawDescriptor

/-- No node has more children than there are slots for. -/
inductive Tree.Narrow : Tree → Prop
  | node {head : Head} {children : List Tree} (few : children.length ≤ 16)
      (below : ∀ c ∈ children, Narrow c) : Narrow (node head children)

namespace Tree

namespace Shaped

variable {t : Tree} (h : t.Shaped)

include h

theorem few : t.children.length ≤ 16 := by
  obtain ⟨kind, k⟩ := h.kind
  have other (leaf : kind ∉ [.union, .object, .member, .fn, .ctor, .array]) :
      t.children.length ≤ 16 := by
    rw [h.leaf fun other listed => isKind_eq_false k fun same => leaf (same ▸ listed)]
    exact Nat.zero_le 16
  cases kind with
  | union => exact (h.union k).2.1
  | object => exact (h.object k).1
  | fn => exact (h.signature (.inl k)).2
  | ctor => exact (h.signature (.inr k)).2
  | array =>
      rw [h.array k]
      decide
  | member =>
      rw [(h.member k).1.type]
      exact Nat.one_le_ofNat
  | _ => exact other (by decide)

theorem first (reads : t.tag.readsFirst = true) : t.children ≠ [] := by
  obtain ⟨kind, k⟩ := h.kind
  rw [isKind_iff.1 k] at reads
  cases kind with
  | fn => exact List.length_pos_iff.1 (h.signature (.inl k)).1
  | ctor => exact List.length_pos_iff.1 (h.signature (.inr k)).1
  | array => exact List.ne_nil_of_length_eq_add_one (h.array k)
  | member => exact (h.member k).1.below
  | _ => cases reads

end Shaped

theorem length_layoutRoots (base : Nat) (ts : List Tree) :
    (layoutRoots base ts).length = ts.length := by
  induction ts generalizing base with
  | nil => rfl
  | cons t ts ih => exact congrArg (· + 1) (ih (base + t.size))

mutual

theorem Narrow.layout {t : Tree} (h : t.Narrow) (base : Nat) :
    ∀ n ∈ t.layout base, n.children.length ≤ 16 := by
  match h with
  | @Narrow.node head children few below =>
    intro n hn
    rw [Tree.layout] at hn
    rcases List.mem_append.1 hn with hn | hn
    · exact layoutAll_narrow below base n hn
    · rw [List.mem_singleton.1 hn, length_layoutRoots]
      exact few

theorem layoutAll_narrow {ts : List Tree} (h : ∀ t ∈ ts, t.Narrow) (base : Nat) :
    ∀ n ∈ layoutAll base ts, n.children.length ≤ 16 := by
  match ts with
  | [] => exact nofun
  | t :: ts =>
    obtain ⟨first, rest⟩ := List.forall_mem_cons.1 h
    intro n hn
    rw [layoutAll] at hn
    rcases List.mem_append.1 hn with hn | hn
    · exact Narrow.layout first base n hn
    · exact layoutAll_narrow rest (base + t.size) n hn

end

end Tree

namespace Arena

open Checked (answer)

variable {m : Nat} {a : Arena m}

theorem Narrow.tree (h : a.Narrow) (i : Nat) : (a.tree i).Narrow := by
  induction i using Nat.strongRecOn with
  | _ i ih =>
      rw [a.tree_node]
      refine .node ?_ (List.forall_mem_map.2 fun c hc => ih c (a.child_lt hc))
      rw [List.length_map]
      exact h i

theorem Selection.trees_snoc (s : a.Selection) {i : Nat} (hi : i < a.size)
    (room : s.ids.length < 16) : (s.snoc hi room).trees = s.trees ++ [a.tree i] := List.map_append

section Gathering

variable {i : Nat} (hi : i < a.size) (test : Int → Checked Bool) {p : Tree → Bool}

include hi

/-- What passed so far takes up no more slots than were looked at, so there is room for the next. -/
theorem foldlM_gather (cs : List Nat) (found : a.Selection)
    (known : ∀ c ∈ cs, c ∈ (a.node i).children) (each : ∀ c ∈ cs, test c = pure (p (a.tree c)))
    (room : found.ids.length + cs.length ≤ 16) :
    ∃ kept : a.Selection, cs.foldlM (fun kept (c : Nat) => do
        if ← test c then return (← kept.1.write kept.2 c, kept.2 + 1)
        else return kept) found.raw = (pure kept.raw : Checked (Row Int × Nat)) ∧
      kept.trees = found.trees ++ (cs.map a.tree).filter p := by
  induction cs generalizing found with
  | nil => exact ⟨found, rfl, (List.append_nil _).symm⟩
  | cons c cs ih =>
      obtain ⟨first, rest⟩ := List.forall_mem_cons.1 known
      obtain ⟨asked, others⟩ := List.forall_mem_cons.1 each
      rw [List.length_cons] at room
      rw [List.foldlM_cons, asked, pure_bind, List.map_cons, List.filter_cons]
      cases p (a.tree c) with
      | false => exact ih found rest others (by omega)
      | true =>
          have inside := lt_size_of_mem hi first
          have free : found.ids.length < 16 := by omega
          have less : (found.snoc inside free).ids.length + cs.length ≤ 16 := by
            rw [Selection.snoc, List.length_append, List.length_singleton]
            omega
          obtain ⟨kept, run, trees⟩ := ih (found.snoc inside free) rest others less
          refine ⟨kept, ?_, ?_⟩
          · rw [if_pos rfl, found.write_raw inside free, pure_bind]
            exact run
          · rw [trees, found.trees_snoc, List.append_assoc]
            rfl

/-- The children that pass the test are gathered in order. -/
theorem gather_raw (narrow : a.Narrow)
    (each : ∀ c ∈ (a.node i).children, test c = pure (p (a.tree c))) :
    ∃ kept : a.Selection, (a.node i).raw.gather test = pure kept.raw ∧
      kept.trees = (a.tree i).children.filter p := by
  have room : (Selection.none : a.Selection).ids.length + (a.node i).children.length ≤ 16 := by
    rw [Selection.none, List.length_nil, Nat.zero_add]
    exact narrow i
  obtain ⟨kept, run, trees⟩ :=
    foldlM_gather hi test (a.node i).children .none (fun _ => id) each room
  refine ⟨kept, ?_, ?_⟩
  · rw [RawNode.gather, ← Selection.raw_none]
    exact ((a.node i).foldlM_raw (narrow i) _ _).trans run
  · rw [trees, a.tree_node]
    rfl

end Gathering

/-- Going through the alternatives that were collected asks about all of them. -/
theorem anyM_raw (s : a.Selection) (test : Int → Checked Bool) {p : Tree → Bool}
    (each : ∀ i ∈ s.ids, test i = pure (p (a.tree i))) :
    ((List.range s.raw.2).anyM fun k => do test (← s.raw.1.read k)) = pure (s.trees.any p) := by
  have slots : List.Forall₂ (fun k t => (do test (← s.raw.1.read k)) =
      (pure (p t) : Checked Bool)) (List.range s.raw.2) s.trees := by
    rw [List.forall₂_iff_get]
    refine ⟨?_, fun k h h' => ?_⟩
    · rw [List.length_range, Selection.trees, List.length_map]
      rfl
    · rw [List.length_range] at h
      simp only [List.get_eq_getElem, List.getElem_range, Selection.trees, List.getElem_map]
      rw [s.read_raw h, pure_bind]
      exact each _ (List.getElem_mem h)
  rw [anyM_congr slots, List.anyM_pure]

/-- One alternative is collected, unless it is known. -/
theorem add_alternative_raw (found : a.Selection) {i : Nat} (hi : i < a.size)
    {known : Checked Bool} (search : known = pure (found.trees.any (·.equiv (a.tree i)))) :
    ∃ r : Except Fault a.Selection, (do
      if ← known then return found.raw
      else if 16 ≤ found.raw.2 then throw .tooManyAlternatives
      else return (← found.raw.1.write found.raw.2 i, found.raw.2 + 1)) =
        answer (Selection.raw <$> r) ∧
      Selection.trees <$> r = Tree.addAlternative found.trees (a.tree i) := by
  have count : found.trees.length = found.ids.length := List.length_map ..
  subst search
  rw [pure_bind, Tree.addAlternative, count]
  cases found.trees.any (·.equiv (a.tree i)) with
  | true => exact ⟨.ok found, rfl, rfl⟩
  | false =>
      rw [if_neg Bool.false_ne_true, if_neg Bool.false_ne_true]
      rcases Nat.lt_or_ge found.ids.length 16 with room | full
      · have free : ¬16 ≤ found.raw.2 := Nat.not_le.2 room
        refine ⟨.ok (found.snoc hi room), ?_, ?_⟩
        · rw [if_neg free, found.write_raw hi room]
          rfl
        · rw [if_pos room]
          exact congrArg Except.ok (found.trees_snoc hi room)
      · refine ⟨.error .tooManyAlternatives, ?_, ?_⟩
        · exact if_pos full
        · rw [if_neg (Nat.not_lt.2 full)]
          rfl

/-- Collecting the alternatives at and below a node adds them to those that were found before. -/
def Collects (a : Arena m) (i : Nat) : Prop :=
  ∀ found : a.Selection, ∃ r : Except Fault a.Selection,
    a.raw.collect i found.raw = answer (Selection.raw <$> r) ∧
    Selection.trees <$> r = Tree.addAlternatives found.trees (a.tree i)

/-- Each node starts with what was found at the nodes before it. -/
theorem foldlM_collect {cs : List Nat} (each : ∀ c ∈ cs, a.Collects c) (found : a.Selection) :
    ∃ r : Except Fault a.Selection,
      cs.foldlM (fun found (c : Nat) => a.raw.collect c found) found.raw =
        answer (Selection.raw <$> r) ∧
      Selection.trees <$> r = Tree.addAllAlternatives found.trees (cs.map a.tree) := by
  induction cs generalizing found with
  | nil => exact ⟨.ok found, rfl, rfl⟩
  | cons c cs ih =>
      obtain ⟨first, rest⟩ := List.forall_mem_cons.1 each
      obtain ⟨r, run, trees⟩ := first found
      rw [List.foldlM_cons, run, List.map_cons, Tree.addAllAlternatives, ← trees]
      cases r with
      | error fault => exact ⟨.error fault, rfl, rfl⟩
      | ok s => exact ih rest s

theorem collect_raw (narrow : a.Narrow) {i : Nat} (hi : i < a.size) : a.Collects i := by
  induction i using Nat.strongRecOn with
  | _ i ih =>
    intro found
    rw [RawArena.collect, read_raw hi, pure_bind, a.tree_node, Tree.addAlternatives]
    change ∃ r, (if (a.node i).head.tag == .known .union then _ else
      if (a.node i).head.tag == .known .never then _ else _) = _ ∧ _
    split
    · have below : ∀ c ∈ (a.node i).children, a.Collects c := fun c hc =>
        ih c (a.child_lt hc) (lt_size_of_mem hi hc)
      obtain ⟨r, run, trees⟩ := foldlM_collect below found
      exact ⟨r, ((a.node i).foldlM_raw (narrow i) _ _).trans run, trees⟩
    split
    · exact ⟨.ok found, rfl, rfl⟩
    · rw [← a.tree_node]
      refine add_alternative_raw found hi (anyM_raw found _ fun k hk => ?_)
      rw [equal_raw narrow narrow (found.inside k hk) hi, equalAt_eq_equiv]

end Arena

namespace Descriptor

open Checked (answer)

variable {m cap : Nat} {a : Arena m} {d : Descriptor cap}

theorem narrow_ofTree {t : Tree} (h : t.Narrow) (made : ofTree cap t = .ok d) :
    d.arena.Narrow := by
  intro i
  have stored := (layout_of_ofTree made).1
  rcases Nat.lt_or_ge i d.arena.nodes.size with inside | outside
  · rw [d.arena.node_eq inside]
    refine h.layout 0 _ ?_
    exact List.mem_toArray.1 (stored ▸ Array.getElem_mem inside)
  · rw [d.arena.node_eq_default outside]
    exact Nat.zero_le 16

/-- A type is made of the alternatives that were collected. -/
theorem unionOf_raw (narrow : a.Narrow) (s : a.Selection) :
    RawDescriptor.unionOf cap a.raw s.raw =
      answer (raw <$> ofTree cap (.ofAlternatives s.trees)) := by
  match s with
  | ⟨[], _, _⟩ => exact leaf_raw _
  | ⟨[i], few, inside⟩ =>
    have slot := (⟨[i], few, inside⟩ : a.Selection).read_raw (k := 0) Nat.zero_lt_one
    refine (congrArg (· >>= _) slot).trans ?_
    exact extract_raw narrow (inside i List.mem_cons_self)
  | ⟨i :: j :: ids, few, inside⟩ =>
    exact assemble_raw narrow (.ofKind .union) ⟨i :: j :: ids, few, inside⟩

theorem normalized_raw (narrow : d.arena.Narrow) :
    d.raw.normalized = answer (raw <$> d.normalized) := by
  obtain ⟨r, run, trees⟩ := Arena.collect_raw narrow d.inside .none
  rw [Arena.Selection.raw_none] at run
  have found : Tree.distinctAlternatives d.tree = Arena.Selection.trees <$> r := trees.symm
  rw [normalized, transform, Tree.normalized, found]
  refine (congrArg (· >>= _) run).trans ?_
  cases r with
  | error fault => rfl
  | ok s =>
      let unknown (i : Int) : Checked Bool := do
        return (← d.raw.arena.read i).head.tag == .known .unknown
      have each : ∀ i ∈ s.ids, unknown i = pure ((d.arena.tree i).isKind .unknown) := by
        intro i hi
        rw [Arena.isKind_tree]
        exact congrArg (· >>= _) (Arena.read_raw (s.inside i hi))
      have search := Arena.anyM_raw s unknown (p := (·.isKind .unknown)) each
      refine (congrArg (· >>= _) search).trans ?_
      change (if s.trees.any (·.isKind .unknown) then _ else _) = answer (raw <$> ofTree cap
        (if s.trees.any (·.isKind .unknown) then _ else _))
      split
      · exact leaf_raw _
      · exact unionOf_raw narrow s

/-- A union in memory is the union of the types, or fails like it. -/
theorem union_raw {operands : List (Descriptor cap)} (narrow : ∀ o ∈ operands, o.arena.Narrow) :
    RawDescriptor.union cap (operands.map raw) = answer (raw <$> union operands) := by
  rw [RawDescriptor.union, make_raw _ narrow, union, map_bind]
  refine Checked.answer_map_bind fun d made => normalized_raw ?_
  rw [make, ofNode] at made
  split at made
  · cases made
  · next few =>
    refine narrow_ofTree (.node (Nat.not_lt.1 few) ?_) made
    exact List.forall_mem_map.2 fun o ho => (narrow o ho).tree o.root

section Reachable

variable (h : Reachable d)

include h

theorem Reachable.narrow : d.arena.Narrow := by
  intro i
  rcases Nat.lt_or_ge i d.arena.size with inside | outside
  · rw [← d.arena.length_children_tree]
    exact (h.compact.shaped i inside).few
  · rw [d.arena.node_eq_default outside]
    exact Nat.zero_le 16

theorem Reachable.complete : d.tree.Complete := by
  refine Arena.Complete.tree ⟨fun i hi reads => ?_, fun i hi object c hc => ?_⟩ d.root
  · rw [← d.arena.tag_tree] at reads
    have given := (h.compact.shaped i hi).first reads
    rwa [← List.length_pos_iff, d.arena.length_children_tree, List.length_pos_iff] at given
  · rw [← d.arena.tag_tree, ← Tree.isKind_iff] at object
    have member := ((h.compact.shaped i hi).object object).2.1 _ (d.arena.tree_mem_children hc)
    have given := member.below
    rwa [← List.length_pos_iff, d.arena.length_children_tree, List.length_pos_iff] at given

/-- The alternatives that are kept are noted in order. -/
theorem exists_kept {other : Descriptor cap} (k : Reachable other) :
    ∃ s : d.arena.Selection, d.raw.kept other.raw = pure s.raw ∧
      Tree.ofAlternatives s.trees = d.tree.exclude other.tree := by
  have answers {i : Nat} (hi : i < d.arena.size) (complete : (d.arena.tree i).Complete) :
      d.raw.arena.assignable other.raw.arena i other.raw.root =
        pure ((d.arena.tree i).assignable other.tree) :=
    Arena.assignable_raw h.narrow k.narrow hi other.inside complete k.complete
  have header : d.raw.arena.read d.raw.root = pure (d.arena.node d.root).raw :=
    Arena.read_raw d.inside
  have kinds (kind : Kind) : ((d.arena.node d.root).raw.head.tag == .known kind) =
      d.tree.isKind kind := (Arena.isKind_tree kind).symm
  rw [RawDescriptor.kept, header, pure_bind, kinds, kinds, Tree.exclude]
  split
  · let test (c : Int) : Checked Bool := do
      return !(← d.raw.arena.assignable other.raw.arena c other.raw.root)
    have below : ∀ c ∈ (d.arena.node d.root).children,
        test c = pure (!(d.arena.tree c).assignable other.tree) := by
      intro c hc
      have complete := h.complete.child _ (d.arena.tree_mem_children hc)
      simp only [test, answers (Arena.lt_size_of_mem d.inside hc) complete, pure_bind]
    obtain ⟨s, run, trees⟩ := Arena.gather_raw (p := fun t => !t.assignable other.tree) d.inside
      test h.narrow below
    exact ⟨s, run, congrArg Tree.ofAlternatives trees⟩
  cases d.tree.isKind .never with
  | true => exact ⟨.none, congrArg pure Arena.Selection.raw_none.symm, rfl⟩
  | false =>
      have root : d.raw.arena.assignable other.raw.arena d.raw.root other.raw.root =
          pure (d.tree.assignable other.tree) := answers d.inside h.complete
      rw [if_neg Bool.false_ne_true, root, pure_bind, Bool.false_or]
      split
      · exact ⟨.none, congrArg pure Arena.Selection.raw_none.symm, rfl⟩
      · obtain ⟨s, run, trees⟩ := Arena.Selection.exists_single d.inside
        exact ⟨s, run, congrArg Tree.ofAlternatives trees⟩

/-- What is excluded in memory is what is excluded from the type. -/
theorem exclude_raw {other : Descriptor cap} (k : Reachable other) :
    d.raw.exclude other.raw = answer (raw <$> d.exclude other) := by
  obtain ⟨s, run, rest⟩ := exists_kept h k
  rw [RawDescriptor.exclude, run, pure_bind, exclude, ← rest]
  exact unionOf_raw h.narrow s

end Reachable

end Descriptor

end StructuralTypes
