import StructuralTypes.Proofs.EqualShapes
import StructuralTypes.Proofs.KeySelection
import StructuralTypes.Proofs.RawRendering
import StructuralTypes.Proofs.RawUnions

/-!
# Shapes in raw storage

A member is looked up by going through the slots of an object. What is selected is put together
under a new root; what is revised is copied first, and then changed in place. A look-up that fails
reports the keys and the shape, which are read from memory as well.
-/

namespace StructuralTypes

namespace RawArena

/-- The names of the children of a node, as keys in order. -/
def memberKeys (s : RawArena) (n : RawNode) : Checked KeySet :=
  n.positions.foldlM (fun known k => do
    let m ← s.read (← n.child k)
    .answer (known.insert m.head.name.text)) .empty

end RawArena

namespace RawDescriptor

variable (d : RawDescriptor)

/-- The node of the root. -/
def header : Checked RawNode := d.arena.read d.root

/-- The rendered type. -/
def render : Checked (Buffer 256) := d.arena.render d.root

/-- The type is an object. -/
def requireObject : Checked Unit := do
  if (← d.header).head.tag == .known .object then return ()
  else throw (.notObject (← d.render).content)

/-- The index of the member that an operation asks for. -/
def member (operation : Operation) (key : Text) : Checked Int := do
  d.requireObject
  let n ← d.header
  let found ← d.arena.findMember n key
  if found < 0 then
    let known ← d.arena.memberKeys n
    throw (.unknownKey operation key known.render.content (← d.render).content)
  else return found

/-- An operation asks for all keys of a set. -/
def requireMembers (operation : Operation) (keys : KeySet) : Checked Unit :=
  keys.keys.forM fun k => discard (d.member operation k.text)

/-- The number of members. -/
def memberCount : Checked Nat := do
  d.requireObject
  return (← d.header).used

/-- The object has a member of this key. -/
def hasKey (key : Text) : Checked Bool := do
  d.requireObject
  return 0 ≤ (← d.arena.findMember (← d.header) key)

/-- The keys of the members, in order. -/
def keys : Checked KeySet := do
  d.requireObject
  d.arena.memberKeys (← d.header)

/-- The modifiers of a member. -/
def memberModifiers (key : Text) : Checked Modifiers := do
  return (← d.arena.read (← d.member .memberFlags key)).head.modifiers

/-- The declared type of a member. -/
def declaredType (key : Text) : Checked RawDescriptor := do
  let m ← d.arena.read (← d.member .declaredType key)
  extract d.arena.capacity d.arena (← m.child 0)

/-- The type of reading a member. -/
def propertyType (key : Text) : Checked RawDescriptor := do
  let declared ← d.declaredType key
  if (← d.memberModifiers key).optional then
    union d.arena.capacity [declared, ← leaf d.arena.capacity (.ofKind .undefined)]
  else return declared

/-- The object of some members. -/
def ofMembers (ids : Row Int × Nat) : Checked RawDescriptor :=
  assemble d.arena.capacity (.ofKind .object) d.arena ids.1 ids.2

/-- The object that has one member alone. -/
def slice (key : Text) : Checked RawDescriptor := do
  let i ← d.member .slice key
  d.ofMembers (← Row.single 0 i)

/-- The members whose keys are in a set, or those whose keys are not. -/
def select (keys : KeySet) (inside : Bool) : Checked (Row Int × Nat) := do
  (← d.header).gather fun c => do
    return keys.contains (← d.arena.read c).head.name.text == inside

/-- The object of the members whose keys are in a set. -/
def pick (keys : KeySet) : Checked RawDescriptor := do
  d.requireMembers .pick keys
  d.ofMembers (← d.select keys true)

/-- The object of the members whose keys are not in a set. -/
def drop (keys : KeySet) : Checked RawDescriptor := do
  d.requireMembers .drop keys
  d.ofMembers (← d.select keys false)

/-- Copy the type, and change the modifiers of the children of the root. -/
def revise (f : Head → Modifiers) : Checked RawDescriptor := do
  let copied ← extract d.arena.capacity d.arena d.root
  let n ← copied.header
  let arena ← n.positions.foldlM (fun s k => do s.modify (← n.child k) f) copied.arena
  return ⟨arena, copied.root⟩

/-- The members whose keys are in a set become optional. -/
def withOptional (keys : KeySet) : Checked RawDescriptor := do
  d.requireMembers .withOptional keys
  d.revise fun head =>
    if keys.contains head.name.text then { head.modifiers with optional := true }
    else head.modifiers

/-- No member is read-only any more. -/
def mutableProjection : Checked RawDescriptor := do
  d.requireObject
  d.revise fun head => { head.modifiers with readOnly := false }

end RawDescriptor

/-- The first occurrences of names that occur once are all of them. -/
theorem eraseDups_eq_self {names : List Name} (distinct : names.Nodup) :
    names.eraseDups = names := by
  induction names with
  | nil => rfl
  | cons name names ih =>
      obtain ⟨fresh, rest⟩ := List.nodup_cons.1 distinct
      have kept : names.filter (fun n => !n == name) = names := by
        refine List.filter_eq_self.2 fun n hn => ?_
        simp only [Bool.not_eq_true', beq_eq_false_iff_ne]
        exact fun same => fresh (same ▸ hn)
      rw [List.eraseDups_cons, kept, ih rest]

namespace Arena

open Checked (answer)

variable {m : Nat} {a : Arena m}

theorem memberKeys_raw (narrow : a.Narrow) {i : Nat} (hi : i < a.size) :
    a.raw.memberKeys (a.node i).raw =
      answer (KeySet.ofList ((a.tree i).names.map Name.text)) := by
  have steps : List.Forall₂ (fun (k c : Nat) => ∀ known : KeySet, (do
      let m ← a.raw.read (← (a.node i).raw.child k)
      answer (known.insert m.head.name.text)) = answer (known.insert (a.tree c).name.text))
      (a.node i).raw.positions (a.node i).children := by
    refine (Node.forall₂_positions (narrow i)).imp fun k c known keys => ?_
    rw [known.1, pure_bind, read_raw (lt_size_of_mem hi known.2), pure_bind, a.name_tree]
    rfl
  rw [RawArena.memberKeys, foldlM_congr steps, Checked.answer_foldlM, KeySet.ofList, Tree.names,
    a.tree_node, Tree.children_node, List.map_map, List.map_map, List.foldlM_map]
  rfl

section Revision

variable (f : Head → Modifiers)

/-- Only the node at the index changes. -/
theorem modify_append (capacity : Nat) (front rest : List RawNode) (n : RawNode) :
    RawArena.modify ⟨capacity, (front ++ n :: rest).toArray⟩ front.length f =
      pure ⟨capacity,
        (front ++ { n with head := { n.head with modifiers := f n.head } } :: rest).toArray⟩ := by
  have slot : (front ++ n :: rest).toArray[front.length]? = some n := by simp
  rw [RawArena.modify, RawArena.read, if_pos (Int.natCast_nonneg _), Int.toNat_natCast, slot,
    Checked.within_some, pure_bind]
  simp

/-- The root of a tree that is laid out is its last node. -/
theorem modify_layout (capacity : Nat) (front rest : List RawNode) (t : Tree) :
    RawArena.modify ⟨capacity, (front ++ (t.layout front.length).map Node.raw ++ rest).toArray⟩
      (front.length + t.size - 1 : Nat) f =
    pure ⟨capacity, (front ++ ((t.withModifiers (f t.head)).layout front.length).map Node.raw ++
      rest).toArray⟩ := by
  obtain ⟨head, children⟩ := t
  let inner := (Tree.layoutAll front.length children).map Node.raw
  let root (head : Head) : RawNode := (⟨head, Tree.layoutRoots front.length children⟩ : Node).raw
  have place : front.length + (Tree.node head children).size - 1 = (front ++ inner).length := by
    rw [List.length_append, List.length_map, Tree.length_layoutAll, Tree.size]
    omega
  have layout (head : Head) :
      front ++ ((Tree.node head children).layout front.length).map Node.raw ++ rest =
        front ++ inner ++ root head :: rest := by
    rw [Tree.layout, List.map_append, ← List.append_assoc, List.append_assoc _ _ rest]
    rfl
  rw [layout, place, modify_append]
  exact congrArg (fun nodes => (pure ⟨capacity, nodes.toArray⟩ : Checked RawArena)) (layout _).symm

theorem size_withModifiers (t : Tree) (modifiers : Modifiers) :
    (t.withModifiers modifiers).size = t.size := by
  rw [Tree.size_eq, Tree.size_eq t, Tree.withModifiers, Tree.children_node]

theorem layoutRoots_withModifiers (base : Nat) (ts : List Tree) :
    Tree.layoutRoots base (ts.map fun m => m.withModifiers (f m.head)) =
      Tree.layoutRoots base ts := by
  induction ts generalizing base with
  | nil => rfl
  | cons t ts ih => rw [List.map_cons, Tree.layoutRoots, Tree.layoutRoots, size_withModifiers, ih]

/-- The roots of trees that are laid out one after the other are changed in place. -/
theorem foldlM_modify (capacity : Nat) (ts : List Tree) (front rest : List RawNode) :
    (Tree.layoutRoots front.length ts).foldlM (fun s (c : Nat) => RawArena.modify s c f)
      ⟨capacity, (front ++ (Tree.layoutAll front.length ts).map Node.raw ++ rest).toArray⟩ =
    pure ⟨capacity, (front ++ (Tree.layoutAll front.length
      (ts.map fun m => m.withModifiers (f m.head))).map Node.raw ++ rest).toArray⟩ := by
  -- What is in front holds the trees that are changed already.
  induction ts generalizing front with
  | nil => rfl
  | cons t ts ih =>
      have split (t : Tree) (ts : List Tree) :
          front ++ (Tree.layoutAll front.length (t :: ts)).map Node.raw ++ rest =
            front ++ (t.layout front.length).map Node.raw ++
              ((Tree.layoutAll (front.length + t.size) ts).map Node.raw ++ rest) := by
        rw [Tree.layoutAll, List.map_append, ← List.append_assoc, List.append_assoc _ _ rest]
      let changed := t.withModifiers (f t.head)
      have size : changed.size = t.size := size_withModifiers t _
      have next : (front ++ (changed.layout front.length).map Node.raw).length =
          front.length + t.size := by
        rw [List.length_append, List.length_map, Tree.length_layout, size]
      have done := ih (front ++ (changed.layout front.length).map Node.raw)
      rw [next, List.append_assoc _ _ rest, List.append_assoc _ _ rest] at done
      rw [List.map_cons, split, split, size, Tree.layoutRoots, List.foldlM_cons, modify_layout,
        pure_bind]
      exact done

end Revision

end Arena

namespace Descriptor

open Checked (answer)

variable {cap : Nat} {d : Descriptor cap}

section Lookup

theorem header_raw (d : Descriptor cap) : d.raw.header = pure (d.arena.node d.root).raw :=
  Arena.read_raw d.inside

theorem isKind_header (d : Descriptor cap) (kind : Kind) :
    ((d.arena.node d.root).raw.head.tag == .known kind) = d.tree.isKind kind :=
  (Arena.isKind_tree kind).symm

variable (h : Reachable d)

include h

theorem render_raw : d.raw.render = pure d.tree.render :=
  Arena.render_raw h.narrow d.inside h.complete.legible

theorem requireObject_raw : d.raw.requireObject = answer d.tree.requireObject := by
  rw [RawDescriptor.requireObject, header_raw, pure_bind, isKind_header, render_raw h, pure_bind,
    Tree.requireObject]
  split <;> rfl

/-- A member is found, by the index of its node, or there is none. -/
theorem find?_raw (key : Text) :
    (∃ c ∈ (d.arena.node d.root).children,
      d.raw.arena.findMember (d.arena.node d.root).raw key = pure (c : Int) ∧
        d.tree.find? key = some (d.arena.tree c)) ∨
    d.raw.arena.findMember (d.arena.node d.root).raw key = pure (-1) ∧ d.tree.find? key = none := by
  have search := Arena.findMember_raw h.narrow d.inside key
  have names : ((fun t : Tree => t.name.text == key) ∘
      fun c : { c // c ∈ (d.arena.node d.root).children } => d.arena.tree c.1) =
        fun c => (d.arena.node c.1).head.name.text == key := by
    funext c
    rw [Function.comp_apply, d.arena.name_tree]
  rw [Tree.find?, tree, d.arena.children_tree, List.find?_map, names]
  cases found : (d.arena.node d.root).children.attach.find? fun c =>
      (d.arena.node c.1).head.name.text == key with
  | none =>
      rw [found] at search
      exact .inr ⟨search, rfl⟩
  | some c =>
      rw [found] at search
      exact .inl ⟨c.1, c.2, search, rfl⟩

/-- A look-up in memory finds the node of the member, or fails like the look-up in the type. -/
theorem exists_member_raw (operation : Operation) (key : Text) :
    ∃ r : Except Fault { c // c ∈ (d.arena.node d.root).children },
      d.raw.member operation key = answer ((fun c => (c.1 : Int)) <$> r) ∧
      d.tree.member operation key = (fun c => d.arena.tree c.1) <$> r := by
  rw [RawDescriptor.member, requireObject_raw h, Tree.member, Tree.requireObject]
  split
  · next object =>
    obtain ⟨all, known, keys⟩ := h.normal.type.exists_keys object
    have braced : all.render.content = d.tree.bracedNames := by
      have distinct : d.tree.names.Nodup := (h.normal.type.members object).keys
      rw [Tree.bracedNames, eraseDups_eq_self distinct, ← keys]
      rfl
    have memberKeys : d.raw.arena.memberKeys (d.arena.node d.root).raw = pure all := by
      have inserted : KeySet.ofList (d.tree.names.map Name.text) = .ok all := by
        rw [← known, Tree.keys, Tree.requireObject, if_pos object]
        rfl
      exact (Arena.memberKeys_raw h.narrow d.inside).trans (congrArg answer inserted)
    rw [Checked.answer_ok, pure_bind, header_raw, pure_bind]
    rcases find?_raw h key with ⟨c, hc, search, found⟩ | ⟨search, missing⟩
    · refine ⟨.ok ⟨c, hc⟩, ?_, ?_⟩
      · rw [search, pure_bind, if_neg (Int.not_lt.2 (Int.natCast_nonneg c))]
        rfl
      · rw [found]
        rfl
    · refine ⟨.error (d.tree.unknownKey operation key), ?_, ?_⟩
      · rw [search, pure_bind, if_pos (by decide), memberKeys, pure_bind, render_raw h, pure_bind,
          braced]
        rfl
      · rw [missing]
        rfl
  · exact ⟨.error _, rfl, rfl⟩

theorem requireMembers_raw (operation : Operation) (keys : KeySet) :
    d.raw.requireMembers operation keys = answer (d.tree.requireMembers operation keys) := by
  refine Checked.answer_forM (fun k => ?_) keys.keys
  obtain ⟨r, run, known⟩ := exists_member_raw h operation k.text
  rw [run, known]
  cases r <;> rfl

theorem memberCount_raw : d.raw.memberCount = answer d.tree.memberCount := by
  rw [RawDescriptor.memberCount, requireObject_raw h, Tree.memberCount]
  refine Checked.answer_bind fun _ _ => ?_
  rw [header_raw, pure_bind, tree, d.arena.length_children_tree]
  rfl

theorem hasKey_raw (key : Text) : d.raw.hasKey key = answer (d.tree.hasKey key) := by
  rw [RawDescriptor.hasKey, requireObject_raw h, Tree.hasKey]
  refine Checked.answer_bind fun _ _ => ?_
  rw [header_raw, pure_bind]
  rcases find?_raw h key with ⟨c, hc, search, found⟩ | ⟨search, missing⟩
  · rw [search, pure_bind, found, decide_eq_true (Int.natCast_nonneg c)]
    rfl
  · rw [search, pure_bind, missing]
    rfl

theorem keys_raw : d.raw.keys = answer d.tree.keys := by
  rw [RawDescriptor.keys, requireObject_raw h, Tree.keys]
  refine Checked.answer_bind fun _ _ => ?_
  rw [header_raw, pure_bind]
  exact Arena.memberKeys_raw h.narrow d.inside

theorem memberModifiers_raw (key : Text) :
    d.raw.memberModifiers key = answer (d.tree.memberModifiers key) := by
  obtain ⟨r, run, known⟩ := exists_member_raw h .memberFlags key
  rw [RawDescriptor.memberModifiers, run, Tree.memberModifiers, known]
  cases r with
  | error fault => rfl
  | ok c =>
      have node := Arena.read_raw (Arena.lt_size_of_mem d.inside c.2)
      refine (congrArg (· >>= _) node).trans ?_
      exact congrArg (fun modifiers => (pure modifiers : Checked Modifiers))
        (d.arena.modifiers_tree c.1).symm

/-- A member in memory has a declared type in its first slot. -/
theorem declaredType_raw (key : Text) :
    d.raw.declaredType key = answer (raw <$> d.declaredType key) := by
  obtain ⟨r, run, known⟩ := exists_member_raw h .declaredType key
  rw [RawDescriptor.declaredType, run, declaredType, transform, Tree.declaredType, known]
  cases r with
  | error fault => rfl
  | ok c =>
      have inside := Arena.lt_size_of_mem d.inside c.2
      have object := (Tree.mem_of_member known).1
      have member := (h.normal.type.members object).shaped _ (d.arena.tree_mem_children c.2)
      have given := member.below
      rw [← List.length_pos_iff, d.arena.length_children_tree, List.length_pos_iff] at given
      obtain ⟨type, rest, cells, slot⟩ := Arena.exists_child_zero_raw h.narrow given
      have first : (d.arena.tree c.1).first = d.arena.tree type := by
        rw [d.arena.tree_node c.1, cells]
        rfl
      have below := Arena.lt_size_of_mem inside (cells ▸ List.mem_cons_self)
      refine (congrArg (· >>= _) (Arena.read_raw inside)).trans ?_
      rw [pure_bind, slot, pure_bind]
      refine (extract_raw h.narrow below).trans ?_
      rw [← first]
      rfl

/-- The raw union of the declared type and `undefined` is made where the member is optional. -/
theorem propertyType_raw (key : Text) :
    d.raw.propertyType key = answer (raw <$> d.propertyType key) := by
  rw [RawDescriptor.propertyType, declaredType_raw h, propertyType, map_bind]
  refine Checked.answer_map_bind fun declared made => ?_
  rw [memberModifiers_raw h, map_bind]
  refine Checked.answer_bind fun modifiers _ => ?_
  cases modifiers.optional with
  | false => rfl
  | true =>
      rw [if_pos rfl, if_pos rfl, map_bind]
      refine (congrArg (· >>= _) (leaf_raw _)).trans ?_
      refine Checked.answer_map_bind fun undefined made' => ?_
      have each : ∀ o ∈ [declared, undefined], o.arena.Narrow := by
        refine List.forall_mem_cons.2 ⟨?_, List.forall_mem_singleton.2 ?_⟩
        · exact (Reachable.declaredType h made).narrow
        · exact (Reachable.ofKind rfl made').narrow
      exact union_raw each

end Lookup

section Transformations

/-- The root of a tree that is laid out, which knows where the trees below it are. -/
def rootNode (t : Tree) : Node := ⟨t.head, Tree.layoutRoots 0 t.children⟩

/-- A tree that is laid out is stored as the trees below it, and the root behind them. -/
theorem nodes_of_ofTree {t : Tree} (made : ofTree cap t = .ok d) :
    d.arena.nodes = (Tree.layoutAll 0 t.children ++ [rootNode t]).toArray ∧
      d.root = Tree.sizeAll t.children := by
  obtain ⟨stored, last⟩ := layout_of_ofTree made
  obtain ⟨head, children⟩ := t
  rw [Tree.layout] at stored
  rw [Tree.size] at last
  exact ⟨stored, Nat.succ.inj last⟩

theorem node_root_of_ofTree {t : Tree} (made : ofTree cap t = .ok d) :
    d.arena.node d.root = rootNode t := by
  obtain ⟨stored, root⟩ := nodes_of_ofTree made
  rw [Arena.node, stored, root, List.getElem?_toArray, ← Tree.length_layoutAll 0,
    List.getElem?_concat_length]
  rfl

theorem raw_of_ofTree {t : Tree} (made : ofTree cap t = .ok d) :
    d.raw = ⟨⟨cap, ((Tree.layoutAll 0 t.children).map Node.raw ++ [(rootNode t).raw]).toArray⟩,
      Tree.sizeAll t.children⟩ := by
  obtain ⟨stored, root⟩ := nodes_of_ofTree made
  rw [raw, Arena.raw, stored, root, List.map_toArray, List.map_append]
  rfl

variable (h : Reachable d)

include h

theorem ofMembers_raw (s : d.arena.Selection) :
    d.raw.ofMembers s.raw = answer (raw <$> ofTree cap (.ofMembers s.trees)) :=
  assemble_raw h.narrow _ s

theorem slice_raw (key : Text) : d.raw.slice key = answer (raw <$> d.slice key) := by
  obtain ⟨r, run, known⟩ := exists_member_raw h .slice key
  rw [RawDescriptor.slice, run, slice, transform, Tree.slice, known]
  cases r with
  | error fault => rfl
  | ok c =>
      have inside := Arena.lt_size_of_mem d.inside c.2
      obtain ⟨s, single, trees⟩ := Arena.Selection.exists_single inside
      change (do d.raw.ofMembers (← Row.single 0 (c.1 : Int))) = _
      rw [single, pure_bind, ofMembers_raw h, trees]
      rfl

theorem exists_select (keys : KeySet) (inside : Bool) :
    ∃ kept : d.arena.Selection, d.raw.select keys inside = pure kept.raw ∧
      kept.trees = d.tree.children.filter fun m => keys.contains m.name.text == inside := by
  rw [RawDescriptor.select, header_raw, pure_bind]
  refine Arena.gather_raw (p := fun m => keys.contains m.name.text == inside) d.inside _ h.narrow
    fun c hc => ?_
  have node := Arena.read_raw (Arena.lt_size_of_mem d.inside hc)
  refine (congrArg (· >>= _) node).trans ?_
  rw [d.arena.name_tree]
  rfl

/-- The members that are in a set, or not in it, are put together when all keys are known. -/
theorem selected_raw (operation : Operation) (keys : KeySet) (inside : Bool) : (do
      d.raw.requireMembers operation keys
      d.raw.ofMembers (← d.raw.select keys inside)) =
    answer (raw <$> d.transform fun t => do
      t.requireMembers operation keys
      return .ofMembers (t.children.filter fun m => keys.contains m.name.text == inside)) := by
  obtain ⟨kept, run, trees⟩ := exists_select h keys inside
  rw [requireMembers_raw h, transform, bind_assoc, map_bind]
  refine Checked.answer_bind fun _ _ => ?_
  rw [run, pure_bind, ofMembers_raw h, trees]
  rfl

theorem pick_raw (keys : KeySet) : d.raw.pick keys = answer (raw <$> d.pick keys) := by
  have selected := selected_raw h .pick keys true
  simp only [beq_true] at selected
  exact selected

theorem drop_raw (keys : KeySet) : d.raw.drop keys = answer (raw <$> d.drop keys) := by
  have selected := selected_raw h .drop keys false
  simp only [beq_false] at selected
  exact selected

/-- The children of the copied root are changed one after the other. -/
theorem revise_raw (f : Head → Modifiers) :
    d.raw.revise f = answer (raw <$> ofTree cap (d.tree.mapModifiers fun m => f m.head)) := by
  let revised := d.tree.mapModifiers fun m => f m.head
  have laidOut := h.normal.laidOut
  have fits : revised.size ≤ cap := (Tree.size_mapModifiers d.tree _).trans_le h.normal.size_le
  obtain ⟨e, made⟩ := (ofTree_total cap revised).1 fits
  -- A type that is built is stored like its copy, so the copy is the type again.
  have copied : RawDescriptor.extract d.raw.arena.capacity d.raw.arena d.raw.root = pure d.raw :=
    (extract_raw h.narrow d.inside).trans (congrArg (fun x => answer (raw <$> x)) laidOut)
  have root : rootNode revised = rootNode d.tree :=
    congrArg (Node.mk d.tree.head) (Arena.layoutRoots_withModifiers f 0 d.tree.children)
  have size : Tree.sizeAll revised.children = Tree.sizeAll d.tree.children :=
    Tree.sizeAll_mapModifiers d.tree.children _
  have walk := (d.arena.node d.root).foldlM_raw (h.narrow d.root)
    (fun (s : RawArena) c => s.modify c f) d.raw.arena
  have changed := Arena.foldlM_modify f cap d.tree.children [] [(rootNode d.tree).raw]
  rw [RawDescriptor.revise, copied, pure_bind, header_raw, pure_bind, walk,
    node_root_of_ofTree laidOut, made]
  change _ = pure e.raw
  rw [raw_of_ofTree laidOut, raw_of_ofTree made, root, size]
  let rooted (arena : RawArena) : Checked RawDescriptor :=
    pure ⟨arena, Tree.sizeAll d.tree.children⟩
  exact congrArg (· >>= rooted) changed

theorem withOptional_raw (keys : KeySet) :
    d.raw.withOptional keys = answer (raw <$> d.withOptional keys) := by
  rw [RawDescriptor.withOptional, requireMembers_raw h, withOptional, transform, Tree.withOptional,
    bind_assoc, map_bind]
  refine Checked.answer_bind fun _ _ => ?_
  rw [revise_raw h]
  rfl

theorem mutableProjection_raw :
    d.raw.mutableProjection = answer (raw <$> d.mutableProjection) := by
  rw [RawDescriptor.mutableProjection, requireObject_raw h, mutableProjection, transform,
    Tree.mutableProjection, bind_assoc, map_bind]
  refine Checked.answer_bind fun _ _ => ?_
  rw [revise_raw h]
  rfl

end Transformations

end Descriptor

end StructuralTypes
