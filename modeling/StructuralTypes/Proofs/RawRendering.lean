import StructuralTypes.Proofs.RawStorage

/-!
# Rendering from raw storage

Every node is written into a buffer of its own, piece by piece, and the texts of the nodes below it
are appended as they come. A function, an array and a member are shown through their first child.
For complete types there is one, and what is written is the text of the type.
-/

namespace StructuralTypes

namespace RawArena

mutual

/-- The text of a node. -/
def render (s : RawArena) (i : Int) : Checked (Buffer 256) := do
  let n ← s.read i
  match n.head.tag with
  | .known .function => return Buffer.empty.append (.ofString "Function")
  | .known .numberLiteral | .known .booleanLiteral => return Buffer.empty.append n.head.name.text
  | .known .stringLiteral =>
    let quote := Text.ofString "\""
    return ((Buffer.empty.append quote).append n.head.name.text).append quote
  | .known .fn => do
    let b : Buffer 256 := Buffer.empty.appendBuffer (← s |>.renderParameters n)
    return (b.append (.ofString " => ")).appendBuffer (← s |>.render (← n.child 0))
  | .known .ctor => do
    let b : Buffer 256 := Buffer.empty.append (.ofString "new ")
    let b := b.appendBuffer (← s |>.renderParameters n)
    return (b.append (.ofString " => ")).appendBuffer (← s |>.render (← n.child 0))
  | .known .array => do
    let element ← s.read (← n.child 0)
    let wrap := element.head.tag == .known .union || element.head.tag == .known .fn ||
      element.head.tag == .known .ctor
    let text ← s |>.render (← n.child 0)
    let b : Buffer 256 :=
      if wrap then
        ((Buffer.empty.append (.ofString "(")).appendBuffer text).append (.ofString ")")
      else Buffer.empty.appendBuffer text
    return b.append (.ofString "[]")
  | .known .union => s |>.renderJoined n (.ofString " | ") Buffer.empty
  | .known .object =>
    if n.used == 0 then return Buffer.empty.append (.ofString "\x7b\x7d")
    else do
      let b ← s |>.renderJoined n (.ofString "; ") (Buffer.empty.append (.ofString "\x7b "))
      return b.append (.ofString " \x7d")
  | .known .member => do
    let b : Buffer 256 :=
      if n.head.modifiers.readOnly then Buffer.empty.append (.ofString "readonly ")
      else Buffer.empty
    let b := b.append n.head.name.text
    let b := if n.head.modifiers.optional then b.append (.ofString "?") else b
    return (b.append (.ofString ": ")).appendBuffer (← s |>.render (← n.child 0))
  | .known kind => return Buffer.empty.append kind.text
  | .other text _ => do
    let b : Buffer 256 := (Buffer.empty.append text).append (.ofString "(")
    return (← s |>.renderJoined n (.ofString ", ") b).append (.ofString ")")
partial_fixpoint

/-- The parameters of a signature, named by their positions. -/
def renderParameters (s : RawArena) (n : RawNode) : Checked (Buffer 256) := do
  let b : Buffer 256 := Buffer.empty.append (.ofString "(")
  let b ← (n.positions.drop 1).foldlM (fun b k => do
    let b := if 1 < k then b.append (.ofString ", ") else b
    let b := ((b.append (.ofString "arg")).appendInt (k - 1 : Nat)).append (.ofString ": ")
    return b.appendBuffer (← s |>.render (← n.child k))) b
  return b.append (.ofString ")")
partial_fixpoint

/-- The texts of the children behind what is there already, with a separator in between. -/
def renderJoined (s : RawArena) (n : RawNode) (separator : Text) (b : Buffer 256) :
    Checked (Buffer 256) :=
  n.positions.foldlM (fun b k => do
    let b := if 0 < k then b.append separator else b
    return b.appendBuffer (← s |>.render (← n.child k))) b
partial_fixpoint

end

end RawArena

namespace Buffer

variable {cells : Nat}

/-- A text that is left out is appended as an empty one. -/
theorem ite_append (c : Bool) (b : Buffer cells) (t : Text) :
    (if c then b.append t else b) = b.append (if c then t else []) := by
  cases c with
  | true => rfl
  | false => exact ext (by simp [append])

section Groups

variable (separator : Text)

/-- Append a group of texts, behind a separator unless it is the first group. -/
def appendGroup (first : Nat) (b : Buffer cells) (group : List Text) (k : Nat) : Buffer cells :=
  group.foldl append (if first < k then b.append separator else b)

theorem foldl_appendGroup_behind {first k : Nat} (behind : first < k) (b : Buffer cells)
    (groups : List (List Text)) :
    (groups.zipIdx k).foldl (fun b p => appendGroup separator first b p.1 p.2) b =
      (groups.flatMap (separator :: ·)).foldl append b := by
  induction groups generalizing k b with
  | nil => rfl
  | cons group groups ih =>
      rw [List.zipIdx_cons, List.foldl_cons, ih (Nat.lt_succ_of_lt behind), List.flatMap_cons,
        List.foldl_append, appendGroup, if_pos behind, List.foldl_cons]

/-- The groups are appended one after the other with separators in between. -/
theorem foldl_appendGroup (first : Nat) (b : Buffer cells) (groups : List (List Text)) :
    (groups.zipIdx first).foldl (fun b p => appendGroup separator first b p.1 p.2) b =
      (groups.intersperse [separator]).flatten.foldl append b := by
  have separated (group : List Text) (groups : List (List Text)) :
      ((group :: groups).intersperse [separator]).flatten =
        group ++ groups.flatMap (separator :: ·) := by
    induction groups generalizing group with
    | nil => simp
    | cons next groups ih =>
      rw [List.intersperse_cons_cons, List.flatten_cons, List.flatten_cons, ih, List.flatMap_cons]
      rfl
  cases groups with
  | nil => rfl
  | cons group groups =>
      rw [List.zipIdx_cons, List.foldl_cons,
        foldl_appendGroup_behind separator (Nat.lt_succ_self first), separated, List.foldl_append,
        appendGroup, if_neg (Nat.lt_irrefl first)]

end Groups

end Buffer

/-- Groups of one text each. -/
theorem flatten_intersperse_singletons (separator : Text) (texts : List Text) :
    ((texts.map ([·])).intersperse [separator]).flatten = texts.intersperse separator := by
  induction texts with
  | nil => rfl
  | cons t ts ih =>
      cases ts with
      | nil => rfl
      | cons u us => exact congrArg (t :: separator :: ·) ih

/-- Numbering from the next number on what was made of numbered elements. -/
theorem zipIdx_map_zipIdx {α β : Type} (f : α → Nat → β) (xs : List α) (k : Nat) :
    ((xs.zipIdx k).map fun p => f p.1 p.2).zipIdx (k + 1) =
      (xs.zipIdx (k + 1)).map fun p => (f p.1 (p.2 - 1), p.2) := by
  induction xs generalizing k with
  | nil => rfl
  | cons x xs ih => exact congrArg _ (ih (k + 1))

namespace Arena

variable {m : Nat} {a : Arena m} {i : Nat}

theorem head_raw (a : Arena m) (i : Nat) : (a.node i).raw.head = (a.node i).head := rfl

/-- A node that is read through its first child has one in the first slot. -/
theorem exists_child_zero_raw (narrow : a.Narrow) (given : (a.node i).children ≠ []) :
    ∃ c rest, (a.node i).children = c :: rest ∧ (a.node i).raw.child 0 = pure (c : Int) := by
  obtain ⟨c, rest, cells⟩ := List.exists_cons_of_ne_nil given
  have slot := Node.child_raw (narrow i) (List.length_pos_of_ne_nil given)
  exact ⟨c, rest, cells, slot.trans (by rw [List.getElem_of_eq cells]; rfl)⟩

section Children

variable (narrow : a.Narrow)
  (below : ∀ c ∈ (a.node i).children, a.raw.render c = pure (a.tree c).render)

include narrow below

theorem renderJoined_raw (separator : Text) (b : Buffer 256) :
    a.raw.renderJoined (a.node i).raw separator b =
      pure (((((a.node i).children.map a.tree).map Tree.text).intersperse separator).foldl
        Buffer.append b) := by
  let group (c : Nat) : List Text := [(a.tree c).text]
  have steps : List.Forall₂ (fun (k : Nat) (p : Nat × Nat) => ∀ b : Buffer 256,
      (do
        let b := if 0 < k then b.append separator else b
        return b.appendBuffer (← a.raw.render (← (a.node i).raw.child k))) =
        (pure (b.appendGroup separator 0 (group p.1) p.2) : Checked (Buffer 256)))
      (a.node i).raw.positions (a.node i).children.zipIdx := by
    refine (Node.forall₂_positions_zipIdx (narrow i)).imp fun k p known b => ?_
    obtain ⟨rfl, slot, inside⟩ := known
    rw [slot, pure_bind, below p.1 inside, pure_bind]
    rfl
  have groups : (((a.node i).children.map a.tree).map Tree.text).map ([·]) =
      (a.node i).children.map group := by
    rw [List.map_map, List.map_map]
    rfl
  rw [RawArena.renderJoined, foldlM_congr steps, List.foldlM_pure,
    ← flatten_intersperse_singletons, groups, ← Buffer.foldl_appendGroup, List.zipIdx_map,
    List.foldl_map]
  rfl

theorem renderParameters_raw :
    a.raw.renderParameters (a.node i).raw =
      pure (.ofParts (Tree.parameterParts
        ((((a.node i).children.map a.tree).map Tree.text).drop 1))) := by
  let group (type : Text) (number : Nat) : List Text :=
    [.ofString "arg", .ofNat number, .ofString ": ", type]
  have steps : List.Forall₂ (fun (k : Nat) (p : Nat × Nat) => ∀ b : Buffer 256,
      (do
        let b := if 1 < k then b.append (.ofString ", ") else b
        let b := ((b.append (.ofString "arg")).appendInt (k - 1 : Nat)).append (.ofString ": ")
        return b.appendBuffer (← a.raw.render (← (a.node i).raw.child k))) =
        (pure (b.appendGroup (.ofString ", ") 1 (group (a.tree p.1).text (p.2 - 1)) p.2) :
          Checked (Buffer 256)))
      ((a.node i).raw.positions.drop 1) (((a.node i).children.drop 1).zipIdx 1) := by
    have slots := List.forall₂_drop 1 (Node.forall₂_positions_zipIdx (narrow i))
    have tail : (a.node i).children.zipIdx.drop 1 = ((a.node i).children.drop 1).zipIdx 1 := by
      cases (a.node i).children <;> rfl
    rw [tail] at slots
    refine slots.imp fun k p known b => ?_
    obtain ⟨rfl, slot, inside⟩ := known
    rw [slot, pure_bind, below p.1 inside, pure_bind]
    rfl
  have parts (types : List Text) : Tree.parameterParts types = [.ofString "("] ++
      ((types.zipIdx.map fun p => group p.1 p.2).intersperse [.ofString ", "]).flatten ++
        [.ofString ")"] := rfl
  rw [RawArena.renderParameters, foldlM_congr steps, List.foldlM_pure, pure_bind, Buffer.ofParts,
    parts, List.foldl_append, List.foldl_append, ← Buffer.foldl_appendGroup _ 1,
    zipIdx_map_zipIdx, List.map_map, ← List.map_drop, List.zipIdx_map, List.map_map,
    List.foldl_map]
  rfl

section Kinds

variable (hi : i < a.size)

include hi

theorem render_union_raw (tag : (a.node i).head.tag = .known .union) :
    a.raw.render i = pure (a.tree i).render := by
  rw [RawArena.render, read_raw hi, pure_bind, a.tree_node, Tree.render_node, head_raw, Tree.parts,
    tag]
  exact renderJoined_raw narrow below _ _

theorem render_object_raw (tag : (a.node i).head.tag = .known .object) :
    a.raw.render i = pure (a.tree i).render := by
  rw [RawArena.render, read_raw hi, pure_bind, a.tree_node, Tree.render_node, head_raw, Tree.parts,
    tag]
  simp only [renderJoined_raw narrow below, pure_bind]
  cases cells : (a.node i).children with
  | nil =>
      have used : (a.node i).raw.used = 0 := congrArg List.length cells
      rw [used]
      rfl
  | cons c rest =>
      have used : (a.node i).raw.used = rest.length + 1 := congrArg List.length cells
      have shown : (((c :: rest).map a.tree).map Tree.text).isEmpty = false := rfl
      rw [used]
      refine congrArg pure ?_
      rw [Buffer.ofParts, shown, if_neg Bool.false_ne_true, List.foldl_append, List.foldl_append]
      rfl

/-- A tag that the system does not know is shown with all children. -/
theorem render_other_raw {text : Text} {unnamed : Kind.ofText? text = none}
    (tag : (a.node i).head.tag = .other text unnamed) :
    a.raw.render i = pure (a.tree i).render := by
  rw [RawArena.render, read_raw hi, pure_bind, a.tree_node, Tree.render_node, head_raw, Tree.parts,
    tag]
  simp only [renderJoined_raw narrow below, pure_bind]
  refine congrArg pure ?_
  rw [Buffer.ofParts, List.foldl_append, List.foldl_append]
  rfl

section First

variable (given : (a.node i).children ≠ [])

include given

theorem render_signature_raw
    (tag : (a.node i).head.tag = .known .fn ∨ (a.node i).head.tag = .known .ctor) :
    a.raw.render i = pure (a.tree i).render := by
  obtain ⟨c, rest, cells, slot⟩ := exists_child_zero_raw narrow given
  have text := below c (cells ▸ List.mem_cons_self)
  rw [RawArena.render, read_raw hi, pure_bind, a.tree_node, Tree.render_node, head_raw, Tree.parts]
  rcases tag with tag | tag
  all_goals
    simp only [tag, renderParameters_raw narrow below, pure_bind, slot, text]
    rw [cells]
    rfl

/-- The element is looked up before its text is asked for, to see whether it needs parentheses. -/
theorem render_array_raw (tag : (a.node i).head.tag = .known .array) :
    a.raw.render i = pure (a.tree i).render := by
  obtain ⟨c, rest, cells, slot⟩ := exists_child_zero_raw narrow given
  have text := below c (cells ▸ List.mem_cons_self)
  have inside : c < a.size := lt_size_of_mem hi (cells ▸ List.mem_cons_self)
  have wrap : (a.tree c).isCompound = ((a.node c).raw.head.tag == .known .union ||
      (a.node c).raw.head.tag == .known .fn || (a.node c).raw.head.tag == .known .ctor) := by
    rw [Tree.isCompound, Tree.isKind, Tree.isKind, Tree.isKind, a.tag_tree]
    rfl
  rw [RawArena.render, read_raw hi, pure_bind, a.tree_node, Tree.render_node, head_raw, Tree.parts,
    tag]
  simp only [slot, pure_bind, read_raw inside, text, cells, List.map_cons, List.head?_cons,
    Option.any_some, wrap]
  split <;> rfl

theorem render_member_raw (tag : (a.node i).head.tag = .known .member) :
    a.raw.render i = pure (a.tree i).render := by
  obtain ⟨c, rest, cells, slot⟩ := exists_child_zero_raw narrow given
  have text := below c (cells ▸ List.mem_cons_self)
  rw [RawArena.render, read_raw hi, pure_bind, a.tree_node, Tree.render_node, head_raw, Tree.parts,
    tag]
  simp only [slot, pure_bind, text, cells, List.map_cons]
  refine congrArg pure ?_
  rw [Buffer.ite_append, Buffer.ite_append]
  rfl

end First

end Kinds

end Children

/-- Legible types in memory are rendered as their trees are. -/
theorem render_raw (narrow : a.Narrow) (hi : i < a.size) (h : (a.tree i).Legible) :
    a.raw.render i = pure (a.tree i).render := by
  induction i using Nat.strongRecOn with
  | _ i ih =>
    have below : ∀ c ∈ (a.node i).children, a.raw.render c = pure (a.tree c).render := by
      intro c hc
      have earlier := a.child_lt hc
      rw [a.tree_node] at h
      cases h with
      | node _ legible => exact ih c earlier (by omega) (legible _ (List.mem_map_of_mem hc))
    have given : (a.node i).head.tag.readsFirst = true → (a.node i).children ≠ [] := by
      rw [a.tree_node] at h
      cases h with
      | node first _ => simpa using first
    cases tag : (a.node i).head.tag with
    | other text unnamed => exact render_other_raw narrow below hi tag
    | known kind =>
        rw [tag] at given
        cases kind
        case union => exact render_union_raw narrow below hi tag
        case object => exact render_object_raw narrow below hi tag
        case fn => exact render_signature_raw narrow below hi (given rfl) (.inl tag)
        case ctor => exact render_signature_raw narrow below hi (given rfl) (.inr tag)
        case array => exact render_array_raw narrow below hi (given rfl) tag
        case member => exact render_member_raw narrow below hi (given rfl) tag
        -- What else there is has a text of its own.
        all_goals
          rw [RawArena.render, read_raw hi, pure_bind, a.tree_node, Tree.render_node, head_raw,
            Tree.parts, tag]
          rfl

end Arena

end StructuralTypes
