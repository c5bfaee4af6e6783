import StructuralTypes.Proofs.InPlace
import StructuralTypes.Tree.Assignability

/-!
# Assignability of stored nodes

The rules of assignability, followed in two arenas at once. Parameters swap the sides, so either
arena may hold the source. Each rule goes on to pairs of nodes with smaller indices in all. The
first children of arrays, members and signatures are looked up, which is where there may be no
answer; types that are complete always have one, the one for their trees.
-/

namespace StructuralTypes

/-- Values of this tag cannot stand where the shape without members is expected. -/
def Tag.isNullish (tag : Tag) : Bool :=
  tag == .known .null || tag == .known .undefined || tag == .known .void

namespace Arena

variable {m n : Nat}

mutual

/-- A value of the type stored at `i` may stand where one of the type at `j` is expected. -/
def assignableAt {m n : Nat} (a : Arena m) (b : Arena n) (i j : Nat) : Option Bool :=
  if (a.node i).head.tag == .known .never || (b.node j).head.tag == .known .unknown then some true
  else if (a.node i).head.tag == .known .unknown then some false
  else if (a.node i).head.tag == .known .union then
    (a.node i).children.attach.allM fun c => a.assignableAt b c.1 j
  else if (b.node j).head.tag == .known .union then
    (b.node j).children.attach.anyM fun c => a.assignableAt b i c.1
  else if a.equalAt b i j || (a.node i).head.tag.widened == (b.node j).head.tag then some true
  else a.structureAt b i j
termination_by 4 * (i + j) + 2
decreasing_by
  · have := a.child_lt c.2
    omega
  · have := b.child_lt c.2
    omega
  · omega

/-- The rules for two nodes that are neither unions nor equal, by their kinds. -/
def structureAt {m n : Nat} (a : Arena m) (b : Arena n) (i j : Nat) : Option Bool :=
  if (a.node i).head.tag == .known .undefined && (b.node j).head.tag == .known .void then some true
  else if (b.node j).head.tag == .known .function then
    some ((a.node i).head.tag == .known .fn || (a.node i).head.tag == .known .ctor)
  else if (a.node i).head.tag == .known .fn && (b.node j).head.tag == .known .fn ||
      (a.node i).head.tag == .known .ctor && (b.node j).head.tag == .known .ctor then
    a.signatureAt b i j
  else if (a.node i).head.tag == .known .array && (b.node j).head.tag == .known .array then do
    let element ← (a.node i).children.attach.head?
    let expected ← (b.node j).children.attach.head?
    a.assignableAt b element.1 expected.1
  else if (a.node i).head.tag == .known .object && (b.node j).head.tag == .known .object then
    (b.node j).children.attach.allM fun member => a.memberAt b i member.1
  else if (b.node j).head.tag == .known .object && (b.node j).children.isEmpty then
    some !(a.node i).head.tag.isNullish
  else some false
termination_by 4 * (i + j) + 1
decreasing_by
  · omega
  · have := a.child_lt element.2
    have := b.child_lt expected.2
    omega
  · have := b.child_lt member.2
    omega

/-- Signatures: the parameters first, then the results. -/
def signatureAt {m n : Nat} (a : Arena m) (b : Arena n) (i j : Nat) : Option Bool := do
  if (b.node j).children.length < (a.node i).children.length then return false
  if !(← (((b.node j).children.attach.drop 1).zip ((a.node i).children.attach.drop 1)).allM
      fun p => b.assignableAt a p.1.1 p.2.1) then return false
  let expected ← (b.node j).children.attach.head?
  if (a.node i).head.tag == .known .fn && (b.node expected.1).head.tag == .known .void then
    return true
  let result ← (a.node i).children.attach.head?
  a.assignableAt b result.1 expected.1
termination_by 4 * (i + j)
decreasing_by
  · have := b.child_lt p.1.2
    have := a.child_lt p.2.2
    omega
  · have := a.child_lt result.2
    have := b.child_lt expected.2
    omega

/-- What the object at `i` has for the member at `j`. -/
def memberAt {m n : Nat} (a : Arena m) (b : Arena n) (i j : Nat) : Option Bool :=
  match (a.node i).children.attach.find?
      fun c => (a.node c.1).head.name == (b.node j).head.name with
  | none => some (b.node j).head.modifiers.optional
  | some found => do
    let type ← (a.node found.1).children.attach.head?
    let expected ← (b.node j).children.attach.head?
    if (b.node j).head.modifiers.optional then a.orUndefinedAt b type.1 expected.1
    else return (← a.assignableAt b type.1 expected.1) && !(a.node found.1).head.modifiers.optional
termination_by 4 * (i + j)
decreasing_by
  all_goals
    have := a.child_lt found.2
    have := a.child_lt type.2
    have := b.child_lt expected.2
    omega

/-- Every alternative of the type at `i` is `undefined` or fits where that at `j` is expected. -/
def orUndefinedAt {m n : Nat} (a : Arena m) (b : Arena n) (i j : Nat) : Option Bool :=
  if (a.node i).head.tag == .known .union then
    (a.node i).children.attach.allM fun c => a.orUndefinedAt b c.1 j
  else if (a.node i).head.tag == .known .undefined then some true
  else a.assignableAt b i j
termination_by 4 * (i + j) + 3
decreasing_by
  · have := a.child_lt c.2
    omega
  · omega

end

/-- Complete pairs of nodes with smaller indices in all are decided as their trees are. -/
def DecidedBelow (k : Nat) : Prop :=
  ∀ {m n : Nat} (a : Arena m) (b : Arena n) (i j : Nat), i + j < k → (a.tree i).Complete →
    (b.tree j).Complete → a.assignableAt b i j = some ((a.tree i).assignable (b.tree j))

section Rules

variable {a : Arena m} {b : Arena n} {i j : Nat}

theorem isKind_tree (kind : Kind) :
    (a.tree i).isKind kind = ((a.node i).head.tag == .known kind) := by
  rw [Tree.isKind, tag_tree]

/-- The first child of a node that has one, and its tree. -/
theorem exists_first (below : (a.tree i).children ≠ []) :
    ∃ c, (a.node i).children.attach.head? = some c ∧ (a.tree i).first? = some (a.tree c.1) := by
  rw [children_tree] at below
  obtain ⟨c, rest, cells⟩ := List.exists_cons_of_ne_nil (mt List.map_eq_nil_iff.2 below)
  refine ⟨c, by rw [cells]; rfl, ?_⟩
  rw [Tree.first?, children_tree, cells]
  rfl

theorem orUndefinedAt_eq {k : Nat} (below : DecidedBelow k) (smaller : i + j < k)
    (source : (a.tree i).Complete) (target : (b.tree j).Complete) :
    a.orUndefinedAt b i j = some ((a.tree i).assignableOrUndefined (b.tree j)) := by
  induction i using Nat.strongRecOn with
  | _ i ih =>
      rw [orUndefinedAt, Tree.assignableOrUndefined_eq, isKind_tree, isKind_tree, children_tree,
        List.all_map]
      split
      · refine allM_eq_some fun c _ => ?_
        have earlier := a.child_lt c.2
        exact ih c.1 earlier (by omega) (source.child _ (a.tree_mem_children c.2))
      · split
        · next undefined =>
          rw [undefined]
          rfl
        · next other =>
          rw [below a b i j smaller source target, Bool.eq_false_iff.2 other]
          rfl

theorem find?_tree (key : Name) :
    (a.tree i).find? key.text = ((a.node i).children.attach.find? fun c =>
      (a.node c.1).head.name == key).map fun c => a.tree c.1 := by
  have names : ((fun t : Tree => t.name.text == key.text) ∘
      fun c : { c // c ∈ (a.node i).children } => a.tree c.1) =
        fun c => (a.node c.1).head.name == key := by
    funext c
    rw [Function.comp_apply, name_tree, Bool.eq_iff_iff, beq_iff_eq, beq_iff_eq, Name.ext_iff]
  rw [Tree.find?, children_tree, List.find?_map, names]

/-- The member and what the object has for it are compared by their first children. -/
theorem memberAt_eq {k : Nat} (below : DecidedBelow k) (smaller : i + j < k)
    (source : (a.tree i).Complete) (object : (a.tree i).tag = .known .object)
    (target : (b.tree j).Complete) (typed : (b.tree j).children ≠ []) :
    a.memberAt b i j = some ((a.tree i).memberAssignable (b.tree j)) := by
  obtain ⟨expected, slot, slot'⟩ := exists_first typed
  have demanded := target.child _ (b.tree_mem_children expected.2)
  have := b.child_lt expected.2
  rw [memberAt, Tree.memberAssignable_eq, name_tree, find?_tree, modifiers_tree]
  cases (a.node i).children.attach.find? fun c =>
      (a.node c.1).head.name == (b.node j).head.name with
  | none => rfl
  | some found =>
      have inside := a.tree_mem_children found.2
      obtain ⟨type, value, value'⟩ := exists_first (source.member_ne_nil object _ inside)
      have given := (source.child _ inside).child _ (a.tree_mem_children type.2)
      have := a.child_lt found.2
      have := a.child_lt type.2
      simp only [Option.map_some, slot, slot', value, value', Option.any_some, modifiers_tree]
      split
      · exact orUndefinedAt_eq below (by omega) given demanded
      · change (do return (← a.assignableAt b type.1 expected.1) && _) = _
        rw [below a b _ _ (by omega) given demanded]
        rfl

/-- Parameters are compared in pairs, with the sides swapped. -/
theorem parameters_eq {k : Nat} (below : DecidedBelow k) (smaller : i + j ≤ k)
    (source : (a.tree i).Complete) (target : (b.tree j).Complete) :
    (((b.node j).children.attach.drop 1).zip ((a.node i).children.attach.drop 1)).allM
        (fun p => b.assignableAt a p.1.1 p.2.1) =
      some ((((b.tree j).children.drop 1).zip ((a.tree i).children.drop 1)).all
        fun p => p.1.assignable p.2) := by
  rw [children_tree, children_tree, ← List.map_drop, ← List.map_drop, List.zip_map, List.all_map]
  refine allM_eq_some fun p _ => ?_
  have := b.child_lt p.1.2
  have := a.child_lt p.2.2
  exact below b a _ _ (by omega) (target.child _ (b.tree_mem_children p.1.2))
    (source.child _ (a.tree_mem_children p.2.2))

theorem signatureAt_eq {k : Nat} (below : DecidedBelow k) (smaller : i + j ≤ k)
    (source : (a.tree i).Complete) (target : (b.tree j).Complete)
    (reads : (a.tree i).tag.readsFirst = true) (reads' : (b.tree j).tag.readsFirst = true) :
    a.signatureAt b i j = some ((a.tree i).signatureAssignable (b.tree j)) := by
  obtain ⟨result, value, value'⟩ := exists_first (source.children_ne_nil reads)
  obtain ⟨expected, slot, slot'⟩ := exists_first (target.children_ne_nil reads')
  have := a.child_lt result.2
  have := b.child_lt expected.2
  have results := below a b result.1 expected.1 (by omega)
    (source.child _ (a.tree_mem_children result.2))
    (target.child _ (b.tree_mem_children expected.2))
  rw [signatureAt, Tree.signatureAssignable_eq, parameters_eq below smaller source target, value,
    slot, value', slot', length_children_tree, length_children_tree]
  simp only [Option.any_some, isKind_tree]
  split
  · next more =>
    rw [decide_eq_false (Nat.not_le.2 more)]
    rfl
  · next enough =>
    rw [decide_eq_true (Nat.not_lt.1 enough), Bool.true_and]
    cases ((b.tree j).children.drop 1).zip ((a.tree i).children.drop 1) |>.all
        fun p => p.1.assignable p.2 with
    | false => rfl
    | true =>
        rw [Bool.true_and]
        change (if (_ && _) = true then some true else a.assignableAt b result.1 expected.1) = _
        split
        · next unwanted =>
          rw [unwanted]
          rfl
        · next wanted =>
          rw [results, Bool.eq_false_iff.2 wanted]
          rfl

/-- Arrays are compared by their elements. -/
theorem elementsAt_eq (below : DecidedBelow (i + j)) (source : (a.tree i).Complete)
    (target : (b.tree j).Complete) (array : (a.node i).head.tag = .known .array)
    (array' : (b.node j).head.tag = .known .array) :
    (do
      let element ← (a.node i).children.attach.head?
      let expected ← (b.node j).children.attach.head?
      a.assignableAt b element.1 expected.1) =
        some ((b.tree j).first?.any fun expected =>
          (a.tree i).first?.any fun element => element.assignable expected) := by
  obtain ⟨element, value, value'⟩ :=
    exists_first (source.children_ne_nil (by rw [tag_tree, array]; rfl))
  obtain ⟨expected, slot, slot'⟩ :=
    exists_first (target.children_ne_nil (by rw [tag_tree, array']; rfl))
  have := a.child_lt element.2
  have := b.child_lt expected.2
  rw [value, slot, value', slot']
  exact below a b _ _ (by omega) (source.child _ (a.tree_mem_children element.2))
    (target.child _ (b.tree_mem_children expected.2))

/-- Objects are compared member by member. -/
theorem membersAt_eq (below : DecidedBelow (i + j)) (source : (a.tree i).Complete)
    (target : (b.tree j).Complete) (object : (a.node i).head.tag = .known .object)
    (object' : (b.node j).head.tag = .known .object) :
    (b.node j).children.attach.allM (fun member => a.memberAt b i member.1) =
      some ((b.tree j).children.all fun member => (a.tree i).memberAssignable member) := by
  rw [children_tree, List.all_map]
  refine allM_eq_some fun member _ => ?_
  have inside := b.tree_mem_children member.2
  have := b.child_lt member.2
  exact memberAt_eq below (by omega) source (by rw [tag_tree, object]) (target.child _ inside)
    (target.member_ne_nil (by rw [tag_tree, object']) _ inside)

theorem structureAt_eq (below : DecidedBelow (i + j)) (source : (a.tree i).Complete)
    (target : (b.tree j).Complete) :
    a.structureAt b i j = some ((a.tree i).structureAssignable (b.tree j)) := by
  have empty : (b.tree j).children.isEmpty = (b.node j).children.isEmpty := by
    rw [b.tree_node, Tree.children_node, List.isEmpty_map]
  rw [structureAt, Tree.structureAssignable_eq, tag_tree, tag_tree]
  simp only [Bool.and_eq_true, Bool.or_eq_true, beq_iff_eq]
  split
  · next kinds => rw [kinds.1, kinds.2]
  split
  · next function =>
    rw [function]
    cases (a.node i).head.tag with
    | known kind => cases kind <;> rfl
    | other => rfl
  split
  · next signatures =>
    rcases signatures with ⟨fn, fn'⟩ | ⟨ctor, ctor'⟩
    · rw [signatureAt_eq below (Nat.le_refl _) source target (by rw [tag_tree, fn]; rfl)
        (by rw [tag_tree, fn']; rfl), fn, fn']
    · rw [signatureAt_eq below (Nat.le_refl _) source target (by rw [tag_tree, ctor]; rfl)
        (by rw [tag_tree, ctor']; rfl), ctor, ctor']
  split
  · next arrays => rw [elementsAt_eq below source target arrays.1 arrays.2, arrays.1, arrays.2]
  split
  · next objects => rw [membersAt_eq below source target objects.1 objects.2, objects.1, objects.2]
  split
  · next other shapeless =>
    rw [shapeless.1, empty, shapeless.2]
    cases tag : (a.node i).head.tag with
    | known kind => cases kind <;> first | rfl | exact absurd ⟨tag, shapeless.1⟩ other
    | other => rfl
  · -- No other rule is left for the trees either.
    split <;> grind

/-- What is decided of smaller pairs is decided of a pair. -/
theorem assignableAt_of_decidedBelow (below : DecidedBelow (i + j)) (source : (a.tree i).Complete)
    (target : (b.tree j).Complete) :
    a.assignableAt b i j = some ((a.tree i).assignable (b.tree j)) := by
  rw [assignableAt, Tree.assignable_eq]
  simp only [isKind_tree, equalAt_eq_equiv, tag_tree, children_tree, List.all_map, List.any_map]
  split
  · rfl
  split
  · rfl
  split
  · refine allM_eq_some fun c _ => ?_
    have earlier := a.child_lt c.2
    exact below a b c.1 j (by omega) (source.child _ (a.tree_mem_children c.2)) target
  split
  · refine anyM_eq_some fun c _ => ?_
    have earlier := b.child_lt c.2
    exact below a b i c.1 (by omega) source (target.child _ (b.tree_mem_children c.2))
  split
  · next shortcut =>
    rw [shortcut]
    rfl
  · next other =>
    rw [structureAt_eq below source target, Bool.eq_false_iff.2 other]
    rfl

end Rules

theorem decidedBelow (k : Nat) : DecidedBelow k := by
  induction k with
  | zero => exact fun _ _ _ _ smaller => absurd smaller (Nat.not_lt_zero _)
  | succ k ih =>
      intro m n a b i j smaller source target
      refine assignableAt_of_decidedBelow (fun a' b' i' j' less => ?_) source target
      exact ih a' b' i' j' (by omega)

/-- Complete stored types are compared as their trees are. -/
theorem assignableAt_eq_assignable {a : Arena m} {b : Arena n} {i j : Nat}
    (source : (a.tree i).Complete) (target : (b.tree j).Complete) :
    a.assignableAt b i j = some ((a.tree i).assignable (b.tree j)) :=
  decidedBelow (i + j + 1) a b i j (Nat.lt_succ_self _) source target

end Arena

end StructuralTypes
