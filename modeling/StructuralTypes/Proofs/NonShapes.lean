import StructuralTypes.Proofs.FullRendering
import StructuralTypes.Proofs.RevisedShape
import StructuralTypes.Proofs.ShapeAnswers

/-!
# Types that are no shapes

Looking a member up requires an object, and so do the operations on shapes that begin with that or
with a check of their own. Picking, dropping and relaxing members look up every key that they are
given. Without any key nothing is looked up, and a type of any kind passes for a shape.
-/

namespace StructuralTypes

/-- The message quotes the type in full. -/
theorem Fault.message_notObject (t : Tree) :
    (notObject t.text).message = line "expected an object shape\n  at: " ++ t.text := by
  have short : t.text.length ≤ 255 := t.render.fits
  have parts : (Report.note (.ofString "expected an object shape") t.text).parts.flatten =
      line "expected an object shape\n  at: " ++ t.text := by
    have together : Text.ofString "expected an object shape\n  at: " =
        .ofString "expected an object shape" ++ .ofString "\n  at: " := by decide
    simp [Report.parts, line, together]
  rw [message, Report.render, Buffer.content_ofParts, parts]
  apply List.take_of_length_le
  have head : (line "expected an object shape\n  at: ").length = 44 := by decide
  rw [List.length_append, head]
  omega

namespace Tree

/-- The computation fails because the type is no shape. -/
def Refuses (t : Tree) {α : Type} (x : Except Fault α) : Prop := x = .error (.notObject t.text)

section Refusals

variable {t : Tree} {α β : Type}

theorem Refuses.bind {x : Except Fault α} (h : t.Refuses x) (f : α → Except Fault β) :
    t.Refuses (x >>= f) := by
  rw [Refuses] at h
  rw [h]
  rfl

theorem Refuses.map {x : Except Fault α} (h : t.Refuses x) (f : α → β) : t.Refuses (f <$> x) := by
  rw [Refuses] at h
  rw [h]
  rfl

variable (other : t.isKind .object = false)

include other

theorem refuses_requireObject : t.Refuses t.requireObject := by
  rw [Refuses, requireObject, other]
  rfl

theorem refuses_member (operation : Operation) (key : Text) :
    t.Refuses (t.member operation key) :=
  (refuses_requireObject other).bind _

/-- Asking for any key at all begins with the check. -/
theorem refuses_requireMembers (operation : Operation) {keys : KeySet} (some : keys ≠ .empty) :
    t.Refuses (t.requireMembers operation keys) := by
  have listed : keys.keys ≠ [] := fun none => some (KeySet.ext none)
  obtain ⟨k, ks, asked⟩ := List.exists_cons_of_ne_nil listed
  rw [requireMembers, asked]
  change t.Refuses (do
    discard (t.member operation k.text)
    ks.forM fun k => discard (t.member operation k.text))
  exact ((refuses_member other operation k.text).map _).bind _

end Refusals

section Unchecked

variable (t : Tree)

theorem pick_empty : t.pick .empty = .ok (ofMembers []) := by
  have none : t.children.filter (fun m => KeySet.empty.contains m.name.text) = [] :=
    List.filter_eq_nil_iff.2 fun m _ => Bool.false_ne_true
  rw [pick, none]
  rfl

theorem drop_empty : t.drop .empty = .ok (ofMembers t.children) := by
  have all : t.children.filter (fun m => !KeySet.empty.contains m.name.text) = t.children :=
    List.filter_eq_self.2 fun m _ => rfl
  rw [drop, all]
  rfl

theorem withOptional_empty : t.withOptional .empty = .ok t := by
  have same : t.mapModifiers modifiers = t := by
    rw [mapModifiers, List.map_congr_left fun m _ => withModifiers_modifiers m, List.map_id',
      node_head_children]
  exact congrArg Except.ok same

end Unchecked

end Tree

namespace Descriptor

variable {cap : Nat} {d : Descriptor cap}

/-- What is asked of a shape or done to it without a key set fails because the type is no shape. -/
structure Refused (d : Descriptor cap) : Prop where
  memberCount : d.tree.Refuses d.tree.memberCount
  keys : d.tree.Refuses d.tree.keys
  hasKey : ∀ key, d.tree.Refuses (d.tree.hasKey key)
  memberModifiers : ∀ key, d.tree.Refuses (d.tree.memberModifiers key)
  declaredType : ∀ key, d.tree.Refuses (d.declaredType key)
  propertyType : ∀ key, d.tree.Refuses (d.propertyType key)
  slice : ∀ key, d.tree.Refuses (d.slice key)
  mutableProjection : d.tree.Refuses d.mutableProjection
  isWritable : ∀ key, d.tree.Refuses (d.isWritable key)
  isReadonly : ∀ key, d.tree.Refuses (d.isReadonly key)
  isOptional : ∀ key, d.tree.Refuses (d.isOptional key)
  isRequired : ∀ key, d.tree.Refuses (d.isRequired key)
  isFunctionValued : ∀ key, d.tree.Refuses (d.isFunctionValued key)
  matchesCategory : ∀ key {n : Nat} (target : Descriptor n),
    d.tree.Refuses (d.matchesCategory key target)
  selectKeys : ∀ p, d.tree.Refuses (d.selectKeys p)
  keysWithValueType : ∀ {n : Nat} (target : Descriptor n),
    d.tree.Refuses (d.keysWithValueType target)
  pickRequired : d.tree.Refuses d.pickRequired

theorem refused (other : d.tree.isKind .object = false) : d.Refused := by
  have check := Tree.refuses_requireObject other
  have found := Tree.refuses_member other
  have declared (key : Text) : d.tree.Refuses (d.declaredType key) := ((found _ key).map _).bind _
  have property (key : Text) : d.tree.Refuses (d.propertyType key) := (declared key).bind _
  have slice (key : Text) : d.tree.Refuses (d.slice key) := ((found _ key).bind _).bind _
  have projection : d.tree.Refuses d.mutableProjection := (check.bind _).bind _
  have select (p : Text → Except Fault Bool) : d.tree.Refuses (d.selectKeys p) :=
    (check.bind _).bind _
  exact {
    memberCount := check.bind _
    keys := check.bind _
    hasKey _ := check.bind _
    memberModifiers key := (found _ key).map _
    declaredType := declared
    propertyType := property
    slice := slice
    mutableProjection := projection
    isWritable _ := projection.bind _
    isReadonly _ := (projection.bind _).bind _
    isOptional key := (slice key).bind _
    isRequired key := ((slice key).bind _).bind _
    isFunctionValued key := (property key).bind _
    matchesCategory key _ _ := (property key).bind _
    selectKeys := select
    keysWithValueType _ := (select _).bind _
    pickRequired := (select _).bind _ }

/-- Any key makes an operation check the type. -/
structure RefusedWith (d : Descriptor cap) (keys : KeySet) : Prop where
  pick : d.tree.Refuses (d.pick keys)
  drop : d.tree.Refuses (d.drop keys)
  withOptional : d.tree.Refuses (d.withOptional keys)

theorem refusedWith (other : d.tree.isKind .object = false) {keys : KeySet}
    (some : keys ≠ .empty) : d.RefusedWith keys where
  pick := ((Tree.refuses_requireMembers other _ some).bind _).bind _
  drop := ((Tree.refuses_requireMembers other _ some).bind _).bind _
  withOptional := ((Tree.refuses_requireMembers other _ some).bind _).bind _

section Unchecked

/-- What the operations make of a type when they are given no key: the object without members, the
object of whatever is below the root, and the type itself. -/
structure Unchecked (d : Descriptor cap) : Prop where
  pick : d.pick .empty = ofTree cap (.ofMembers [])
  drop : d.drop .empty = ofTree cap (.ofMembers d.tree.children)
  withOptional : d.withOptional .empty = ofTree cap d.tree

theorem unchecked (d : Descriptor cap) : d.Unchecked where
  pick := by rw [Descriptor.pick, transform, Tree.pick_empty]; rfl
  drop := by rw [Descriptor.drop, transform, Tree.drop_empty]; rfl
  withOptional := by rw [Descriptor.withOptional, transform, Tree.withOptional_empty]; rfl

/-- Below a type that is no object there are no members, so that dropping nothing makes an object of
other types. -/
theorem Reachable.exists_unchecked (h : d.Reachable) (other : d.tree.isKind .object = false) :
    ∃ none all, d.pick .empty = .ok none ∧ none.tree = .ofMembers [] ∧
      d.drop .empty = .ok all ∧ all.tree = .ofMembers d.tree.children ∧
      (∀ c ∈ all.tree.children, c.isKind .member = false) ∧ d.withOptional .empty = .ok d := by
  obtain ⟨picked, dropped, relaxed⟩ := d.unchecked
  have room : (Tree.ofMembers []).size ≤ cap := (Tree.size_pos d.tree).trans_le h.normal.size_le
  have room' : (Tree.ofMembers d.tree.children).size ≤ cap := by
    rw [Tree.size_eq, Tree.ofMembers, Tree.children_node, ← Tree.size_eq]
    exact h.normal.size_le
  obtain ⟨none, made⟩ := (ofTree_total cap _).1 room
  obtain ⟨all, made'⟩ := (ofTree_total cap _).1 room'
  refine ⟨none, all, picked.trans made, tree_of_ofTree made, dropped.trans made',
    tree_of_ofTree made', ?_, relaxed.trans h.normal.laidOut⟩
  rw [tree_of_ofTree made']
  exact h.normal.type.shaped.elsewhere other

end Unchecked

/-- A type that is no object is refused by whatever is asked of a shape, and by picking, dropping
and relaxing members if there is a key. Without a key these three accept it: picking makes an object
without members of it, dropping an object of the types below it, and relaxing leaves it as it is. -/
theorem non_shapes_refused_with_keys (other : d.tree.isKind .object = false) :
    d.Refused ∧ (∀ keys, keys ≠ .empty → d.RefusedWith keys) ∧
      (Fault.notObject d.tree.text).message =
        Fault.line "expected an object shape\n  at: " ++ d.tree.text ∧
      d.Unchecked ∧
      (d.Reachable → ∃ none all, d.pick .empty = .ok none ∧ none.tree = .ofMembers [] ∧
        d.drop .empty = .ok all ∧ all.tree = .ofMembers d.tree.children ∧
        (∀ c ∈ all.tree.children, c.isKind .member = false) ∧ d.withOptional .empty = .ok d) :=
  ⟨refused other, fun _ => refusedWith other, Fault.message_notObject d.tree, d.unchecked,
    fun h => h.exists_unchecked other⟩

/-- A function type is refused for any key. -/
theorem non_shapes_refused_with_keys_fn :
    ∃ d : Descriptor 3, (do fn (← ofKind 3 .number) [← ofKind 3 .string]) = .ok d ∧
      ∃ keys, KeySet.ofList [.ofString "arg0"] = .ok keys ∧
        d.drop keys = .error (.notObject (.ofString "(arg0: string) => number")) := by
  apply exists_ok (by decide +kernel)
  intro d made
  obtain ⟨-, known⟩ : d.Known (.node (.ofKind .fn) [.ofKind .number, .ofKind .string]) :=
    Gives.holds made (.unary rfl rfl)
  have other : d.tree.isKind .object = false := by rw [known]; rfl
  have text : d.tree.text = .ofString "(arg0: string) => number" := by
    rw [known]
    decide +kernel
  obtain ⟨-, refused, -⟩ := non_shapes_refused_with_keys other
  apply exists_ok (by decide +kernel)
  intro keys listed
  have some : keys ≠ .empty := by
    rintro rfl
    exact absurd listed (by decide +kernel)
  rw [← text]
  exact (refused keys some).drop

/-- Dropping nothing from a function type makes an object whose members are the types of its result
and its parameter. -/
theorem object_without_members_fn :
    ∃ d : Descriptor 3, (do fn (← ofKind 3 .number) [← ofKind 3 .string]) = .ok d ∧
      d.Reachable ∧ d.tree.isKind .object = false ∧
      ∃ none all, d.pick .empty = .ok none ∧ none.tree = .ofMembers [] ∧
        d.drop .empty = .ok all ∧
        all.tree = .ofMembers [.ofKind .number, .ofKind .string] ∧
        d.withOptional .empty = .ok d := by
  apply exists_ok (by decide +kernel)
  intro d made
  obtain ⟨reachable, known⟩ : d.Known (.node (.ofKind .fn) [.ofKind .number, .ofKind .string]) :=
    Gives.holds made (.unary rfl rfl)
  have other : d.tree.isKind .object = false := by rw [known]; rfl
  obtain ⟨none, all, picked, empty, dropped, below, -, relaxed⟩ := reachable.exists_unchecked other
  rw [known] at below
  exact ⟨reachable, other, none, all, picked, empty, dropped, below, relaxed⟩

end Descriptor

end StructuralTypes
