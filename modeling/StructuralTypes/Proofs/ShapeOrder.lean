import StructuralTypes.Proofs.MemberModifiers

/-!
# Transformed shapes in the order of assignability

A revision of a shape keeps the declared types, so what it accepts and where it is accepted is a
matter of optionality alone. Leaving members out or making them optional goes up in the order. The
way back is open where nothing is lost: to a shape with a required member goes only what has that
member for certain.
-/

namespace StructuralTypes

namespace Tree.Normal

variable {t : Tree} (h : t.Normal) (object : t.isKind .object = true)

include h object

/-- One revision is assignable to another if each slot that may be left empty on the source's side
may be left empty on the target's side. -/
theorem revised_assignable_revised_iff (kept kept' : Tree → Bool) (f f' : Tree → Modifiers)
    (bits : ∀ m ∈ t.children, (f m).reserved = m.modifiers.reserved)
    (bits' : ∀ m ∈ t.children, (f' m).reserved = m.modifiers.reserved) :
    (t.revised kept f).assignable (t.revised kept' f') = true ↔
      ∀ m ∈ t.children, kept' m = true → (kept m = true → (f m).optional = true) →
        (f' m).optional = true := by
  have source := (h.revised object kept f bits).regular
  have target := (h.revised object kept' f' bits').regular
  have members := h.members object
  rw [source.object_assignable_iff target rfl rfl, Tree.revised, ofMembers, children_node,
    List.forall_mem_map]
  simp only [List.mem_filter, and_imp]
  refine forall_congr' fun m => forall_congr' fun hm => forall_congr' fun _ => ?_
  cases keep : kept m with
  | true =>
      have present := h.find?_revised_of_kept object kept f hm keep
      have slot : m.first? = some m.first := first?_eq_some (members.shaped m hm).below
      rw [byKey_iff_of_same_type (m := m.withModifiers (f' m)) present rfl slot
        (members.normal m hm)]
      simp
  | false =>
      have missing := h.find?_revised_of_not_kept object kept f hm keep
      rw [byKey_iff_of_absent (m := m.withModifiers (f' m)) missing]
      simp

section Whole

variable {kept : Tree → Bool} {f : Tree → Modifiers}
  (bits : ∀ m ∈ t.children, (f m).reserved = m.modifiers.reserved)

include bits

theorem assignable_revised_iff :
    t.assignable (t.revised kept f) = true ↔
      ∀ m ∈ t.children, kept m = true → m.modifiers.optional = true → (f m).optional = true := by
  have between := h.revised_assignable_revised_iff object (fun _ => true) kept modifiers f
    (fun _ _ => rfl) bits
  rw [h.revised_self object] at between
  simpa using between

theorem revised_assignable_iff :
    (t.revised kept f).assignable t = true ↔
      ∀ m ∈ t.children, (kept m = true → (f m).optional = true) → m.modifiers.optional = true := by
  have between := h.revised_assignable_revised_iff object kept (fun _ => true) f modifiers bits
    fun _ _ => rfl
  rw [h.revised_self object] at between
  simpa using between

end Whole

/-- Leaving members out goes up, and back down if they are optional. -/
theorem filtered_in_order (kept : Tree → Bool) :
    t.assignable (t.revised kept modifiers) = true ∧
      ((t.revised kept modifiers).assignable t = true ↔
        ∀ m ∈ t.children, kept m = false → m.modifiers.optional = true) := by
  rw [h.assignable_revised_iff object fun _ _ => rfl,
    h.revised_assignable_iff object fun _ _ => rfl]
  refine ⟨fun _ _ _ => id, forall_congr' fun m => forall_congr' fun _ => ?_⟩
  cases kept m <;> simp

/-- Making members optional goes up, and back down if they are optional already. -/
theorem relaxed_in_order (chosen : Tree → Bool) :
    let relaxed := t.revised (fun _ => true) fun m =>
      if chosen m then { m.modifiers with optional := true } else m.modifiers
    t.assignable relaxed = true ∧ (relaxed.assignable t = true ↔
      ∀ m ∈ t.children, chosen m = true → m.modifiers.optional = true) := by
  have bits : ∀ m ∈ t.children, (if chosen m then
      { m.modifiers with optional := true } else m.modifiers).reserved = m.modifiers.reserved := by
    intro m _
    split <;> rfl
  intro relaxed
  rw [h.assignable_revised_iff object bits, h.revised_assignable_iff object bits]
  refine ⟨fun m _ _ optional => ?_, forall_congr' fun m => forall_congr' fun _ => ?_⟩
  · split
    · rfl
    · exact optional
  · cases chosen m <;> simp

/-- Making members mutable makes no difference to the order. -/
theorem mutable_in_order : t.mutuallyAssignable
    (t.revised (fun _ => true) fun m => { m.modifiers with readOnly := false }) = true := by
  let mutable (m : Tree) : Modifiers := { m.modifiers with readOnly := false }
  rw [mutuallyAssignable, Bool.and_eq_true,
    h.assignable_revised_iff object (f := mutable) fun _ _ => rfl,
    h.revised_assignable_iff object (f := mutable) fun _ _ => rfl]
  exact ⟨fun _ _ _ => id, fun _ _ optional => optional rfl⟩

end Tree.Normal

namespace Descriptor

variable {cap : Nat} {d : Descriptor cap}

/-- A transformation that gives a revision of the shape is stored, since a revision has no more
nodes. -/
theorem Normal.exists_revision (h : d.Normal) {g : Tree → Except Fault Tree} {kept : Tree → Bool}
    {f : Tree → Modifiers} (given : g d.tree = .ok (d.tree.revised kept f)) :
    ∃ e, d.transform g = .ok e ∧ e.tree = d.tree.revised kept f := by
  obtain ⟨e, made⟩ := (ofTree_total cap _).1 ((d.tree.size_revised_le kept f).trans h.size_le)
  refine ⟨e, ?_, tree_of_ofTree made⟩
  rw [transform, given]
  exact made

namespace Normal

variable (h : d.Normal) (object : d.tree.isKind .object = true)

include h object

/-- What is asked of the modifiers of members can be asked of the classifier. -/
theorem forall_optional_iff {p : Text → Prop} :
    (∀ m ∈ d.tree.children, p m.name.text → m.modifiers.optional = true) ↔
      ∀ key, d.tree.hasKey key = .ok true → p key → d.isOptional key = .ok true := by
  constructor
  · intro each key known asked
    obtain ⟨-, m, found⟩ := Tree.hasKey_iff.1 known
    obtain ⟨hm, rfl⟩ := (Tree.find?_eq_some_iff (h.type.members object).keys).1 found
    rw [h.isOptional_of_find? object found, each m hm asked]
  · intro each m hm asked
    have found := h.type.find?_name object hm
    have answer := each _ (Tree.hasKey_iff.2 ⟨object, m, found⟩) asked
    rw [h.isOptional_of_find? object found] at answer
    exact Except.ok.inj answer

theorem exists_mutableProjection :
    ∃ e, d.mutableProjection = .ok e ∧
      e.tree = d.tree.revised (fun _ => true) fun m => { m.modifiers with readOnly := false } :=
  h.exists_revision (h.type.mutableProjection_eq_revised object)

section Keys

variable {keys : KeySet} (known : ∀ k ∈ keys.keys, d.tree.hasKey k.text = .ok true)

include known

theorem mem_names_of_mem_keys : ∀ k ∈ keys.keys, k ∈ d.tree.names := by
  intro k hk
  obtain ⟨-, m, found⟩ := Tree.hasKey_iff.1 (known k hk)
  obtain ⟨hm, named⟩ := (Tree.find?_eq_some_iff (h.type.members object).keys).1 found
  exact List.mem_map.2 ⟨m, hm, Name.ext named⟩

/-- All members with keys in a set are optional when the classifier says so of the keys. -/
theorem forall_optional_keys_iff :
    (∀ m ∈ d.tree.children, keys.contains m.name.text = true → m.modifiers.optional = true) ↔
      ∀ k ∈ keys.keys, d.isOptional k.text = .ok true := by
  rw [h.forall_optional_iff object (p := fun key => keys.contains key = true)]
  constructor
  · exact fun each k hk => each k.text (known k hk) (KeySet.contains_text.2 hk)
  · intro each key _ asked
    obtain ⟨k, hk, rfl⟩ := KeySet.contains_iff.1 asked
    exact each k hk

theorem exists_pick :
    ∃ e, d.pick keys = .ok e ∧
      e.tree = d.tree.revised (fun m => keys.contains m.name.text) Tree.modifiers :=
  h.exists_revision (Tree.pick_eq_revised object (h.mem_names_of_mem_keys object known))

theorem exists_drop :
    ∃ e, d.drop keys = .ok e ∧
      e.tree = d.tree.revised (fun m => !keys.contains m.name.text) Tree.modifiers :=
  h.exists_revision (Tree.drop_eq_revised object (h.mem_names_of_mem_keys object known))

theorem exists_withOptional :
    ∃ e, d.withOptional keys = .ok e ∧
      e.tree = d.tree.revised (fun _ => true) fun m =>
        if keys.contains m.name.text then { m.modifiers with optional := true }
        else m.modifiers :=
  h.exists_revision
    (h.type.withOptional_eq_revised object (h.mem_names_of_mem_keys object known))

end Keys

/-- The required members are those that are not marked as optional. -/
theorem exists_pickRequired :
    ∃ e, d.pickRequired = .ok e ∧
      e.tree = d.tree.revised (fun m => !m.modifiers.optional) Tree.modifiers := by
  have names := (h.type.members object).keys
  obtain ⟨keys, required, listed⟩ := h.exists_selectKeys object (p := d.isRequired)
    fun m hm => h.isRequired_of_find? object (h.type.find?_name object hm)
  have known : ∀ k ∈ keys.keys, d.tree.hasKey k.text = .ok true := by
    intro k hk
    rw [listed] at hk
    obtain ⟨m, hm, rfl⟩ := List.mem_map.1 hk
    have found := h.type.find?_name object (List.mem_of_mem_filter hm)
    exact Tree.hasKey_iff.2 ⟨object, m, found⟩
  have kept : ∀ m ∈ d.tree.children, keys.contains m.name.text = !m.modifiers.optional := by
    intro m hm
    rw [Bool.eq_iff_iff, KeySet.contains_text, listed, List.mem_map]
    constructor
    · rintro ⟨n, hn, same⟩
      obtain ⟨inside, certain⟩ := List.mem_filter.1 hn
      rwa [List.inj_on_of_nodup_map names inside hm same] at certain
    · exact fun certain => ⟨m, List.mem_filter.2 ⟨hm, certain⟩, rfl⟩
  obtain ⟨e, picked, same⟩ := h.exists_pick object known
  refine ⟨e, ?_, ?_⟩
  · rw [pickRequired, requiredKeys, required]
    exact picked
  · rw [same, Tree.revised, Tree.revised, List.filter_congr kept]

end Normal

/-- How transformations move a shape in the order of assignability. Picking, dropping and making
members optional go up; picking goes back down when the keys that are left out are optional, the
other two when the keys that are given are optional already. Making members mutable and picking the
required ones stay where they are. -/
theorem transformations_in_order (h : d.Reachable) (object : d.tree.isKind .object = true) :
    (∃ e, d.mutableProjection = .ok e ∧ d.tree.mutuallyAssignable e.tree = true) ∧
    (∃ e, d.pickRequired = .ok e ∧ d.tree.mutuallyAssignable e.tree = true) ∧
    ∀ keys : KeySet, (∀ k ∈ keys.keys, d.tree.hasKey k.text = .ok true) →
      (∃ e, d.pick keys = .ok e ∧ d.tree.assignable e.tree = true ∧
        (e.tree.assignable d.tree = true ↔ ∀ key, d.tree.hasKey key = .ok true →
          keys.contains key = false → d.isOptional key = .ok true)) ∧
      (∃ e, d.drop keys = .ok e ∧ d.tree.assignable e.tree = true ∧
        (e.tree.assignable d.tree = true ↔ ∀ k ∈ keys.keys, d.isOptional k.text = .ok true)) ∧
      (∃ e, d.withOptional keys = .ok e ∧ d.tree.assignable e.tree = true ∧
        (e.tree.assignable d.tree = true ↔ ∀ k ∈ keys.keys, d.isOptional k.text = .ok true)) := by
  have normal := h.normal
  have type := normal.type
  refine ⟨?projection, ?required, fun keys known => ⟨?picking, ?dropping, ?relaxing⟩⟩
  case projection =>
    obtain ⟨e, projected, same⟩ := normal.exists_mutableProjection object
    exact ⟨e, projected, same ▸ type.mutable_in_order object⟩
  case required =>
    obtain ⟨e, picked, same⟩ := normal.exists_pickRequired object
    obtain ⟨up, down⟩ := type.filtered_in_order object fun m => !m.modifiers.optional
    rw [← same] at up down
    refine ⟨e, picked, Bool.and_eq_true_iff.2 ⟨up, down.2 fun m _ optional => ?_⟩⟩
    rwa [Bool.not_eq_false'] at optional
  case picking =>
    obtain ⟨e, picked, same⟩ := normal.exists_pick object known
    rw [← normal.forall_optional_iff object (p := fun key => keys.contains key = false)]
    exact ⟨e, picked, same ▸ type.filtered_in_order object fun m => keys.contains m.name.text⟩
  case dropping =>
    obtain ⟨e, dropped, same⟩ := normal.exists_drop object known
    have order := type.filtered_in_order object fun m => !keys.contains m.name.text
    simp only [Bool.not_eq_false'] at order
    rw [← same, normal.forall_optional_keys_iff object known] at order
    exact ⟨e, dropped, order⟩
  case relaxing =>
    obtain ⟨e, relaxed, same⟩ := normal.exists_withOptional object known
    have order := type.relaxed_in_order object fun m => keys.contains m.name.text
    rw [← same, normal.forall_optional_keys_iff object known] at order
    exact ⟨e, relaxed, order⟩

/-- A shape with a required and an optional member, stored without room to spare: without the
optional one it is as good as before, without the required one it is not. -/
theorem transformations_of_required_member :
    ∃ d : Descriptor 5, (do
      let a ← Member.make (.ofString "a") (← ofKind 5 .number) .none
      let b ← Member.make (.ofString "b") (← ofKind 5 .string) ⟨true, true, 0⟩
      object 5 [a, b]) = .ok d ∧
      ∃ keys, KeySet.ofList [.ofString "b"] = .ok keys ∧
        (∃ e, d.drop keys = .ok e ∧ d.tree.assignable e.tree = true ∧
          e.tree.assignable d.tree = true) ∧
        (∃ e, d.pick keys = .ok e ∧ d.tree.assignable e.tree = true ∧
          e.tree.assignable d.tree = false) := by
  refine exists_ok_of_test (fun d =>
    d.tree.hasKey (.ofString "a") = .ok true ∧ d.tree.hasKey (.ofString "b") = .ok true ∧
      d.isOptional (.ofString "a") = .ok false ∧ d.isOptional (.ofString "b") = .ok true)
    (by decide +kernel) fun d made known => ?_
  obtain ⟨hasA, hasB, required, optional⟩ := of_decide_eq_true known
  refine exists_ok_of_test (fun keys =>
    (∀ k ∈ keys.keys, k.text = .ofString "b") ∧ keys.contains (.ofString "a") = false)
    (by decide +kernel) fun keys _ named => ?_
  obtain ⟨named, absent⟩ := of_decide_eq_true named
  have reachable : d.Reachable := Gives.holds made (.pair (.kind rfl) (.kind rfl))
  have present : ∀ k ∈ keys.keys, d.tree.hasKey k.text = .ok true := fun k hk =>
    (named k hk).symm ▸ hasB
  obtain ⟨-, -, moves⟩ := transformations_in_order reachable (Tree.hasKey_iff.1 hasA).1
  obtain ⟨⟨e, picked, up, down⟩, ⟨e', dropped, up', down'⟩, -⟩ := moves keys present
  refine ⟨⟨e', dropped, up', down'.2 fun k hk => (named k hk).symm ▸ optional⟩, e, picked, up, ?_⟩
  refine Bool.eq_false_iff.2 fun back => ?_
  rw [down.1 back _ hasA absent] at required
  cases required

end Descriptor

end StructuralTypes
