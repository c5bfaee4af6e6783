import StructuralTypes.Proofs.EqualOperations

/-!
# Revised shapes

Every transformation of a shape keeps some of its members, in order, and revises their modifiers.
Picking and dropping revise nothing; the others keep all members. So what holds of revised shapes
holds of all transformations at once.
-/

namespace StructuralTypes.Tree

/-- The object of the members of `t` that are kept, with other modifiers. -/
def revised (t : Tree) (kept : Tree → Bool) (f : Tree → Modifiers) : Tree :=
  ofMembers ((t.children.filter kept).map fun m => m.withModifiers (f m))

theorem size_revised_le (t : Tree) (kept : Tree → Bool) (f : Tree → Modifiers) :
    (t.revised kept f).size ≤ t.size := by
  have fewer := sizeAll_le_of_sublist (List.filter_sublist (p := kept) (l := t.children))
  rw [revised, ofMembers, size_eq, children_node, sizeAll_mapModifiers, size_eq t]
  exact Nat.succ_le_succ fewer

section Modifiers

@[simp] theorem withModifiers_modifiers (m : Tree) : m.withModifiers m.modifiers = m := by
  cases m
  rfl

@[simp] theorem modifiers_withModifiers (m : Tree) (modifiers : Modifiers) :
    (m.withModifiers modifiers).modifiers = modifiers := rfl

@[simp] theorem name_withModifiers (m : Tree) (modifiers : Modifiers) :
    (m.withModifiers modifiers).name = m.name := rfl

end Modifiers

namespace Normal

variable {t : Tree} (h : t.Normal) (object : t.isKind .object = true) (kept : Tree → Bool)
  (f : Tree → Modifiers)

include h object

theorem eq_ofMembers : t = ofMembers t.children := by
  rw [ofMembers, ← h.head_eq object rfl, node_head_children]

/-- A shape is the revision that changes nothing. -/
theorem revised_self : t.revised (fun _ => true) modifiers = t := by
  rw [revised, List.filter_true, List.map_congr_left fun m _ => withModifiers_modifiers m,
    List.map_id', ← h.eq_ofMembers object]

theorem revised (bits : ∀ m ∈ t.children, (f m).reserved = m.modifiers.reserved) :
    (t.revised kept f).Normal := by
  have part := (h.members object).sublist (List.filter_sublist (p := kept))
  exact (part.mapModifiers fun m hm => bits m (List.mem_of_mem_filter hm)).object

/-- A member is found under its key. -/
theorem find?_name {m : Tree} (hm : m ∈ t.children) : t.find? m.name.text = some m :=
  (find?_eq_some_iff (h.members object).keys).2 ⟨hm, rfl⟩

/-- A kept member is found under its key, with the modifiers that it is given. -/
theorem find?_revised_of_kept {m : Tree} (hm : m ∈ t.children) (keep : kept m = true) :
    (t.revised kept f).find? m.name.text = some (m.withModifiers (f m)) := by
  have names : ((t.revised kept f).children.map name).Nodup := by
    rw [Tree.revised, ofMembers, children_node, List.map_map]
    exact (h.members object).keys.sublist (List.filter_sublist.map name)
  refine (find?_eq_some_iff names).2 ⟨?_, rfl⟩
  exact List.mem_map_of_mem (List.mem_filter.2 ⟨hm, keep⟩)

/-- A member that is not kept is not found, because no other one has its key. -/
theorem find?_revised_of_not_kept {m : Tree} (hm : m ∈ t.children) (leave : kept m = false) :
    (t.revised kept f).find? m.name.text = none := by
  apply List.find?_eq_none.2
  rw [Tree.revised, ofMembers, children_node]
  simp only [List.mem_map, List.mem_filter, beq_iff_eq]
  rintro _ ⟨n, ⟨hn, keep⟩, rfl⟩ same
  have found := h.find?_name object hn
  rw [← name_withModifiers n (f n), same, h.find?_name object hm] at found
  rw [Option.some.inj found, keep] at leave
  cases leave

end Normal

section Keys

variable {t : Tree}

/-- The first key of a set that a shape does not have. -/
def firstMissing? (t : Tree) (keys : KeySet) : Option Name :=
  keys.keys.find? fun k => t.hasKey k.text = .ok false

variable (object : t.isKind .object = true)

include object

/-- A shape has the keys that its members are named by. -/
theorem hasKey_iff_mem_names {k : Name} : t.hasKey k.text = .ok true ↔ k ∈ t.names := by
  rw [hasKey_iff, and_iff_right object, ← Option.isSome_iff_exists, find?, List.find?_isSome, names,
    List.mem_map]
  simp only [beq_iff_eq, ← Name.ext_iff]

theorem hasKey_eq_false_iff {key : Text} :
    t.hasKey key = .ok false ↔ ¬ t.hasKey key = .ok true := by
  rw [hasKey, requireObject, if_pos object]
  change Except.ok _ = Except.ok _ ↔ ¬ Except.ok _ = Except.ok _
  cases (t.find? key).isSome <;> simp

theorem firstMissing?_eq_none_iff {keys : KeySet} :
    t.firstMissing? keys = none ↔ ∀ k ∈ keys.keys, t.hasKey k.text = .ok true := by
  rw [firstMissing?, List.find?_eq_none]
  simp only [decide_eq_true_eq, hasKey_eq_false_iff object, not_not]

/-- An operation gets all keys that it asks for, or reports the first one that is missing. -/
theorem requireMembers_eq (operation : Operation) (keys : KeySet) :
    t.requireMembers operation keys =
      match t.firstMissing? keys with
      | none => .ok ()
      | some k => .error (t.unknownKey operation k.text) := by
  rw [requireMembers, firstMissing?]
  induction keys.keys with
  | nil => rfl
  | cons k ks ih =>
      change (do
        discard (t.member operation k.text)
        ks.forM fun k => discard (t.member operation k.text)) = _
      rw [List.find?_cons, hasKey, member, requireObject, if_pos object]
      cases found : t.find? k.text with
      | none => rfl
      | some m => exact ih

/-- An operation gets all keys that it asks for if they are names of members. -/
theorem requireMembers_eq_ok {keys : KeySet} (known : ∀ k ∈ keys.keys, k ∈ t.names)
    (operation : Operation) : t.requireMembers operation keys = .ok () := by
  have none : t.firstMissing? keys = none := (firstMissing?_eq_none_iff object).2 fun k hk =>
    (hasKey_iff_mem_names object).2 (known k hk)
  rw [requireMembers_eq object, none]

end Keys

section Transformations

variable {t : Tree} {keys : KeySet}

variable (h : t.Normal) (object : t.isKind .object = true)

include object in
theorem pick_eq_revised (known : ∀ k ∈ keys.keys, k ∈ t.names) :
    t.pick keys = .ok (t.revised (fun m => keys.contains m.name.text) modifiers) := by
  rw [pick, requireMembers_eq_ok object known, revised,
    List.map_congr_left fun m _ => withModifiers_modifiers m, List.map_id']
  rfl

include object in
theorem drop_eq_revised (known : ∀ k ∈ keys.keys, k ∈ t.names) :
    t.drop keys = .ok (t.revised (fun m => !keys.contains m.name.text) modifiers) := by
  rw [drop, requireMembers_eq_ok object known, revised,
    List.map_congr_left fun m _ => withModifiers_modifiers m, List.map_id']
  rfl

include h object

theorem Normal.mapModifiers_eq_revised (f : Tree → Modifiers) :
    t.mapModifiers f = t.revised (fun _ => true) f := by
  rw [Tree.mapModifiers, h.head_eq object rfl, Tree.revised, List.filter_true]
  rfl

theorem Normal.withOptional_eq_revised (known : ∀ k ∈ keys.keys, k ∈ t.names) :
    t.withOptional keys = .ok (t.revised (fun _ => true) fun m =>
      if keys.contains m.name.text then { m.modifiers with optional := true }
      else m.modifiers) := by
  rw [Tree.withOptional, requireMembers_eq_ok object known, ← h.mapModifiers_eq_revised object]
  rfl

theorem Normal.mutableProjection_eq_revised :
    t.mutableProjection =
      .ok (t.revised (fun _ => true) fun m => { m.modifiers with readOnly := false }) := by
  rw [Tree.mutableProjection, requireObject, if_pos object, ← h.mapModifiers_eq_revised object]
  rfl

end Transformations

end StructuralTypes.Tree
