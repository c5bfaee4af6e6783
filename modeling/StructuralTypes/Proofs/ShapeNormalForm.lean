import StructuralTypes.Proofs.NormalType
import StructuralTypes.Proofs.Outcomes

/-!
# The normal form of a shape

What is looked up in a normal object is a member of it. Selecting members and changing the two
modifiers that mean something gives a normal object again.
-/

namespace StructuralTypes

namespace Tree

section Lookup

variable {t : Tree}

/-- Only objects pass as objects. -/
theorem requireObject_eq_ok_iff {done : Unit} :
    t.requireObject = .ok done ↔ t.isKind .object = true := by
  rw [requireObject]
  split <;> simp [*]

/-- What is found under a key is a child of an object. -/
theorem mem_of_member {m : Tree} {operation : Operation} {key : Text}
    (h : t.member operation key = .ok m) : t.isKind .object = true ∧ m ∈ t.children := by
  obtain ⟨done, object, h⟩ := bind_eq_ok h
  refine ⟨requireObject_eq_ok_iff.1 object, ?_⟩
  split at h
  · next found =>
    cases h
    exact mem_of_find? found
  · cases h

/-- What is found under a key of an object is what every operation gets. -/
theorem member_of_find? (object : t.isKind .object = true) {m : Tree} {key : Text}
    (found : t.find? key = some m) (operation : Operation) : t.member operation key = .ok m := by
  rw [member, requireObject, if_pos object, found]
  rfl

theorem slice_of_find? (object : t.isKind .object = true) {m : Tree} {key : Text}
    (found : t.find? key = some m) : t.slice key = .ok (ofMembers [m]) := by
  rw [slice, member_of_find? object found]
  rfl

theorem memberModifiers_of_find? (object : t.isKind .object = true) {m : Tree} {key : Text}
    (found : t.find? key = some m) : t.memberModifiers key = .ok m.modifiers := by
  rw [memberModifiers, member_of_find? object found]
  rfl

theorem declaredType_of_find? (object : t.isKind .object = true) {m : Tree} {key : Text}
    (found : t.find? key = some m) : t.declaredType key = .ok m.first := by
  rw [declaredType, member_of_find? object found]
  rfl

/-- Modifiers are read from the member that is found under the key. -/
theorem find?_of_memberModifiers {key : Text} {modifiers : Modifiers}
    (h : t.memberModifiers key = .ok modifiers) :
    t.isKind .object = true ∧ ∃ m, t.find? key = some m ∧ m.modifiers = modifiers := by
  obtain ⟨m, asked, same⟩ := map_eq_ok h
  have object := (mem_of_member asked).1
  rw [member, requireObject, if_pos object] at asked
  cases found : t.find? key with
  | none =>
      rw [found] at asked
      cases asked
  | some n =>
      rw [found] at asked
      cases asked
      exact ⟨object, m, rfl, same⟩

theorem hasKey_iff {key : Text} :
    t.hasKey key = .ok true ↔ t.isKind .object = true ∧ ∃ m, t.find? key = some m := by
  rw [hasKey, requireObject, ← Option.isSome_iff_exists]
  split
  · next object =>
    rw [object]
    exact ⟨fun h => ⟨rfl, Except.ok.inj h⟩, fun h => congrArg Except.ok h.2⟩
  · next other => exact ⟨nofun, fun h => absurd h.1 other⟩

/-- The declared type of a member is normal. -/
theorem Normal.declaredType (h : t.Normal) {u : Tree} {key : Text}
    (found : t.declaredType key = .ok u) : u.Normal := by
  obtain ⟨m, hm, found⟩ := map_eq_ok found
  obtain ⟨object, inside⟩ := mem_of_member hm
  rw [← found]
  exact (h.members object).normal m inside

/-- A normal object has at most 16 members. -/
theorem Normal.length_names_le (h : t.Normal) (object : t.isKind .object = true) :
    t.names.length ≤ 16 := by
  rw [names, List.length_map]
  exact (h.members object).bounded

end Lookup

section Members

variable {members : List Tree}

theorem NormalMembers.object (h : NormalMembers members) : (ofMembers members).Normal :=
  .object h.bounded h.shaped h.keys h.normal

/-- Some members of a normal object, in order, are members of a normal object. -/
theorem NormalMembers.sublist (h : NormalMembers members) {part : List Tree}
    (kept : part.Sublist members) : NormalMembers part where
  bounded := kept.length_le.trans h.bounded
  shaped m hm := h.shaped m (kept.subset hm)
  keys := h.keys.sublist (kept.map name)
  normal m hm := h.normal m (kept.subset hm)

theorem IsMember.withModifiers {m : Tree} (h : m.IsMember) {modifiers : Modifiers}
    (bits : modifiers.reserved = 0) : (m.withModifiers modifiers).IsMember :=
  ⟨h.tag, h.key, bits, h.type⟩

/-- Members keep their shape when no other bits of their modifiers are touched. -/
theorem NormalMembers.mapModifiers (h : NormalMembers members) {f : Tree → Modifiers}
    (bits : ∀ m ∈ members, (f m).reserved = m.modifiers.reserved) :
    NormalMembers (members.map fun m => m.withModifiers (f m)) where
  bounded := by
    rw [List.length_map]
    exact h.bounded
  shaped := by
    simp only [List.mem_map, forall_exists_index, and_imp, forall_apply_eq_imp_iff₂]
    intro m hm
    apply (h.shaped m hm).withModifiers
    rw [bits m hm, (h.shaped m hm).bits]
  keys := by
    rw [List.map_map]
    exact h.keys
  normal := by
    simp only [List.mem_map, forall_exists_index, and_imp, forall_apply_eq_imp_iff₂]
    exact h.normal

end Members

namespace Normal

variable {t u : Tree}

theorem mapModifiers (h : t.Normal) (object : t.isKind .object = true) {f : Tree → Modifiers}
    (bits : ∀ m ∈ t.children, (f m).reserved = m.modifiers.reserved) :
    (t.mapModifiers f).Normal := by
  rw [Tree.mapModifiers, h.head_eq object rfl]
  exact ((h.members object).mapModifiers bits).object

theorem slice (h : t.Normal) {key : Text} (found : t.slice key = .ok u) : u.Normal := by
  obtain ⟨m, hm, found⟩ := bind_eq_ok found
  obtain ⟨object, inside⟩ := mem_of_member hm
  cases found
  exact ((h.members object).sublist (List.singleton_sublist.2 inside)).object

theorem pick (h : t.Normal) (object : t.isKind .object = true) {keys : KeySet}
    (picked : t.pick keys = .ok u) : u.Normal := by
  obtain ⟨done, -, picked⟩ := bind_eq_ok picked
  cases picked
  exact ((h.members object).sublist List.filter_sublist).object

theorem drop (h : t.Normal) (object : t.isKind .object = true) {keys : KeySet}
    (dropped : t.drop keys = .ok u) : u.Normal := by
  obtain ⟨done, -, dropped⟩ := bind_eq_ok dropped
  cases dropped
  exact ((h.members object).sublist List.filter_sublist).object

theorem withOptional (h : t.Normal) (object : t.isKind .object = true) {keys : KeySet}
    (relaxed : t.withOptional keys = .ok u) : u.Normal := by
  obtain ⟨done, -, relaxed⟩ := bind_eq_ok relaxed
  cases relaxed
  apply h.mapModifiers object
  intro m _
  split <;> rfl

theorem mutableProjection (h : t.Normal) (projected : t.mutableProjection = .ok u) : u.Normal := by
  obtain ⟨done, object, projected⟩ := bind_eq_ok projected
  cases projected
  apply h.mapModifiers (requireObject_eq_ok_iff.1 object)
  intro m _
  rfl

end Normal

end Tree

end StructuralTypes
