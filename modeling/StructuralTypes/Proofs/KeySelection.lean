import StructuralTypes.Proofs.Agreement
import StructuralTypes.Proofs.NormalDescriptor

/-!
# Selecting keys

The keys of a normal shape are the names of its members, in order. A predicate that answers for
every member selects the names of those that satisfy it, again in order; with the names of the
others they partition the keys.
-/

namespace StructuralTypes

namespace KeySet

variable {all a b : KeySet}

/-- Two sets that make up a third one when they are put together partition it. -/
theorem partitions_of_perm (order : (a.keys ++ b.keys).Perm all.keys) :
    all.partitions a b = .ok true := by
  have distinct : (a.keys ++ b.keys).Nodup := order.nodup_iff.2 all.distinct
  have apart : a.disjoint b = true := by
    rw [disjoint, isEmpty, List.isEmpty_iff, inter, filter, List.filter_eq_nil_iff]
    intro k hk shared
    exact (List.nodup_append.1 distinct).2.2 k hk k (contains_text.1 shared) rfl
  obtain ⟨both, united, keys⟩ := exists_foldlM_insert distinct (order.length_eq ▸ all.bounded)
  rw [partitions, if_pos apart, union, united]
  exact congrArg Except.ok (same_of_perm (keys ▸ order))

end KeySet

namespace Tree

variable {t : Tree}

theorem Normal.exists_keys (h : t.Normal) (object : t.isKind .object = true) :
    ∃ all, t.keys = .ok all ∧ all.keys = t.names := by
  obtain ⟨all, inserted, keys⟩ :=
    KeySet.exists_ofList (h.members object).keys (h.length_names_le object)
  refine ⟨all, ?_, keys⟩
  rw [Tree.keys, requireObject, if_pos object]
  exact inserted

end Tree

namespace Descriptor

variable {cap : Nat} {d : Descriptor cap}

/-- A predicate that answers for every member selects the names of those that satisfy it. -/
theorem Normal.exists_selectKeys (h : d.Normal) (object : d.tree.isKind .object = true)
    {p : Text → Except Fault Bool} {q : Tree → Bool}
    (each : ∀ m ∈ d.tree.children, p m.name.text = .ok (q m)) :
    ∃ s, d.selectKeys p = .ok s ∧ s.keys = (d.tree.children.filter q).map Tree.name := by
  obtain ⟨all, known, keys⟩ := h.type.exists_keys object
  rw [Tree.names] at keys
  let chosen (k : Name) : Bool := (p k.text).toOption.getD false
  have answers : ∀ k ∈ all.keys, p k.text = .ok (chosen k) := by
    intro k hk
    rw [keys] at hk
    obtain ⟨m, hm, rfl⟩ := List.mem_map.1 hk
    rw [each m hm]
    exact congrArg Except.ok (by simp only [chosen, each m hm]; rfl)
  have kept : all.keys.filter chosen = (d.tree.children.filter q).map Tree.name := by
    rw [keys, List.filter_map]
    refine congrArg _ (List.filter_congr fun m hm => ?_)
    simp only [Function.comp_apply, chosen, each m hm]
    rfl
  have inside := (List.filter_sublist : (all.keys.filter chosen).Sublist all.keys)
  obtain ⟨s, inserted, keys'⟩ :=
    KeySet.exists_ofList (all.distinct.sublist inside) (inside.length_le.trans all.bounded)
  refine ⟨s, ?_, keys'.trans kept⟩
  rw [selectKeys, known]
  change (all.keys.filterM fun k : Name => p k.text) >>=
    (fun kept => KeySet.ofList (kept.map Name.text)) = .ok s
  rw [filterM_eq_ok answers]
  exact inserted

/-- The keys that a predicate selects and those that its negation selects partition the keys. Both
are listed in the order of the members. -/
theorem Normal.exists_partition (h : d.Normal) (object : d.tree.isKind .object = true)
    {p r : Text → Except Fault Bool} {q : Tree → Bool}
    (each : ∀ m ∈ d.tree.children, p m.name.text = .ok (q m) ∧ r m.name.text = .ok (!q m)) :
    ∃ all a b : KeySet, d.tree.keys = .ok all ∧ d.selectKeys p = .ok a ∧ d.selectKeys r = .ok b ∧
      all.keys = d.tree.names ∧ a.keys = (d.tree.children.filter q).map Tree.name ∧
      b.keys = (d.tree.children.filter fun m => !q m).map Tree.name ∧
      all.partitions a b = .ok true := by
  obtain ⟨all, known, keys⟩ := h.type.exists_keys object
  obtain ⟨a, selected, left⟩ := h.exists_selectKeys object fun m hm => (each m hm).1
  obtain ⟨b, selected', right⟩ := h.exists_selectKeys object fun m hm => (each m hm).2
  refine ⟨all, a, b, known, selected, selected', keys, left, right, KeySet.partitions_of_perm ?_⟩
  rw [left, right, keys, ← List.map_append]
  exact (List.filter_append_perm q d.tree.children).map Tree.name

end Descriptor

end StructuralTypes
