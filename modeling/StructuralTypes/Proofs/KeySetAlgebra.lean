import StructuralTypes.Proofs.Agreement

/-!
# Uniting key sets

Uniting two sets appends the keys that are new, in order, as long as there are at most 16 keys in
all. Two sets are the same when they have the same members.
-/

namespace StructuralTypes.KeySet

variable {a b : KeySet}

theorem insert_of_mem {s : KeySet} {k : Name} (present : k ∈ s.keys) : s.insert k.text = .ok s := by
  have known : ¬ s.contains k.text = false := by simpa using present
  rw [insert, dif_neg known]

/-- Once `k` is inserted, the same keys are new among those that differ from it. -/
theorem filter_new_of_insert {s s' : KeySet} {k : Name} {ks : List Name}
    (inserted : s'.keys = s.keys ++ [k]) (fresh : k ∉ ks) :
    ks.filter (· ∉ s'.keys) = ks.filter (· ∉ s.keys) := by
  apply List.filter_congr
  intro x hx
  have other : x ≠ k := fun same => fresh (same ▸ hx)
  simp [inserted, other]

/-- Keys are inserted behind the others unless they are present, as long as there is room. -/
theorem exists_foldlM_insert_new {names : List Name} {s : KeySet} (distinct : names.Nodup)
    (room : (s.keys ++ names.filter (· ∉ s.keys)).length ≤ 16) :
    ∃ u, (names.map Name.text).foldlM insert s = .ok u ∧
      u.keys = s.keys ++ names.filter (· ∉ s.keys) := by
  induction names generalizing s with
  | nil => exact ⟨s, rfl, (List.append_nil _).symm⟩
  | cons k ks ih =>
      obtain ⟨fresh, distinct⟩ := List.nodup_cons.1 distinct
      rw [List.map_cons, List.foldlM_cons]
      by_cases present : k ∈ s.keys
      · rw [List.filter_cons_of_neg (by simpa using present)] at room ⊢
        rw [insert_of_mem present]
        exact ih distinct room
      · rw [List.filter_cons_of_pos (by simpa using present), List.append_cons] at room ⊢
        have one : s.keys.length < 16 := by
          simp only [List.length_append, List.length_singleton] at room
          omega
        obtain ⟨s', inserted, keys⟩ := exists_insert present one
        rw [← keys, ← filter_new_of_insert keys fresh] at room ⊢
        rw [inserted]
        exact ih distinct room

/-- Where more than 16 keys come together, the set is full at some point. -/
theorem foldlM_insert_full {names : List Name} {s : KeySet} (distinct : names.Nodup)
    (many : 16 < (s.keys ++ names.filter (· ∉ s.keys)).length) :
    (names.map Name.text).foldlM insert s = .error .keySetFull := by
  induction names generalizing s with
  | nil =>
      rw [List.filter_nil, List.append_nil] at many
      exact absurd s.bounded (Nat.not_le.2 many)
  | cons k ks ih =>
      obtain ⟨fresh, distinct⟩ := List.nodup_cons.1 distinct
      rw [List.map_cons, List.foldlM_cons]
      by_cases present : k ∈ s.keys
      · rw [List.filter_cons_of_neg (by simpa using present)] at many
        rw [insert_of_mem present]
        exact ih distinct many
      · rw [List.filter_cons_of_pos (by simpa using present), List.append_cons] at many
        by_cases room : s.keys.length < 16
        · obtain ⟨s', inserted, keys⟩ := exists_insert present room
          rw [← keys, ← filter_new_of_insert keys fresh] at many
          rw [inserted]
          exact ih distinct many
        · have missing : s.contains k.text = false :=
            Bool.eq_false_iff.2 (contains_text.not.2 present)
          rw [insert, dif_pos missing, dif_neg room]
          rfl

/-- The union lists the keys of the first set and then those that are new. -/
theorem exists_union (room : (a.keys ++ b.keys.filter (· ∉ a.keys)).length ≤ 16) :
    ∃ u, a.union b = .ok u ∧ u.keys = a.keys ++ b.keys.filter (· ∉ a.keys) :=
  exists_foldlM_insert_new b.distinct room

/-- Two sets unite if there are at most 16 keys that either of them can have. -/
theorem exists_union_of_subset {names : List Name} (bounded : names.length ≤ 16)
    (left : a.keys ⊆ names) (right : b.keys ⊆ names) :
    ∃ u, a.union b = .ok u ∧ ∀ k, k ∈ u.keys ↔ k ∈ a.keys ∨ k ∈ b.keys := by
  have inside : a.keys ++ b.keys.filter (· ∉ a.keys) ⊆ names :=
    List.append_subset.2 ⟨left, fun k hk => right (List.mem_of_mem_filter hk)⟩
  have distinct : (a.keys ++ b.keys.filter (· ∉ a.keys)).Nodup := by
    refine List.nodup_append.2 ⟨a.distinct, b.distinct.filter _, fun x hx y hy same => ?_⟩
    have absent : y ∉ a.keys := by simpa using (List.mem_filter.1 hy).2
    exact absent (same ▸ hx)
  have room := Nat.le_trans (List.subperm_of_subset distinct inside).length_le bounded
  obtain ⟨u, united, listed⟩ := exists_union room
  refine ⟨u, united, fun k => ?_⟩
  rw [listed, List.mem_append, List.mem_filter]
  by_cases present : k ∈ a.keys <;> simp [present]

theorem contains_inter (k : Name) :
    (a.inter b).contains k.text = (a.contains k.text && b.contains k.text) := by
  rw [Bool.eq_iff_iff, Bool.and_eq_true, contains_text, contains_text]
  exact List.mem_filter

theorem contains_diff (k : Name) :
    (a.diff b).contains k.text = (a.contains k.text && !b.contains k.text) := by
  rw [Bool.eq_iff_iff, Bool.and_eq_true, contains_text, contains_text]
  exact List.mem_filter

/-- Sets with the same members are the same. -/
theorem same_of_mem_iff (members : ∀ k, k ∈ a.keys ↔ k ∈ b.keys) : a.same b = true :=
  same_of_perm ((List.perm_ext_iff_of_nodup a.distinct b.distinct).2 members)

end StructuralTypes.KeySet
