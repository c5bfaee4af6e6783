import StructuralTypes.Proofs.NormalType

/-!
# The normal form of a union

Adding alternatives one by one keeps the first of each class of equal alternatives, in order. It
fails exactly when more than 16 are left. What a normalized union or an exclusion gives is a normal
type again.
-/

namespace StructuralTypes.Tree

/-- The list with one more alternative, unless an equal one is in it. -/
def merge (found : List Tree) (t : Tree) : List Tree :=
  if found.any (·.equiv t) then found else found ++ [t]

/-- The first of each class of equal trees, in order. -/
def merged (ts : List Tree) : List Tree := ts.foldl merge []

section Merging

theorem length_le_merge (found : List Tree) (t : Tree) : found.length ≤ (merge found t).length := by
  unfold merge
  split
  · exact Nat.le_refl _
  · simp

theorem length_le_foldl_merge (found ts : List Tree) :
    found.length ≤ (ts.foldl merge found).length := by
  induction ts generalizing found with
  | nil => exact Nat.le_refl _
  | cons t ts ih => exact (length_le_merge found t).trans (ih (merge found t))

theorem addAlternative_eq {found : List Tree} (fits : found.length ≤ 16) (t : Tree) :
    addAlternative found t =
      if (merge found t).length ≤ 16 then .ok (merge found t) else .error .tooManyAlternatives := by
  unfold addAlternative merge
  by_cases known : found.any (·.equiv t) = true
  · rw [if_pos known, if_pos known, if_pos fits]
  · rw [if_neg known, if_neg known, List.length_append, List.length_singleton]
    rfl

/-- Adding alternatives fails exactly when more than 16 distinct ones come together. -/
theorem foldlM_addAlternative {found : List Tree} (fits : found.length ≤ 16) (ts : List Tree) :
    ts.foldlM addAlternative found =
      if (ts.foldl merge found).length ≤ 16 then .ok (ts.foldl merge found)
      else .error .tooManyAlternatives := by
  induction ts generalizing found with
  | nil => simp [fits, pure, Except.pure]
  | cons t ts ih =>
      rw [List.foldlM_cons, addAlternative_eq fits, List.foldl_cons]
      split
      · next room => exact ih room
      · next full =>
        have := length_le_foldl_merge (merge found t) ts
        rw [if_neg (by omega)]
        rfl

theorem distinctAlternatives_eq (t : Tree) :
    t.distinctAlternatives =
      if (merged t.alternatives).length ≤ 16 then .ok (merged t.alternatives)
      else .error .tooManyAlternatives := by
  rw [distinctAlternatives, addAlternatives_eq, foldlM_addAlternative (Nat.zero_le _)]
  rfl

theorem distinct_merge {found : List Tree} (h : Distinct found) (t : Tree) :
    Distinct (merge found t) := by
  unfold merge
  split
  · exact h
  · next absent =>
    refine List.pairwise_append.2 ⟨h, List.pairwise_singleton _ _, fun a ha b hb => ?_⟩
    obtain rfl := List.mem_singleton.1 hb
    simp only [List.any_eq_true, not_exists, not_and] at absent
    exact Bool.eq_false_iff.2 (absent a ha)

theorem distinct_merged (ts : List Tree) : Distinct (merged ts) :=
  List.foldlRecOn ts merge List.Pairwise.nil fun _ h t _ => distinct_merge h t

theorem mem_of_mem_merge {found : List Tree} {t a : Tree} (h : a ∈ merge found t) :
    a ∈ found ∨ a = t := by
  unfold merge at h
  split at h
  · exact .inl h
  · simpa using h

theorem mem_of_mem_merged {ts : List Tree} {a : Tree} (h : a ∈ merged ts) : a ∈ ts := by
  suffices within : ∀ b ∈ merged ts, b ∈ ts from within a h
  refine List.foldlRecOn (motive := fun found => ∀ b ∈ found, b ∈ ts) ts merge (by simp) ?_
  intro found ih t ht b hb
  rcases mem_of_mem_merge hb with hb | rfl
  · exact ih b hb
  · exact ht

end Merging

section Alternatives

theorem alternativesAll_eq (ts : List Tree) : alternativesAll ts = ts.flatMap alternatives := by
  induction ts with
  | nil => rfl
  | cons t ts ih => rw [alternativesAll, ih, List.flatMap_cons]

theorem alternatives_eq (t : Tree) :
    t.alternatives =
      if t.isKind .union then t.children.flatMap alternatives
      else if t.isKind .never then [] else [t] := by
  cases t
  rw [alternatives, alternativesAll_eq]
  rfl

/-- No alternative is a union or `never`. -/
theorem isKind_of_mem_alternatives {t a : Tree} (h : a ∈ t.alternatives) :
    a.isKind .union = false ∧ a.isKind .never = false := by
  induction t using nodeInduction with
  | node head children ih =>
      rw [alternatives_eq] at h
      split at h
      · obtain ⟨c, hc, h⟩ := List.mem_flatMap.1 h
        exact ih c hc h
      · next noUnion =>
        split at h
        · cases h
        · next notNever =>
          obtain rfl := List.mem_singleton.1 h
          exact ⟨Bool.eq_false_iff.2 noUnion, Bool.eq_false_iff.2 notNever⟩

theorem IsAlternative.alternatives_eq {a : Tree} (h : a.IsAlternative) : a.alternatives = [a] := by
  rw [Tree.alternatives_eq, h.noUnion, h.notNever]
  rfl

variable {t : Tree}

/-- The alternatives of a normal union are its children. -/
theorem Normal.alternatives_of_union (h : t.Normal) (k : t.isKind .union = true) :
    t.alternatives = t.children := by
  have proper := (h.alternatives k).proper
  rw [Tree.alternatives_eq, if_pos k]
  generalize t.children = children at proper
  induction children with
  | nil => rfl
  | cons c cs ih =>
      rw [List.flatMap_cons, (proper c List.mem_cons_self).alternatives_eq,
        ih fun a ha => proper a (List.mem_cons_of_mem _ ha), List.singleton_append]

theorem Normal.of_mem_alternatives (h : t.Normal) {a : Tree} (ha : a ∈ t.alternatives) :
    a.Normal := by
  by_cases k : t.isKind .union = true
  · rw [h.alternatives_of_union k] at ha
    exact (h.alternatives k).normal a ha
  · rw [Tree.alternatives_eq, if_neg k] at ha
    split at ha
    · cases ha
    · rw [List.mem_singleton.1 ha]
      exact h

end Alternatives

section Results

/-- Several proper alternatives make a union, one stands for itself, and none is `never`. -/
theorem normal_ofAlternatives {ts : List Tree} (bounded : ts.length ≤ 16) (distinct : Distinct ts)
    (normal : ∀ t ∈ ts, Normal t) (proper : 2 ≤ ts.length → ∀ t ∈ ts, t.IsAlternative) :
    Normal (ofAlternatives ts) := by
  match ts with
  | [] => exact .primitive rfl
  | [t] => exact normal t (List.mem_singleton.2 rfl)
  | t :: u :: rest =>
    have several : 2 ≤ (t :: u :: rest).length := by simp
    exact .union several bounded distinct (proper several) normal

theorem normal_normalized {t u : Tree} (normal : ∀ a ∈ t.alternatives, Normal a)
    (h : t.normalized = .ok u) : Normal u := by
  obtain ⟨found, hf, h⟩ := bind_eq_ok h
  rw [distinctAlternatives_eq] at hf
  split at hf
  · next bounded =>
    cases hf
    cases h
    split
    · exact .primitive rfl
    · next known =>
      refine normal_ofAlternatives bounded (distinct_merged _)
        (fun a ha => normal a (mem_of_mem_merged ha)) fun _ a ha => ?_
      obtain ⟨noUnion, notNever⟩ := isKind_of_mem_alternatives (mem_of_mem_merged ha)
      refine ⟨noUnion, notNever, ?_⟩
      simp only [List.any_eq_true, not_exists, not_and] at known
      exact Bool.eq_false_iff.2 (known a ha)
  · cases hf

theorem Normal.exclude {t : Tree} (h : t.Normal) (u : Tree) : (t.exclude u).Normal := by
  unfold Tree.exclude
  split
  · next k =>
    have alternatives := h.alternatives k
    have kept : (t.children.filter fun a => !a.assignable u).Sublist t.children :=
      List.filter_sublist
    exact normal_ofAlternatives (kept.length_le.trans alternatives.bounded)
      (alternatives.distinct.sublist kept)
      (fun a ha => alternatives.normal a (kept.subset ha))
      (fun _ a ha => alternatives.proper a (kept.subset ha))
  · split
    · exact .primitive rfl
    · exact h

end Results

end StructuralTypes.Tree
