import StructuralTypes.Proofs.Agreement
import StructuralTypes.Proofs.UnionJoin

/-!
# Operations on equal types

Normalizing, excluding alternatives, looking up members and projecting give equal results for equal
types, and fail for both or for neither. What is compared is the list of children up to order, as a
list of classes of equal types. No result is larger than the type it was made of.
-/

namespace StructuralTypes.Tree

/-- The same types, counted with repetitions, in any order. -/
def SameTypes (ts us : List Tree) : Prop :=
  (ts.map Reordering.classOf).Perm (us.map Reordering.classOf)

theorem equiv_iff_classOf {t u : Tree} :
    t.equiv u = true ↔ Reordering.classOf t = Reordering.classOf u := by
  rw [equiv_iff_reordering, Reordering.classOf_eq_iff]

namespace SameTypes

variable {ts us : List Tree}

theorem iff_partners :
    SameTypes ts us ↔ Relation.Comp List.Perm (List.Forall₂ Reordering) ts us :=
  Reordering.matching_iff.symm

theorem length_eq (h : SameTypes ts us) : ts.length = us.length := by
  simpa using List.Perm.length_eq h

theorem symm (h : SameTypes ts us) : SameTypes us ts := List.Perm.symm h

theorem singleton {t u : Tree} (same : t.equiv u = true) : SameTypes [t] [u] := by
  rw [SameTypes, List.map_singleton, List.map_singleton, equiv_iff_classOf.1 same]

theorem exists_equiv (h : SameTypes ts us) {t : Tree} (ht : t ∈ ts) :
    ∃ u ∈ us, t.equiv u = true := by
  obtain ⟨u, hu, same⟩ := List.mem_map.1 (h.mem_iff.1 (List.mem_map_of_mem ht))
  exact ⟨u, hu, equiv_iff_classOf.2 same.symm⟩

/-- Equal types are of the same kind. -/
theorem any_isKind (h : SameTypes ts us) (kind : Kind) :
    (ts.any fun t => t.isKind kind) = us.any fun u => u.isKind kind := by
  have passes {vs ws : List Tree} (h : SameTypes vs ws)
      (found : ∃ v ∈ vs, v.isKind kind = true) : ∃ w ∈ ws, w.isKind kind = true := by
    obtain ⟨v, hv, k⟩ := found
    obtain ⟨w, hw, same⟩ := h.exists_equiv hv
    exact ⟨w, hw, (isKind_eq_of_equiv same kind).symm.trans k⟩
  rw [Bool.eq_iff_iff, List.any_eq_true, List.any_eq_true]
  exact ⟨passes h, passes h.symm⟩

theorem map (h : SameTypes ts us) {f : Tree → Tree}
    (respects : ∀ t u : Tree, t.equiv u = true → (f t).equiv (f u) = true) :
    SameTypes (ts.map f) (us.map f) := by
  obtain ⟨moved, order, pairs⟩ := iff_partners.1 h
  refine iff_partners.2 ⟨moved.map f, order.map f, ?_⟩
  rw [List.forall₂_map_left_iff, List.forall₂_map_right_iff]
  refine pairs.imp fun t u same => ?_
  exact (equiv_iff_reordering _ _).1 (respects t u ((equiv_iff_reordering _ _).2 same))

theorem filter (h : SameTypes ts us) {p : Tree → Bool}
    (respects : ∀ t ∈ ts, ∀ u, t.equiv u = true → p t = p u) :
    SameTypes (ts.filter p) (us.filter p) := by
  obtain ⟨moved, order, pairs⟩ := iff_partners.1 h
  have inside : List.Forall₂ (fun t u => t ∈ ts ∧ Reordering t u) moved us :=
    (List.forall₂_and_left _ _).2 ⟨fun t ht => order.mem_iff.2 ht, pairs⟩
  have kept : List.Forall₂ (fun t u => t ∈ ts ∧ Reordering t u) (moved.filter p) (us.filter p) := by
    refine List.rel_filter (fun t u ⟨ht, same⟩ => ?_) inside
    exact iff_of_eq (congrArg (· = true) (respects t ht u ((equiv_iff_reordering _ _).2 same)))
  exact iff_partners.2 ⟨moved.filter p, order.filter p, kept.imp fun _ _ h => h.2⟩

end SameTypes

/-- Unordered nodes are equal when they have the same head and the same types below. -/
theorem equiv_node_iff {head : Head} (free : head.tag.unordered = true) {ts us : List Tree} :
    (node head ts).equiv (node head us) = true ↔ SameTypes ts us := by
  rw [equiv_iff_reordering, Reordering.node_iff, if_pos free, Reordering.matching_iff]
  exact and_iff_right rfl

theorem sameTypes_children {s t : Tree} (same : s.equiv t = true)
    (free : s.tag.unordered = true) : SameTypes s.children t.children := by
  have heads := head_eq_of_equiv same
  rw [← node_head_children s, ← node_head_children t, ← heads, equiv_node_iff free] at same
  exact same

theorem SameTypes.ofAlternatives {ts us : List Tree} (h : SameTypes ts us) :
    (ofAlternatives ts).equiv (ofAlternatives us) = true := by
  have count := h.length_eq
  match ts, us with
  | [], [] => exact equiv_refl _
  | [t], [u] =>
    obtain ⟨v, hv, same⟩ := h.exists_equiv (List.mem_singleton.2 rfl)
    rwa [List.mem_singleton.1 hv] at same
  | t :: t' :: ts, u :: u' :: us => exact (equiv_node_iff rfl).2 h
  | [], _ :: _ | [_], _ :: _ :: _ | [_], [] | _ :: _ :: _, [] | _ :: _ :: _, [_] => simp at count

section Unions

/-- Merging keeps one of each class, so the result depends on the classes alone. -/
theorem sameTypes_merged {ts us : List Tree} (left : ∀ t ∈ ts, ∃ u ∈ us, t.equiv u = true)
    (right : ∀ u ∈ us, ∃ t ∈ ts, u.equiv t = true) : SameTypes (merged ts) (merged us) := by
  have nodup (vs : List Tree) : ((merged vs).map Reordering.classOf).Nodup := by
    rw [List.Nodup, List.pairwise_map]
    refine (distinct_merged vs).imp fun {a b} different same => ?_
    rw [equiv_iff_classOf.2 same] at different
    cases different
  have within {vs ws : List Tree} (partners : ∀ v ∈ vs, ∃ w ∈ ws, v.equiv w = true)
      {c : Quotient Reordering.setoid} (hc : c ∈ (merged vs).map Reordering.classOf) :
      c ∈ (merged ws).map Reordering.classOf := by
    obtain ⟨v, hv, rfl⟩ := List.mem_map.1 hc
    obtain ⟨w, hw, same⟩ := partners v (mem_of_mem_merged hv)
    obtain ⟨kept, hk, same'⟩ := exists_equiv_mem_merged hw
    exact List.mem_map.2 ⟨kept, hk, equiv_iff_classOf.1 (equiv_trans same' (equiv_symm same))⟩
  exact (List.perm_ext_iff_of_nodup (nodup ts) (nodup us)).2 fun c => ⟨within left, within right⟩

variable {s t : Tree}

/-- Equal types have equal normal forms, or none. -/
theorem normalized_agree (same : s.equiv t = true) :
    Agree (fun u v => u.equiv v = true) s.normalized t.normalized := by
  have kept := sameTypes_merged (fun a => exists_equiv_of_mem_alternatives same)
    (fun b => exists_equiv_of_mem_alternatives (equiv_symm same))
  rw [normalized, normalized, distinctAlternatives_eq, distinctAlternatives_eq, kept.length_eq]
  split
  · refine .ok ?_
    rw [kept.any_isKind .unknown]
    split
    · exact equiv_refl _
    · exact kept.ofAlternatives
  · exact .error

/-- Equal types are left with equal alternatives when the same are excluded. -/
theorem Normal.exclude_equiv (hs : s.Normal) (same : s.equiv t = true) (u : Tree) :
    (s.exclude u).equiv (t.exclude u) = true := by
  have kinds := isKind_eq_of_equiv same
  rw [Tree.exclude, Tree.exclude, ← kinds, ← kinds]
  split
  · next union =>
    have below := sameTypes_children same (unordered_of_isKind union)
    refine SameTypes.ofAlternatives (below.filter fun a ha b equal => ?_)
    have normal := (hs.alternatives union).normal a ha
    rw [normal.regular.assignable_congr_source (.of_equiv equal)]
  · rw [hs.regular.assignable_congr_source (.of_equiv same)]
    split
    · exact equiv_refl _
    · exact same

end Unions

section Members

variable {s t : Tree} (hs : s.Normal) (same : s.equiv t = true)

omit hs in
include same in
theorem requireObject_agree :
    Agree (fun _ _ => s.isKind .object = true) s.requireObject t.requireObject := by
  rw [requireObject, requireObject, ← isKind_eq_of_equiv same]
  split
  · next object => exact .ok object
  · exact .error

/-- Equal members have equal types below them. -/
theorem IsMember.first_equiv {m n : Tree} (hm : m.IsMember) (same : m.equiv n = true) :
    m.first.equiv n.first = true := by
  have positional : m.tag.unordered = false := unordered_of_isKind (isKind_iff.2 hm.tag)
  obtain ⟨type, value, equal⟩ := exists_equiv_of_first? same positional (first?_eq_some hm.below)
  rwa [first.eq_def n, value]

/-- A node with other modifiers is equal to an equal node with these modifiers. -/
theorem withModifiers_equiv {m n : Tree} (same : m.equiv n = true) (modifiers : Modifiers) :
    (m.withModifiers modifiers).equiv (n.withModifiers modifiers) = true := by
  have heads := head_eq_of_equiv same
  rw [← node_head_children m, ← node_head_children n, ← heads, equiv_iff_reordering,
    Reordering.node_iff] at same
  rw [withModifiers, withModifiers, ← heads, equiv_iff_reordering, Reordering.node_iff]
  exact ⟨rfl, same.2⟩

include hs same

/-- Equal types have equal members under a key, or none. -/
theorem Normal.member_agree (operation : Operation) (key : Text) :
    Agree (fun m n => m.IsMember ∧ m ∈ s.children ∧ n ∈ t.children ∧ m.equiv n = true)
      (s.member operation key) (t.member operation key) := by
  refine (requireObject_agree same).bind fun _ _ object => ?_
  have members := hs.members object
  have keys := (perm_names_of_equiv same).nodup_iff.1 members.keys
  cases found : s.find? key with
  | none =>
      rw [find?_eq_none_of_equiv same found]
      exact .error
  | some m =>
      obtain ⟨n, hn, partner⟩ := exists_equiv_of_find? same keys found
      have inside := mem_of_find? found
      rw [hn]
      exact .ok ⟨members.shaped m inside, inside, mem_of_find? hn, partner⟩

theorem Normal.memberModifiers_agree (key : Text) :
    Agree (· = ·) (s.memberModifiers key) (t.memberModifiers key) :=
  (hs.member_agree same _ key).map fun _ _ ⟨_, _, _, partner⟩ => modifiers_eq_of_equiv partner

theorem Normal.declaredType_agree (key : Text) :
    Agree (fun u v => u.equiv v = true) (s.declaredType key) (t.declaredType key) :=
  (hs.member_agree same _ key).map fun _ _ ⟨member, _, _, partner⟩ => member.first_equiv partner

theorem Normal.slice_agree (key : Text) :
    Agree (fun u v => u.equiv v = true) (s.slice key) (t.slice key) :=
  (hs.member_agree same _ key).bind fun _ _ ⟨_, _, _, partner⟩ =>
    .ok ((equiv_node_iff rfl).2 (.singleton partner))

omit hs in
theorem mutableProjection_agree :
    Agree (fun u v => u.equiv v = true) s.mutableProjection t.mutableProjection := by
  refine (requireObject_agree same).bind fun _ _ object => .ok ?_
  have free : s.head.tag.unordered = true := unordered_of_isKind object
  rw [mapModifiers, mapModifiers, ← head_eq_of_equiv same, equiv_node_iff free]
  refine (sameTypes_children same free).map fun m n partner => ?_
  rw [← modifiers_eq_of_equiv partner]
  exact withModifiers_equiv partner _

/-- Equal types have the same keys, in some order. -/
theorem Normal.keys_agree : Agree (fun a b => a.keys.Perm b.keys) s.keys t.keys := by
  refine (requireObject_agree same).bind fun _ _ object => ?_
  have order := perm_names_of_equiv same
  have members := hs.members object
  have bounded := hs.length_names_le object
  obtain ⟨a, ha, left⟩ : ∃ a, KeySet.ofList (s.names.map Name.text) = .ok a ∧ a.keys = s.names :=
    KeySet.exists_ofList members.keys bounded
  obtain ⟨b, hb, right⟩ : ∃ b, KeySet.ofList (t.names.map Name.text) = .ok b ∧ b.keys = t.names :=
    KeySet.exists_ofList (order.nodup_iff.1 members.keys) (order.length_eq ▸ bounded)
  rw [ha, hb]
  refine .ok ?_
  rw [left, right]
  exact order

end Members

section Sizes

theorem sizeAll_le_of_sublist {ts us : List Tree} (h : ts.Sublist us) :
    sizeAll ts ≤ sizeAll us := by
  induction h with
  | slnil => exact Nat.le_refl _
  | cons u _ ih =>
      rw [sizeAll]
      omega
  | cons_cons u _ ih =>
      rw [sizeAll, sizeAll]
      omega

theorem sizeAll_append (ts us : List Tree) : sizeAll (ts ++ us) = sizeAll ts + sizeAll us := by
  induction ts with
  | nil => simp [sizeAll]
  | cons t ts ih =>
      rw [List.cons_append, sizeAll, sizeAll, ih]
      omega

/-- Opening unions takes nodes away. -/
theorem sizeAll_alternatives_le (t : Tree) :
    sizeAll t.alternatives + (if t.isKind .union then 1 else 0) ≤ t.size := by
  induction t using nodeInduction with
  | node head children ih =>
      have opened : sizeAll (children.flatMap alternatives) ≤ sizeAll children := by
        induction children with
        | nil => exact Nat.le_refl _
        | cons c cs ihs =>
            have first := ih c List.mem_cons_self
            have rest := ihs fun d hd => ih d (List.mem_cons_of_mem _ hd)
            rw [List.flatMap_cons, sizeAll_append, sizeAll]
            omega
      rw [alternatives_eq, size_eq]
      split
      · rw [children_node]
        omega
      · split
        · simp [sizeAll]
        · simp [sizeAll, size_eq]

theorem size_ofAlternatives_le (ts : List Tree) : (ofAlternatives ts).size ≤ sizeAll ts + 1 := by
  match ts with
  | [] => exact Nat.le_refl _
  | [t] => simp [ofAlternatives, sizeAll]
  | t :: u :: rest => exact Nat.le_of_eq (size_eq _)

theorem sublist_merged (ts : List Tree) : (merged ts).Sublist ts := by
  suffices general : ∀ found, (ts.foldl merge found).Sublist (found ++ ts) from general []
  induction ts with
  | nil => simp
  | cons t ts ih =>
      intro found
      rw [List.foldl_cons, List.append_cons]
      refine (ih (merge found t)).trans (List.Sublist.append_right ?_ ts)
      rw [merge]
      split
      · exact List.sublist_append_left _ _
      · exact List.Sublist.refl _

theorem size_normalized_le {t u : Tree} (h : t.normalized = .ok u) : u.size ≤ t.size := by
  obtain ⟨found, hf, h⟩ := bind_eq_ok h
  rw [distinctAlternatives_eq] at hf
  split at hf
  · cases hf
    cases h
    split
    · exact size_pos t
    cases union : t.isKind .union with
    | true =>
        have opened := sizeAll_alternatives_le t
        have kept := sizeAll_le_of_sublist (sublist_merged t.alternatives)
        have := size_ofAlternatives_le (merged t.alternatives)
        rw [if_pos union] at opened
        omega
    | false =>
        rw [alternatives_eq, union]
        cases t.isKind .never with
        | true => exact size_pos t
        | false => exact Nat.le_refl _
  · cases hf

theorem size_exclude_le (t u : Tree) : (t.exclude u).size ≤ t.size := by
  rw [exclude]
  split
  · have kept := sizeAll_le_of_sublist
      (List.filter_sublist (p := fun a => !a.assignable u) (l := t.children))
    have := size_ofAlternatives_le (t.children.filter fun a => !a.assignable u)
    rw [size_eq t]
    omega
  · split
    · exact size_pos t
    · exact Nat.le_refl _

theorem size_first_le (t : Tree) : t.first.size ≤ t.size := by
  rw [first]
  cases h : t.first? with
  | none => exact size_pos t
  | some c => exact (size_lt_of_first? h).le

theorem size_declaredType_le {t u : Tree} {key : Text} (h : t.declaredType key = .ok u) :
    u.size ≤ t.size := by
  obtain ⟨m, hm, rfl⟩ := map_eq_ok h
  exact (size_first_le m).trans (size_lt_of_mem (mem_of_member hm).2).le

/-- The object and the member are two nodes more than the declared type has. -/
theorem Normal.size_declaredType {t u : Tree} {key : Text} (hn : t.Normal)
    (h : t.declaredType key = .ok u) : u.size + 2 ≤ t.size := by
  obtain ⟨m, hm, rfl⟩ := map_eq_ok h
  obtain ⟨object, inside⟩ := mem_of_member hm
  have := size_lt_of_mem inside
  have := size_lt_of_mem (first_mem ((hn.members object).shaped m inside).below)
  omega

theorem size_slice_le {t u : Tree} {key : Text} (h : t.slice key = .ok u) : u.size ≤ t.size := by
  obtain ⟨m, hm, h⟩ := bind_eq_ok h
  cases h
  have := size_le_sizeAll (mem_of_member hm).2
  rw [size_eq t, ofMembers, size_eq]
  simp only [children_node, sizeAll]
  omega

theorem sizeAll_mapModifiers (ts : List Tree) (f : Tree → Modifiers) :
    sizeAll (ts.map fun m => m.withModifiers (f m)) = sizeAll ts := by
  induction ts with
  | nil => rfl
  | cons t ts ih =>
      have root : (t.withModifiers (f t)).size = t.size := by
        rw [size_eq, size_eq t, withModifiers, children_node]
      rw [List.map_cons, sizeAll, sizeAll, ih, root]

theorem size_mapModifiers (t : Tree) (f : Tree → Modifiers) : (t.mapModifiers f).size = t.size := by
  rw [mapModifiers, size_eq, children_node, sizeAll_mapModifiers, ← size_eq]

theorem size_mutableProjection {t u : Tree} (h : t.mutableProjection = .ok u) :
    u.size = t.size := by
  obtain ⟨-, -, h⟩ := bind_eq_ok h
  cases h
  exact size_mapModifiers t _

end Sizes

end StructuralTypes.Tree
