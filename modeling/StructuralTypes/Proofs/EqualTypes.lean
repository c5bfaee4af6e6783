import StructuralTypes.Proofs.AssignableAlternatives

/-!
# Equal types

Equal types have the same head, and the children, alternatives and members of the one have equal
partners in the other. A look-up by key finds partners where the keys are distinct, since it stops
at the first match.
-/

namespace StructuralTypes.Tree

section EqualTrees

variable {s t : Tree}

theorem mem_of_first? {c : Tree} (h : s.first? = some c) : c ∈ s.children :=
  List.mem_of_mem_head? h

theorem head_eq_of_equiv (same : s.equiv t = true) : s.head = t.head := by
  cases (equiv_iff_reordering _ _).1 same <;> rfl

theorem tag_eq_of_equiv (same : s.equiv t = true) : s.tag = t.tag :=
  congrArg Head.tag (head_eq_of_equiv same)

theorem name_eq_of_equiv (same : s.equiv t = true) : s.name = t.name :=
  congrArg Head.name (head_eq_of_equiv same)

theorem modifiers_eq_of_equiv (same : s.equiv t = true) : s.modifiers = t.modifiers :=
  congrArg Head.modifiers (head_eq_of_equiv same)

theorem length_children_of_equiv (same : s.equiv t = true) :
    s.children.length = t.children.length := by
  cases (equiv_iff_reordering _ _).1 same with
  | inPlace _ children => exact children.length_eq
  | rearranged _ order children => exact order.length_eq.trans children.length_eq

/-- Equal types have the same names below the root, in some order. -/
theorem perm_names_of_equiv (same : s.equiv t = true) :
    (s.children.map name).Perm (t.children.map name) := by
  have inPlace {as bs : List Tree} (h : List.Forall₂ Reordering as bs) :
      as.map name = bs.map name := by
    rw [← List.forall₂_eq_eq_eq, List.forall₂_map_left_iff, List.forall₂_map_right_iff]
    exact h.imp fun a b h => name_eq_of_equiv ((equiv_iff_reordering _ _).2 h)
  cases (equiv_iff_reordering _ _).1 same with
  | inPlace _ children => exact .of_eq (inPlace children)
  | rearranged _ order children => exact (order.map name).trans (.of_eq (inPlace children))

/-- Children that do not form a set have their partners at the same positions. -/
theorem exists_equiv_at (same : s.equiv t = true) (positional : s.tag.unordered = false) {i : Nat}
    {c : Tree} (hc : s.children[i]? = some c) :
    ∃ d, t.children[i]? = some d ∧ c.equiv d = true := by
  cases (equiv_iff_reordering _ _).1 same with
  | @inPlace _ as bs _ children =>
      obtain ⟨hi, rfl⟩ := List.getElem?_eq_some_iff.1 hc
      have hj : i < bs.length := children.length_eq ▸ hi
      exact ⟨bs[i], List.getElem?_eq_getElem hj, (equiv_iff_reordering _ _).2 (children.get hi hj)⟩
  | rearranged free => rw [tag_node, free] at positional; cases positional

/-- Whether children form a set is a matter of the kind. -/
theorem unordered_of_isKind {kind : Kind} (k : s.isKind kind = true) :
    s.tag.unordered = kind.unordered := by
  rw [isKind_iff.1 k, Tag.unordered]

theorem unordered_of_isSignature {kind : Kind} (signature : kind.isSignature = true)
    (k : s.isKind kind = true) : s.tag.unordered = false := by
  rw [unordered_of_isKind k]
  cases kind <;> first | rfl | cases signature

theorem exists_equiv_of_first? (same : s.equiv t = true) (positional : s.tag.unordered = false)
    {c : Tree} (hc : s.first? = some c) : ∃ d, t.first? = some d ∧ c.equiv d = true := by
  rw [first?, List.head?_eq_getElem?] at hc ⊢
  exact exists_equiv_at same positional hc

/-- Whether a type may stand beside others in a union is a matter of its kind. -/
theorem IsAlternative.of_kinds (h : s.IsAlternative)
    (kinds : ∀ kind, s.isKind kind = t.isKind kind) : t.IsAlternative :=
  ⟨kinds _ ▸ h.noUnion, kinds _ ▸ h.notNever, kinds _ ▸ h.notUnknown⟩

/-- Alternatives of equal types have equal partners. -/
theorem exists_equiv_of_mem_alternatives (same : s.equiv t = true) {a : Tree}
    (ha : a ∈ s.alternatives) : ∃ b ∈ t.alternatives, a.equiv b = true := by
  induction s using nodeInduction generalizing t with
  | node head children ih =>
      have kinds := isKind_eq_of_equiv same
      rw [alternatives_eq] at ha ⊢
      rw [← kinds, ← kinds]
      split at ha
      · next union =>
        obtain ⟨c, hc, ha⟩ := List.mem_flatMap.1 ha
        obtain ⟨d, hd, partner⟩ := exists_equiv_of_mem same hc
        obtain ⟨b, hb, equal⟩ := ih c hc partner ha
        rw [if_pos union]
        exact ⟨b, List.mem_flatMap.2 ⟨d, hd, hb⟩, equal⟩
      · next single =>
        split at ha
        · cases ha
        · next proper =>
          rw [if_neg single, if_neg proper, List.mem_singleton.1 ha]
          exact ⟨t, List.mem_singleton.2 rfl, same⟩

/-- Where names are distinct, a child is found exactly by its name. -/
theorem find?_eq_some_iff (distinct : (t.children.map name).Nodup) {key : Text} {m : Tree} :
    t.find? key = some m ↔ m ∈ t.children ∧ m.name.text = key := by
  constructor
  · intro h
    exact ⟨mem_of_find? h, by simpa using List.find?_some h⟩
  · rintro ⟨hm, rfl⟩
    have found : (t.find? m.name.text).isSome = true :=
      List.find?_isSome.2 ⟨m, hm, beq_self_eq_true _⟩
    obtain ⟨n, hn⟩ := Option.isSome_iff_exists.1 found
    have named : n.name.text = m.name.text := by simpa using List.find?_some hn
    rw [hn, List.inj_on_of_nodup_map distinct (mem_of_find? hn) hm (Name.ext named)]

/-- Equal types have equal children under a key. -/
theorem exists_equiv_of_find? (same : s.equiv t = true) (distinct : (t.children.map name).Nodup)
    {key : Text} {m : Tree} (found : s.find? key = some m) :
    ∃ n, t.find? key = some n ∧ m.equiv n = true := by
  obtain ⟨n, hn, partner⟩ := exists_equiv_of_mem same (mem_of_find? found)
  refine ⟨n, (find?_eq_some_iff distinct).2 ⟨hn, ?_⟩, partner⟩
  rw [← name_eq_of_equiv partner]
  simpa using List.find?_some found

theorem find?_eq_none_of_equiv (same : s.equiv t = true) {key : Text}
    (absent : s.find? key = none) : t.find? key = none := by
  apply List.find?_eq_none.2
  intro n hn
  obtain ⟨m, hm, partner⟩ := exists_equiv_of_mem (equiv_symm same) hn
  rw [name_eq_of_equiv partner]
  exact List.find?_eq_none.1 absent m hm

end EqualTrees

end StructuralTypes.Tree
