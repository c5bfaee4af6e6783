import StructuralTypes.Proofs.KeyRows
import StructuralTypes.Proofs.UnionAlgebra

/-!
# Equality by look-up

Equality matches children one to one, each with the first free partner. Where no two children are
equal, it is enough that each child of the one type has an equal child in the other and conversely.
Alternatives of a union are distinct because it is normalized, members of an object because their
keys are. So two objects are equal exactly when they have the same keys and every look-up of a key
gives the same modifiers and equal types.
-/

namespace StructuralTypes

namespace Tree

/-- Trees with different names are not equal. -/
theorem distinct_of_names {ts : List Tree} (names : (ts.map name).Nodup) : Distinct ts := by
  rw [List.Nodup, List.pairwise_map] at names
  exact names.imp fun different => Bool.eq_false_iff.2 fun same =>
    different (name_eq_of_equiv same)

/-- Where no two types are equal, those that occur decide. -/
theorem sameTypes_iff_sameSet {ts us : List Tree} (left : Distinct ts) (right : Distinct us) :
    SameTypes ts us ↔ SameSet ts us := by
  constructor
  · exact fun same => ⟨fun t ht => same.exists_equiv ht, fun u hu => same.symm.exists_equiv hu⟩
  · intro same
    have kept := sameTypes_merged same.left same.right
    rwa [merged_of_distinct left, merged_of_distinct right] at kept

/-- Two nodes of one head without equal children, if order does not matter, are equal when they have
the same children. -/
theorem equiv_iff_sameSet {s t : Tree} (heads : s.head = t.head) (free : s.tag.unordered = true)
    (left : Distinct s.children) (right : Distinct t.children) :
    s.equiv t = true ↔ SameSet s.children t.children := by
  rw [← sameTypes_iff_sameSet left right, ← equiv_node_iff free, node_head_children]
  have other := node_head_children t
  rw [← heads] at other
  rw [other]

/-- Members are equal when they agree in key, modifiers and type. -/
theorem IsMember.equiv_iff {m n : Tree} (hm : m.IsMember) (hn : n.IsMember) :
    m.equiv n = true ↔
      m.name = n.name ∧ m.modifiers = n.modifiers ∧ m.first.equiv n.first = true := by
  constructor
  · exact fun same => ⟨name_eq_of_equiv same, modifiers_eq_of_equiv same, hm.first_equiv same⟩
  · rintro ⟨named, marked, type⟩
    have heads : m.head = n.head :=
      calc m.head = ⟨m.tag, m.name, m.modifiers⟩ := rfl
        _ = ⟨n.tag, n.name, n.modifiers⟩ := by rw [hm.tag, hn.tag, named, marked]
        _ = n.head := rfl
    have positional : ¬ n.head.tag.unordered = true :=
      Bool.eq_false_iff.1 (unordered_of_isKind (isKind_iff.2 hn.tag))
    rw [← node_head_children m, ← node_head_children n, heads, equiv_iff_reordering,
      Reordering.node_iff, if_neg positional, hm.type, hn.type]
    exact ⟨rfl, .cons ((equiv_iff_reordering _ _).1 type) .nil⟩

section Normal

variable {s t : Tree} (hs : s.Normal) (ht : t.Normal)

include hs ht

/-- Unions are equal when each alternative of the one is equal to one of the other. -/
theorem Normal.union_equiv_iff (source : s.isKind .union = true) (target : t.isKind .union = true) :
    s.equiv t = true ↔ SameSet s.children t.children := by
  have heads : s.head = t.head := (hs.head_eq source rfl).trans (ht.head_eq target rfl).symm
  exact equiv_iff_sameSet heads (unordered_of_isKind source) (hs.alternatives source).distinct
    (ht.alternatives target).distinct

/-- Objects are equal when they have the same names, and under each the same modifiers and equal
types. -/
theorem Normal.object_equiv_iff (source : s.isKind .object = true)
    (target : t.isKind .object = true) :
    s.equiv t = true ↔ (∀ k, k ∈ s.names ↔ k ∈ t.names) ∧
      ∀ m ∈ s.children, ∃ n, t.find? m.name.text = some n ∧ m.modifiers = n.modifiers ∧
        m.first.equiv n.first = true := by
  have left := hs.members source
  have right := ht.members target
  have heads : s.head = t.head := (hs.head_eq source rfl).trans (ht.head_eq target rfl).symm
  constructor
  · intro same
    refine ⟨fun k => (perm_names_of_equiv same).mem_iff, fun m hm => ?_⟩
    obtain ⟨n, found, partner⟩ := exists_equiv_of_find? same right.keys (hs.find?_name source hm)
    exact ⟨n, found, modifiers_eq_of_equiv partner, (left.shaped m hm).first_equiv partner⟩
  · rintro ⟨names, each⟩
    have partner : ∀ m ∈ s.children, ∃ n ∈ t.children, m.name = n.name ∧ m.equiv n = true := by
      intro m hm
      obtain ⟨n, found, marked, type⟩ := each m hm
      obtain ⟨hn, named⟩ := (find?_eq_some_iff right.keys).1 found
      have key : m.name = n.name := Name.ext named.symm
      have equal := ((left.shaped m hm).equiv_iff (right.shaped n hn)).2 ⟨key, marked, type⟩
      exact ⟨n, hn, key, equal⟩
    rw [equiv_iff_sameSet heads (unordered_of_isKind source) (distinct_of_names left.keys)
      (distinct_of_names right.keys)]
    constructor
    · intro m hm
      obtain ⟨n, hn, -, equal⟩ := partner m hm
      exact ⟨n, hn, equal⟩
    · intro n hn
      -- The member of the same name has a partner, and that can only be this one.
      obtain ⟨m, hm, named⟩ := List.mem_map.1 ((names n.name).2 (List.mem_map_of_mem hn))
      obtain ⟨n', hn', key, equal⟩ := partner m hm
      obtain rfl := List.inj_on_of_nodup_map right.keys hn' hn (key.symm.trans named)
      exact ⟨m, hm, equiv_symm equal⟩

end Normal

end Tree

namespace Descriptor

variable {m n : Nat} {a : Descriptor m} {b : Descriptor n}

/-- Looking a key up in two shapes gives the same modifiers and equal types. -/
def AgreeAt (a : Descriptor m) (b : Descriptor n) (key : Text) : Prop :=
  ∃ modifiers x y, a.tree.memberModifiers key = .ok modifiers ∧
    b.tree.memberModifiers key = .ok modifiers ∧ a.declaredType key = .ok x ∧
    b.declaredType key = .ok y ∧ x.tree.equiv y.tree = true

/-- Shapes agree where members are found that have the same modifiers and equal types. -/
theorem Normal.agreeAt_iff (ha : a.Normal) (hb : b.Normal) (source : a.tree.isKind .object = true)
    {member : Tree} {key : Text} (found : a.tree.find? key = some member) :
    AgreeAt a b key ↔ b.tree.isKind .object = true ∧ ∃ other, b.tree.find? key = some other ∧
      member.modifiers = other.modifiers ∧ member.first.equiv other.first = true := by
  obtain ⟨x, type, -, known⟩ := ha.exists_declaredType source found
  have marks := Tree.memberModifiers_of_find? source found
  constructor
  · rintro ⟨flags, x', y, marks', marked, type', typed, equal⟩
    cases marks.symm.trans marks'
    cases type.symm.trans type'
    obtain ⟨target, other, found', same⟩ := Tree.find?_of_memberModifiers marked
    obtain ⟨y', typed', -, known'⟩ := hb.exists_declaredType target found'
    cases typed.symm.trans typed'
    exact ⟨target, other, found', same.symm, by rwa [← known, ← known']⟩
  · rintro ⟨target, other, found', same, equal⟩
    obtain ⟨y, typed, -, known'⟩ := hb.exists_declaredType target found'
    refine ⟨_, x, y, marks, ?_, type, typed, by rwa [known, known']⟩
    rw [Tree.memberModifiers_of_find? target found', same]

/-- Two objects, at any capacities, are equal exactly when they have the same keys, in any order,
and agree under each. Two unions are equal exactly when each alternative of the one is equal to one
of the other. -/
theorem equality_is_extensional :
    (∀ {m n : Nat} (a : Descriptor m) (b : Descriptor n), a.Reachable → b.Reachable →
      a.tree.isKind .object = true → b.tree.isKind .object = true →
      ∃ keys keys', a.tree.keys = .ok keys ∧ b.tree.keys = .ok keys' ∧
        (a.tree.equiv b.tree = true ↔
          keys.same keys' = true ∧ ∀ k ∈ keys.keys, AgreeAt a b k.text)) ∧
    ∀ {m n : Nat} (a : Descriptor m) (b : Descriptor n), a.Reachable → b.Reachable →
      a.tree.isKind .union = true → b.tree.isKind .union = true →
      (a.tree.equiv b.tree = true ↔
        (∀ x ∈ a.tree.children, ∃ y ∈ b.tree.children, x.equiv y = true) ∧
          ∀ y ∈ b.tree.children, ∃ x ∈ a.tree.children, y.equiv x = true) := by
  refine ⟨fun a b ha hb source target => ?objects, fun a b ha hb source target => ?unions⟩
  case objects =>
    obtain ⟨keys, known, listed⟩ := ha.normal.type.exists_keys source
    obtain ⟨keys', known', listed'⟩ := hb.normal.type.exists_keys target
    refine ⟨keys, keys', known, known', ?_⟩
    rw [ha.normal.type.object_equiv_iff hb.normal.type source target, KeySet.same_iff,
      KeySet.members_eq_iff, listed, listed']
    refine and_congr_right fun _ => ?_
    rw [Tree.names, List.forall_mem_map]
    refine forall_congr' fun member => forall_congr' fun hm => ?_
    have found := ha.normal.type.find?_name source hm
    rw [ha.normal.agreeAt_iff hb.normal source found, and_iff_right target]
  case unions =>
    rw [ha.normal.type.union_equiv_iff hb.normal.type source target]
    exact ⟨fun same => ⟨same.left, same.right⟩, fun both => ⟨both.1, both.2⟩⟩

/-- Two shapes with the same members, and two unions with the same alternatives, in other orders and
at other capacities. -/
theorem equality_is_extensional_swapped :
    ∃ built : (Descriptor 5 × Descriptor 6) × Descriptor 3 × Descriptor 4, (do
      let a ← Member.make (.ofString "a") (← ofKind 5 .number) .none
      let b ← Member.make (.ofString "b") (← ofKind 5 .string) ⟨true, true, 0⟩
      let b' ← Member.make (.ofString "b") (← ofKind 6 .string) ⟨true, true, 0⟩
      let a' ← Member.make (.ofString "a") (← ofKind 6 .number) .none
      return ((← object 5 [a, b], ← object 6 [b', a']),
        ← union [← ofKind 3 .number, ← ofKind 3 .string],
        ← union [← ofKind 4 .string, ← ofKind 4 .number])) = .ok built ∧
      let ((d, e), u, v) := built
      (∃ keys keys', d.tree.keys = .ok keys ∧ e.tree.keys = .ok keys' ∧
        keys.same keys' = true ∧ ∀ k ∈ keys.keys, AgreeAt d e k.text) ∧
      (∀ x ∈ u.tree.children, ∃ y ∈ v.tree.children, x.equiv y = true) ∧
        ∀ y ∈ v.tree.children, ∃ x ∈ u.tree.children, y.equiv x = true := by
  obtain ⟨objects, unions⟩ := equality_is_extensional
  refine exists_ok_of_test (fun ((d, e), u, v) =>
    d.tree.isKind .object = true ∧ e.tree.isKind .object = true ∧ d.tree.equiv e.tree = true ∧
      u.tree.isKind .union = true ∧ v.tree.isKind .union = true ∧ u.tree.equiv v.tree = true)
    (by decide +kernel) ?_
  rintro ⟨⟨d, e⟩, u, v⟩ made known
  obtain ⟨object, object', same, union, union', same'⟩ := of_decide_eq_true known
  obtain ⟨hd, he, hu, hv⟩ : d.Reachable ∧ e.Reachable ∧ u.Reachable ∧ v.Reachable := by
    refine Gives.holds (P := fun ((d, e), u, v) => d.Reachable ∧ e.Reachable ∧ u.Reachable ∧
      v.Reachable) made (.member (.kind rfl) fun a ha => ?_)
    refine .member (.kind rfl) fun b hb => .member (.kind rfl) fun b' hb' => ?_
    refine .member (.kind rfl) fun a' ha' => .bind (.object (by simp [ha, hb])) fun d hd => ?_
    refine .bind (.object (by simp [ha', hb'])) fun e he => ?_
    refine .either (.kind rfl) (.kind rfl) fun u hu => ?_
    exact .either (.kind rfl) (.kind rfl) fun v hv => .pure ⟨hd, he, hu, hv⟩
  obtain ⟨keys, keys', listed, listed', agree⟩ := objects d e hd he object object'
  obtain ⟨order, members⟩ := agree.1 same
  exact ⟨⟨keys, keys', listed, listed', order, members⟩, (unions u v hu hv union union').1 same'⟩

end Descriptor

end StructuralTypes
