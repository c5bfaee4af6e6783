import StructuralTypes.Proofs.EqualOperations

/-!
# Equal types answer alike

Equality is a congruence for all predicates: equal types are assignable to the same types, from the
same types and to each other, and equal shapes have the same keys in each category. The types may be
stored at different capacities. No step from a shape to an answer runs out of room, because a
property type together with the union it is made of has fewer nodes than the shape.
-/

namespace StructuralTypes

namespace Tree

variable {a a' b b' : Tree}

/-- Equality does not tell equal types apart. -/
theorem equiv_congr (left : a.equiv a' = true) (right : b.equiv b' = true) :
    a.equiv b = a'.equiv b' := by
  rw [Bool.eq_iff_iff]
  exact ⟨fun h => equiv_trans (equiv_symm left) (equiv_trans h right),
    fun h => equiv_trans left (equiv_trans h (equiv_symm right))⟩

theorem Normal.assignable_congr (ha : a.Normal) (hb : b.Normal) (left : a.equiv a' = true)
    (right : b.equiv b' = true) : a.assignable b = a'.assignable b' := by
  rw [ha.regular.assignable_congr_source (.of_equiv left),
    hb.regular.assignable_congr_target (.of_equiv right)]

theorem Normal.mutuallyAssignable_of_equiv (ha : a.Normal) (ha' : a'.Normal)
    (same : a.equiv a' = true) : a.mutuallyAssignable a' = true := by
  rw [mutuallyAssignable, ha.assignable_of_equiv same,
    ha'.assignable_of_equiv (equiv_symm same), Bool.true_and]

theorem Normal.isCallable_congr (ha : a.Normal) (same : a.equiv a' = true) :
    a.isCallable = a'.isCallable := by
  rw [isCallable, isCallable, isKind_eq_of_equiv same,
    ha.regular.assignable_congr_source (.of_equiv same)]

end Tree

namespace Descriptor

variable {m n : Nat} {d : Descriptor m} {e : Descriptor n}

/-- Equal normal types, each stored at some capacity. -/
structure Twin (d : Descriptor m) (e : Descriptor n) : Prop where
  left : d.Normal
  right : e.Normal
  same : d.tree.equiv e.tree = true

section Storage

/-- What is laid out fits. -/
theorem size_le_of_ofTree {t : Tree} (made : ofTree m t = .ok d) : t.size ≤ m := by
  by_contra full
  rw [(ofTree_total m t).2 (Nat.not_le.1 full)] at made
  cases made

theorem Normal.size_le (h : d.Normal) : d.tree.size ≤ m := size_le_of_ofTree h.laidOut

/-- The declared type of a member leaves room for two nodes more. -/
theorem Normal.room_of_declaredType (h : d.Normal) {key : Text} {declared : Descriptor m}
    (made : d.declaredType key = .ok declared) : declared.tree.size + 2 ≤ m := by
  obtain ⟨t, ht, made⟩ := bind_eq_ok made
  rw [tree_of_ofTree made]
  exact (h.type.size_declaredType ht).trans h.size_le

/-- Trees that fit are laid out. -/
theorem ofTree_agree {t u : Tree} (ht : t.size ≤ m) (hu : u.size ≤ n) :
    Agree (fun (d : Descriptor m) (e : Descriptor n) => d.tree = t ∧ e.tree = u) (ofTree m t)
      (ofTree n u) := by
  obtain ⟨d, hd⟩ := (ofTree_total m t).1 ht
  obtain ⟨e, he⟩ := (ofTree_total n u).1 hu
  rw [hd, he]
  exact .ok ⟨tree_of_ofTree hd, tree_of_ofTree he⟩

theorem ofTree_equiv {t u : Tree} (ht : t.size ≤ m) (hu : u.size ≤ n) (same : t.equiv u = true) :
    Agree (fun (d : Descriptor m) (e : Descriptor n) => d.tree.equiv e.tree = true) (ofTree m t)
      (ofTree n u) := by
  refine (ofTree_agree ht hu).mono fun d e ⟨left, right⟩ => ?_
  rwa [left, right]

/-- A transformation that agrees on the trees agrees on what is stored, as long as its results are
no larger. -/
theorem transform_equiv {f : Tree → Except Fault Tree} (hd : d.tree.size ≤ m)
    (he : e.tree.size ≤ n) (agree : Agree (fun t u => t.equiv u = true) (f d.tree) (f e.tree))
    (shrinks : ∀ t u, f t = .ok u → u.size ≤ t.size) :
    Agree (fun (d' : Descriptor m) (e' : Descriptor n) => d'.tree.equiv e'.tree = true)
      (d.transform f) (e.transform f) :=
  (agree.strengthen (shrinks _) (shrinks _)).bind fun _ _ ⟨same, ht, hu⟩ =>
    ofTree_equiv (ht.trans hd) (hu.trans he) same

theorem twin_of_equiv {x : Except Fault (Descriptor m)} {y : Except Fault (Descriptor n)}
    (h : Agree (fun d e => d.tree.equiv e.tree = true) x y) (left : ∀ d, x = .ok d → d.Normal)
    (right : ∀ e, y = .ok e → e.Normal) : Agree Twin x y :=
  (h.strengthen left right).mono fun _ _ ⟨same, hd, he⟩ => ⟨hd, he, same⟩

end Storage

section Unions

variable {ds : List (Descriptor m)} {es : List (Descriptor n)}

theorem normal_of_twins (pairs : List.Forall₂ Twin ds es) :
    (∀ d ∈ ds, d.Normal) ∧ ∀ e ∈ es, e.Normal := by
  induction pairs with
  | nil => simp
  | cons twin _ ih =>
      exact ⟨List.forall_mem_cons.2 ⟨twin.left, ih.1⟩, List.forall_mem_cons.2 ⟨twin.right, ih.2⟩⟩

theorem sameTypes_of_twins (pairs : List.Forall₂ Twin ds es) :
    Tree.SameTypes (ds.map tree) (es.map tree) := by
  refine Tree.SameTypes.iff_partners.2 ⟨_, .refl _, ?_⟩
  rw [List.forall₂_map_left_iff, List.forall₂_map_right_iff]
  exact pairs.imp fun _ _ twin => (Tree.equiv_iff_reordering _ _).1 twin.same

/-- Unions of equal operands are equal, if the operands fit all together. -/
theorem union_twin (pairs : List.Forall₂ Twin ds es) (hd : Tree.sizeAll (ds.map tree) < m)
    (he : Tree.sizeAll (es.map tree) < n) : Agree Twin (union ds) (union es) := by
  obtain ⟨normalD, normalE⟩ := normal_of_twins pairs
  refine twin_of_equiv ?_ (fun _ => normal_union normalD) (fun _ => normal_union normalE)
  have collected : Agree (fun (d : Descriptor m) (e : Descriptor n) =>
      d.tree = .node (.ofKind .union) (ds.map tree) ∧ e.tree = .node (.ofKind .union) (es.map tree))
      (make (.ofKind .union) ds) (make (.ofKind .union) es) := by
    rw [make, make, ofNode, ofNode, List.length_map, List.length_map, pairs.length_eq]
    split
    · exact .error
    · exact ofTree_agree (by rw [Tree.size_eq]; exact hd) (by rw [Tree.size_eq]; exact he)
  refine collected.bind fun d e stored => ?_
  obtain ⟨treeD, treeE⟩ := stored
  refine transform_equiv ?_ ?_ ?_ fun _ _ => Tree.size_normalized_le
  · rw [treeD, Tree.size_eq]
    exact hd
  · rw [treeE, Tree.size_eq]
    exact he
  · rw [treeD, treeE]
    exact Tree.normalized_agree ((Tree.equiv_node_iff rfl).2 (sameTypes_of_twins pairs))

end Unions

namespace Twin

variable (h : Twin d e) (key : Text)

include h

omit key in
theorem transform {f : Tree → Except Fault Tree}
    (agree : Agree (fun t u => t.equiv u = true) (f d.tree) (f e.tree))
    (shrinks : ∀ t u, f t = .ok u → u.size ≤ t.size) :
    Agree (fun (x : Descriptor m) (y : Descriptor n) => x.tree.equiv y.tree = true)
      (d.transform f) (e.transform f) :=
  transform_equiv h.left.size_le h.right.size_le agree shrinks

theorem declaredType :
    Agree (fun x y => Twin x y ∧ x.tree.size + 2 ≤ m ∧ y.tree.size + 2 ≤ n) (d.declaredType key)
      (e.declaredType key) := by
  have equal := h.transform (h.left.type.declaredType_agree h.same key)
    fun _ _ => Tree.size_declaredType_le
  exact (twin_of_equiv equal (fun _ => normal_declaredType h.left)
    (fun _ => normal_declaredType h.right)).strengthen (fun _ => h.left.room_of_declaredType)
    (fun _ => h.right.room_of_declaredType)

theorem mutableProjection : Agree Twin d.mutableProjection e.mutableProjection :=
  twin_of_equiv (h.transform (Tree.mutableProjection_agree h.same)
    fun _ _ made => (Tree.size_mutableProjection made).le)
    (fun _ => normal_mutableProjection h.left) (fun _ => normal_mutableProjection h.right)

theorem slice : Agree Twin (d.slice key) (e.slice key) :=
  twin_of_equiv (h.transform (h.left.type.slice_agree h.same key) fun _ _ => Tree.size_slice_le)
    (fun _ => normal_slice h.left) (fun _ => normal_slice h.right)

/-- A type of one node fits wherever there is a type. -/
theorem ofKind {kind : Kind} (primitive : kind.isPrimitive = true) :
    Agree (fun x y => Twin x y ∧ x.tree = .ofKind kind ∧ y.tree = .ofKind kind)
      (Descriptor.ofKind m kind) (Descriptor.ofKind n kind) := by
  have room : (Tree.ofKind kind).size ≤ m := (Tree.size_pos d.tree).trans_le h.left.size_le
  have room' : (Tree.ofKind kind).size ≤ n := (Tree.size_pos e.tree).trans_le h.right.size_le
  refine ((ofTree_agree room room').strengthen (fun _ => normal_ofKind primitive)
    (fun _ => normal_ofKind primitive)).mono fun x y ⟨trees, left, right⟩ => ?_
  refine ⟨⟨left, right, ?_⟩, trees⟩
  rw [trees.1, trees.2]
  exact Tree.equiv_refl _

/-- What reading a member gives is equal on equal shapes. -/
theorem propertyType : Agree Twin (d.propertyType key) (e.propertyType key) := by
  refine (h.declaredType key).bind fun x y ⟨twin, hx, hy⟩ => ?_
  refine (h.left.type.memberModifiers_agree h.same key).bind fun modifiers _ same => ?_
  subst same
  split
  · refine (h.ofKind rfl).bind fun u v ⟨undefined, hu, hv⟩ => ?_
    refine union_twin (.cons twin (.cons undefined .nil)) ?_ ?_
    · simp only [List.map_cons, List.map_nil, hu, Tree.sizeAll, Tree.ofKind, Tree.size]
      omega
    · simp only [List.map_cons, List.map_nil, hv, Tree.sizeAll, Tree.ofKind, Tree.size]
      omega
  · exact .ok twin

theorem nonUndefined : Agree Twin d.nonUndefined e.nonUndefined := by
  refine (h.ofKind rfl).bind fun u v ⟨_, hu, hv⟩ => ?_
  refine twin_of_equiv ?_ (fun _ => normal_exclude h.left) (fun _ => normal_exclude h.right)
  rw [exclude, exclude, hu, hv]
  exact ofTree_equiv ((Tree.size_exclude_le _ _).trans h.left.size_le)
    ((Tree.size_exclude_le _ _).trans h.right.size_le) (h.left.type.exclude_equiv h.same _)

/-- Equal shapes agree on which members are writable. -/
theorem isWritable : Agree (· = ·) (d.isWritable key) (e.isWritable key) := by
  refine h.mutableProjection.bind fun p q projection => ?_
  refine (projection.slice key).bind fun x y projected => ?_
  refine (h.slice key).bind fun x' y' sliced => .ok ?_
  exact Tree.equiv_congr sliced.same projected.same

theorem isOptional : Agree (· = ·) (d.isOptional key) (e.isOptional key) := by
  refine (h.slice key).bind fun x y sliced => .ok ?_
  rw [sliced.left.type.regular.assignable_congr_target (.of_equiv sliced.same)]

theorem isFunctionValued : Agree (· = ·) (d.isFunctionValued key) (e.isFunctionValued key) := by
  refine (h.propertyType key).bind fun x y property => ?_
  refine property.nonUndefined.bind fun x' y' certain => .ok ?_
  exact certain.left.type.isCallable_congr certain.same

theorem matchesCategory {k : Nat} (target : Descriptor k) :
    Agree (· = ·) (d.matchesCategory key target) (e.matchesCategory key target) := by
  refine (h.propertyType key).bind fun x y property => .ok ?_
  rw [property.left.type.regular.assignable_congr_source (.of_equiv property.same)]

omit key in
/-- Predicates that agree select the same keys from equal shapes. -/
theorem selectKeys {p q : Text → Except Fault Bool} (each : ∀ key, Agree (· = ·) (p key) (q key)) :
    Agree (fun a b => a.same b = true) (d.selectKeys p) (e.selectKeys q) := by
  refine (h.left.type.keys_agree h.same).bind fun all all' order => ?_
  refine (filterM_agree order fun k => each k.text).bind fun kept kept' picked => ?_
  obtain ⟨order', inside, inside'⟩ := picked
  obtain ⟨a, ha, left⟩ := KeySet.exists_ofList (all.distinct.sublist inside)
    (inside.length_le.trans all.bounded)
  obtain ⟨b, hb, right⟩ := KeySet.exists_ofList (all'.distinct.sublist inside')
    (inside'.length_le.trans all'.bounded)
  rw [ha, hb]
  refine .ok (KeySet.same_of_perm ?_)
  rw [left, right]
  exact order'

end Twin

/-- Two shapes that no predicate and no extraction of keys tells apart, apart from the text of their
faults. -/
structure Indistinguishable (d : Descriptor m) (e : Descriptor n) : Prop where
  writable : ∀ key, Agree (· = ·) (d.isWritable key) (e.isWritable key)
  readonly : ∀ key, Agree (· = ·) (d.isReadonly key) (e.isReadonly key)
  optional : ∀ key, Agree (· = ·) (d.isOptional key) (e.isOptional key)
  required : ∀ key, Agree (· = ·) (d.isRequired key) (e.isRequired key)
  functionValued : ∀ key, Agree (· = ·) (d.isFunctionValued key) (e.isFunctionValued key)
  category : ∀ key {k : Nat} (target : Descriptor k),
    Agree (· = ·) (d.matchesCategory key target) (e.matchesCategory key target)
  keys : Agree (fun a b => a.same b = true) d.tree.keys e.tree.keys
  readonlyKeys : Agree (fun a b => a.same b = true) d.readonlyKeys e.readonlyKeys
  writableKeys : Agree (fun a b => a.same b = true) d.writableKeys e.writableKeys
  optionalKeys : Agree (fun a b => a.same b = true) d.optionalKeys e.optionalKeys
  requiredKeys : Agree (fun a b => a.same b = true) d.requiredKeys e.requiredKeys
  functionKeys : Agree (fun a b => a.same b = true) d.functionKeys e.functionKeys
  nonFunctionKeys : Agree (fun a b => a.same b = true) d.nonFunctionKeys e.nonFunctionKeys

theorem Twin.indistinguishable (h : Twin d e) : Indistinguishable d e where
  writable := h.isWritable
  readonly key := (h.isWritable key).negate
  optional := h.isOptional
  required key := (h.isOptional key).negate
  functionValued := h.isFunctionValued
  category := h.matchesCategory
  keys := (h.left.type.keys_agree h.same).mono fun _ _ => KeySet.same_of_perm
  readonlyKeys := h.selectKeys fun key => (h.isWritable key).negate
  writableKeys := h.selectKeys h.isWritable
  optionalKeys := h.selectKeys h.isOptional
  requiredKeys := h.selectKeys fun key => (h.isOptional key).negate
  functionKeys := h.selectKeys h.isFunctionValued
  nonFunctionKeys := h.selectKeys fun key => (h.isFunctionValued key).negate

/-- Equality is a congruence for every predicate. -/
theorem equality_is_congruence {k l m n : Nat} {a : Descriptor k} {a' : Descriptor l}
    {b : Descriptor m} {b' : Descriptor n} (ha : a.Reachable) (ha' : a'.Reachable)
    (hb : b.Reachable) (left : a.tree.equiv a'.tree = true) (right : b.tree.equiv b'.tree = true) :
    a.tree.assignable b.tree = a'.tree.assignable b'.tree ∧ a.tree.assignable a.tree = true ∧
      a.tree.mutuallyAssignable a'.tree = true ∧ Indistinguishable a a' := by
  have typeA := ha.normal.type
  refine ⟨typeA.assignable_congr hb.normal.type left right,
    typeA.assignable_of_equiv (Tree.equiv_refl _),
    typeA.mutuallyAssignable_of_equiv ha'.normal.type left, ?_⟩
  exact Twin.indistinguishable ⟨ha.normal, ha'.normal, left⟩

/-- A shape and the same shape with its members in the other order, stored without room to spare. -/
theorem equality_is_congruence_swapped :
    ∃ s : Descriptor 8, (do
      let a ← Member.make (.ofString "a") (← ofKind 8 .number) .none
      let b ← Member.make (.ofString "b") (← ofKind 8 .string) ⟨true, true, 0⟩
      object 8 [a, b]) = .ok s ∧
      ∃ t : Descriptor 5, (do
        let a ← Member.make (.ofString "a") (← ofKind 5 .number) .none
        let b ← Member.make (.ofString "b") (← ofKind 5 .string) ⟨true, true, 0⟩
        object 5 [b, a]) = .ok t ∧
        s.tree.mutuallyAssignable t.tree = true ∧ Indistinguishable s t := by
  let shape : Tree := .ofMembers
    [.node ⟨Kind.member, ⟨.ofString "a", by decide⟩, .none⟩ [.ofKind .number],
      .node ⟨Kind.member, ⟨.ofString "b", by decide⟩, ⟨true, true, 0⟩⟩ [.ofKind .string]]
  refine exists_ok_of_test (fun s => s.tree.equiv shape) (by decide +kernel) fun s made known => ?_
  refine exists_ok_of_test (fun t => shape.equiv t.tree) (by decide +kernel)
    fun t made' known' => ?_
  have rs : s.Reachable := Gives.holds made (.pair (.kind rfl) (.kind rfl))
  have rt : t.Reachable := Gives.holds made' <| .member (.kind rfl) fun a ha =>
    .member (.kind rfl) fun b hb => .object (by simp [ha, hb])
  have same : s.tree.equiv t.tree = true := Tree.equiv_trans known known'
  have congruence := equality_is_congruence rs rt rs same (Tree.equiv_refl s.tree)
  exact ⟨congruence.2.2.1, congruence.2.2.2⟩

end Descriptor

end StructuralTypes
