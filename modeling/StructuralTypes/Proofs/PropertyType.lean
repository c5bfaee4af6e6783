import StructuralTypes.Proofs.KeySelection
import StructuralTypes.Proofs.RevisedShape
import StructuralTypes.Proofs.ShapeAnswers
import StructuralTypes.Proofs.UnionJoin

/-!
# Types of reading a member

Reading an optional member gives a union of the declared type and `undefined`. The union has one
alternative more than the declared type, unless `undefined` was one before or `unknown` absorbs it,
and so it has one too many just for a union of 16 others. Taking `undefined` away again leaves what
the declared type has without it.
-/

namespace StructuralTypes

namespace Tree

/-- The type or `undefined`, before the union is normalized. -/
def orUndefined (t : Tree) : Tree := node (.ofKind .union) [t, ofKind .undefined]

/-- The type is a union without room for `undefined` as another alternative. -/
structure Crowded (t : Tree) : Prop where
  union : t.isKind .union = true
  full : t.children.length = 16
  defined : ∀ a ∈ t.children, a.isKind .undefined = false

instance (t : Tree) : Decidable t.Crowded :=
  decidable_of_iff (t.isKind .union = true ∧ t.children.length = 16 ∧
    ∀ a ∈ t.children, a.isKind .undefined = false)
    ⟨fun h => ⟨h.1, h.2.1, h.2.2⟩, fun h => ⟨h.union, h.full, h.defined⟩⟩

theorem alternatives_orUndefined (t : Tree) :
    t.orUndefined.alternatives = t.alternatives ++ [ofKind .undefined] := by
  rw [orUndefined, alternatives_union, List.flatMap_cons, List.flatMap_singleton]
  rfl

section Merging

theorem foldl_merge_of_distinct (found ts : List Tree) (h : Distinct (found ++ ts)) :
    ts.foldl merge found = found ++ ts := by
  induction ts generalizing found with
  | nil => exact (List.append_nil found).symm
  | cons t ts ih =>
      have fresh : ∀ a ∈ found, a.equiv t = false := fun a ha =>
        (List.pairwise_append.1 h).2.2 a ha t List.mem_cons_self
      have step : merge found t = found ++ [t] := by
        rw [merge, if_neg]
        simpa using fresh
      rw [List.append_cons] at h ⊢
      rw [List.foldl_cons, step]
      exact ih _ h

/-- Distinct trees are all kept. -/
theorem merged_of_distinct {ts : List Tree} (h : Distinct ts) : merged ts = ts :=
  foldl_merge_of_distinct [] ts h

end Merging

namespace Normal

variable {t u : Tree} (h : t.Normal)

include h

/-- A normal type of a primitive kind is a single node. -/
theorem eq_ofKind {kind : Kind} (primitive : kind.isPrimitive = true)
    (k : t.isKind kind = true) : t = ofKind kind := by
  have below := h.normalChildren k
  have leaf : t.children = [] := by
    cases kind <;> first | exact below | cases primitive
  have unnamed : kind.isLiteral = false := by
    cases kind <;> first | rfl | cases primitive
  rw [← node_head_children t, h.head_eq k unnamed, leaf, ofKind]

theorem equiv_ofKind {kind : Kind} (primitive : kind.isPrimitive = true) :
    t.equiv (ofKind kind) = t.isKind kind := by
  rw [Bool.eq_iff_iff]
  constructor
  · intro same
    rw [isKind_eq_of_equiv same]
    exact isKind_iff.2 rfl
  · intro k
    rw [h.eq_ofKind primitive k]
    exact equiv_refl _

theorem distinct_alternatives : Distinct t.alternatives := by
  cases union : t.isKind .union with
  | true =>
      rw [h.alternatives_of_union union]
      exact (h.alternatives union).distinct
  | false =>
      rw [alternatives_eq, union]
      cases t.isKind .never
      · exact List.pairwise_singleton _ _
      · exact .nil

/-- Several alternatives are those of a union. -/
theorem length_alternatives_le : t.alternatives.length ≤ 16 := by
  cases union : t.isKind .union with
  | true =>
      rw [h.alternatives_of_union union]
      exact (h.alternatives union).bounded
  | false =>
      rw [alternatives_eq, union]
      cases t.isKind .never <;> simp

/-- Excluding keeps some alternatives, in order. -/
theorem exclude_eq_filter (u : Tree) :
    t.exclude u = ofAlternatives (t.alternatives.filter fun a => !a.assignable u) := by
  rw [Tree.exclude]
  cases union : t.isKind .union with
  | true => rw [if_pos rfl, h.alternatives_of_union union]
  | false =>
      rw [alternatives_eq, union]
      cases t.isKind .never with
      | true => rfl
      | false => cases result : t.assignable u <;> simp [result]

theorem distinctAlternatives_orUndefined :
    t.orUndefined.distinctAlternatives = addAlternative t.alternatives (ofKind .undefined) := by
  have own : t.alternatives.foldlM addAlternative [] = .ok t.alternatives := by
    rw [← addAlternatives_eq, ← distinctAlternatives, distinctAlternatives_eq,
      merged_of_distinct h.distinct_alternatives, if_pos h.length_alternatives_le]
  rw [distinctAlternatives, addAlternatives_eq, alternatives_orUndefined, List.foldlM_append, own]
  change [ofKind .undefined].foldlM addAlternative t.alternatives = _
  simp only [List.foldlM_cons, List.foldlM_nil, bind_pure]

theorem any_equiv_undefined_iff :
    t.alternatives.any (·.equiv (ofKind .undefined)) = true ↔
      ∃ a ∈ t.alternatives, a.isKind .undefined = true := by
  rw [List.any_eq_true]
  refine exists_congr fun a => and_congr_right fun ha => ?_
  rw [(h.of_mem_alternatives ha).equiv_ofKind rfl]

theorem crowded_iff :
    t.Crowded ↔ 16 ≤ t.alternatives.length ∧ ∀ a ∈ t.alternatives, a.isKind .undefined = false := by
  constructor
  · rintro ⟨union, full, defined⟩
    rw [h.alternatives_of_union union]
    exact ⟨full.ge, defined⟩
  · rintro ⟨full, defined⟩
    cases union : t.isKind .union with
    | true =>
        rw [h.alternatives_of_union union] at full defined
        exact ⟨union, (h.alternatives union).bounded.antisymm full, defined⟩
    | false =>
        rw [alternatives_eq, union] at full
        cases never : t.isKind .never <;> simp [never] at full

/-- Adding `undefined` fails only for want of room among the alternatives. -/
theorem normalized_orUndefined_eq_error_iff {fault : Fault} :
    t.orUndefined.normalized = .error fault ↔ t.Crowded ∧ fault = .tooManyAlternatives := by
  rw [normalized, h.distinctAlternatives_orUndefined, h.crowded_iff, addAlternative]
  split
  · next present =>
    obtain ⟨a, ha, undefined⟩ := h.any_equiv_undefined_iff.1 present
    constructor
    · intro error
      cases error
    · intro crowded
      rw [crowded.1.2 a ha] at undefined
      cases undefined
  · next absent =>
    have defined : ∀ a ∈ t.alternatives, a.isKind .undefined = false := fun a ha =>
      Bool.eq_false_iff.2 fun undefined => absent (h.any_equiv_undefined_iff.2 ⟨a, ha, undefined⟩)
    split
    · next room =>
      constructor
      · intro error
        cases error
      · exact fun crowded => absurd room (Nat.not_lt.2 crowded.1.1)
    · next full =>
      constructor
      · intro error
        exact ⟨⟨Nat.not_lt.1 full, defined⟩, (Except.error.inj error).symm⟩
      · rintro ⟨-, rfl⟩
        rfl

/-- Without `undefined`, the type or `undefined` is as the type. -/
theorem nonUndefined_of_orUndefined (made : t.orUndefined.normalized = .ok u) :
    u.nonUndefined = t.nonUndefined := by
  have normal : u.Normal :=
    normal_normalized (normal_of_mem_alternatives_union
      (List.forall_mem_cons.2 ⟨h, List.forall_mem_singleton.2 (.primitive rfl)⟩)) made
  rcases alternatives_of_normalized made with ⟨known, a, ha, absorbing⟩ | ⟨-, kept⟩
  · rw [alternatives_orUndefined] at ha
    rcases List.mem_append.1 ha with ha | ha
    · have top := h.isKind_unknown_of_mem ha absorbing
      rw [h.eq_ofKind rfl top, normal.eq_ofKind rfl known]
    · rw [List.mem_singleton.1 ha] at absorbing
      cases absorbing
  · have taken : (ofKind .undefined).assignable (ofKind .undefined) = true :=
      (primitive rfl).assignable_of_equiv (equiv_refl _)
    have step : u.alternatives = merge t.alternatives (ofKind .undefined) := by
      rw [kept, alternatives_orUndefined, merged, List.foldl_append, ← merged,
        merged_of_distinct h.distinct_alternatives]
      rfl
    rw [nonUndefined, nonUndefined, normal.exclude_eq_filter, h.exclude_eq_filter, step, merge]
    split
    · rfl
    · rw [List.filter_append, List.filter_cons_of_neg (by simp [taken]), List.filter_nil,
        List.append_nil]

end Normal

/-- What reading a member gives depends on whether it is optional. -/
theorem propertyType_of_find? {t m : Tree} {key : Text} (object : t.isKind .object = true)
    (found : t.find? key = some m) :
    t.propertyType key =
      if m.modifiers.optional then m.first.orUndefined.normalized else .ok m.first := by
  rw [propertyType, declaredType_of_find? object found, memberModifiers_of_find? object found]
  rfl

end Tree

namespace Descriptor

variable {cap : Nat} {d : Descriptor cap}

theorem Stores.eq_error_iff {x : Except Fault (Descriptor cap)} {y : Except Fault Tree}
    (h : Stores x y) {fault : Fault} : x = .error fault ↔ y = .error fault := by
  obtain ⟨rfl, -⟩ := h
  cases x with
  | error e => exact ⟨congrArg _, fun same => congrArg _ (Except.error.inj same)⟩
  | ok d => exact ⟨nofun, nofun⟩

/-- Reading the member gives a type. -/
def Readable (d : Descriptor cap) (key : Text) : Prop := ∃ u, d.propertyType key = .ok u

instance (d : Descriptor cap) (key : Text) : Decidable (d.Readable key) :=
  match read : d.propertyType key with
  | .ok u => isTrue ⟨u, read⟩
  | .error _ => isFalse fun ⟨_, given⟩ => nomatch read.symm.trans given

/-- Reading the member may give `undefined` besides 16 other alternatives. -/
def Overfull (d : Descriptor cap) (key : Text) : Prop :=
  ∃ modifiers type, d.tree.memberModifiers key = .ok modifiers ∧ d.declaredType key = .ok type ∧
    modifiers.optional = true ∧ type.tree.Crowded

instance (d : Descriptor cap) (key : Text) : Decidable (d.Overfull key) :=
  match modifiers : d.tree.memberModifiers key, type : d.declaredType key with
  | .ok m, .ok t => decidable_of_iff (m.optional = true ∧ t.tree.Crowded)
      ⟨fun h => ⟨m, t, modifiers, type, h⟩, by
        rintro ⟨_, _, same, same', overfull⟩
        cases modifiers.symm.trans same
        cases type.symm.trans same'
        exact overfull⟩
  | .error _, _ => isFalse fun ⟨_, _, same, _⟩ => nomatch modifiers.symm.trans same
  | _, .error _ => isFalse fun ⟨_, _, _, same, _⟩ => nomatch type.symm.trans same

theorem Normal.overfull_iff (h : d.Normal) (object : d.tree.isKind .object = true) {m : Tree}
    {key : Text} (found : d.tree.find? key = some m) :
    d.Overfull key ↔ m.modifiers.optional = true ∧ m.first.Crowded := by
  obtain ⟨type, declared, -, known⟩ := h.exists_declaredType object found
  rw [Overfull, Tree.memberModifiers_of_find? object found, declared, ← known]
  constructor
  · rintro ⟨_, _, same, same', overfull⟩
    cases same
    cases same'
    exact overfull
  · exact fun overfull => ⟨_, _, rfl, rfl, overfull⟩

/-- Reading a member fails only if it is overfull. -/
theorem Normal.propertyType_eq_error_iff (h : d.Normal) (object : d.tree.isKind .object = true)
    {m : Tree} {key : Text} (found : d.tree.find? key = some m) (fault : Fault) :
    d.propertyType key = .error fault ↔ d.Overfull key ∧ fault = .tooManyAlternatives := by
  have type := (h.type.members object).normal m (Tree.mem_of_find? found)
  rw [(h.propertyType_stores key).eq_error_iff, Tree.propertyType_of_find? object found,
    h.overfull_iff object found]
  split
  · next optional => rw [type.normalized_orUndefined_eq_error_iff, and_iff_right optional]
  · next required => exact ⟨nofun, fun overfull => absurd overfull.1.1 required⟩

/-- A member that is not overfull is function-valued when its declared type is callable apart from
`undefined`. -/
theorem Normal.isFunctionValued_of_find? (h : d.Normal) (object : d.tree.isKind .object = true)
    {m : Tree} {key : Text} (found : d.tree.find? key = some m) (roomy : ¬ d.Overfull key) :
    d.isFunctionValued key = .ok m.first.nonUndefined.isCallable := by
  have type := (h.type.members object).normal m (Tree.mem_of_find? found)
  rw [h.overfull_iff object found] at roomy
  rw [h.isFunctionValued_eq, Tree.isFunctionValued, Tree.propertyType_of_find? object found]
  split
  · next optional =>
    cases result : m.first.orUndefined.normalized with
    | error fault =>
        have crowded := (type.normalized_orUndefined_eq_error_iff.1 result).1
        exact absurd ⟨optional, crowded⟩ roomy
    | ok u =>
        rw [← type.nonUndefined_of_orUndefined result]
        rfl
  · rfl

/-- Reading a member fails exactly for an optional one whose type is a union of 16 alternatives
without `undefined`, and then for the number of alternatives, never for want of room. If there is
none, then the keys of function-valued members and those of the others partition the keys. -/
theorem reading_fails_iff_overfull (h : d.Reachable) (object : d.tree.isKind .object = true) :
    (∀ key, d.tree.hasKey key = .ok true →
      (∀ fault, d.propertyType key = .error fault ↔
        d.Overfull key ∧ fault = .tooManyAlternatives) ∧
      (∀ {n : Nat} (target : Descriptor n) fault, d.matchesCategory key target = .error fault ↔
        d.Overfull key ∧ fault = .tooManyAlternatives) ∧
      (∀ fault, d.isFunctionValued key = .error fault ↔
        d.Overfull key ∧ fault = .tooManyAlternatives) ∧
      (¬ d.Overfull key → ∃ declared certain, d.declaredType key = .ok declared ∧
        declared.nonUndefined = .ok certain ∧
        d.isFunctionValued key = .ok certain.tree.isCallable)) ∧
    ((∀ k ∈ d.tree.names, ¬ d.Overfull k.text) → ∃ all functions others, d.tree.keys = .ok all ∧
      d.functionKeys = .ok functions ∧ d.nonFunctionKeys = .ok others ∧
      all.partitions functions others = .ok true) ∧
    Fault.tooManyAlternatives.message =
      .ofString "shape error: a union supports at most 16 alternatives" := by
  have normal := h.normal
  refine ⟨fun key known => ?_, fun roomy => ?_, rfl⟩
  · obtain ⟨-, m, found⟩ := Tree.hasKey_iff.1 known
    have read := normal.propertyType_eq_error_iff object found
    refine ⟨read, fun target fault => ?_, fun fault => ?_, fun roomy => ?_⟩
    · rw [matchesCategory, bind_pure_eq_error_iff, read]
    · rw [normal.isFunctionValued_eq, Tree.isFunctionValued, bind_pure_eq_error_iff,
        ← (normal.propertyType_stores key).eq_error_iff, read]
    · have stored := normal.declaredType_stores key
      rw [Tree.declaredType_of_find? object found] at stored
      obtain ⟨declared, made, normal', known⟩ := stored.exists_of_ok
      obtain ⟨certain, made', -, known'⟩ := normal'.nonUndefined_stores.exists_of_ok
      refine ⟨declared, certain, made, made', ?_⟩
      rw [normal.isFunctionValued_of_find? object found roomy, known', known]
  · obtain ⟨all, functions, others, known, hf, ho, -, -, -, split⟩ :=
      normal.exists_partition object (p := d.isFunctionValued)
        (r := fun k => return !(← d.isFunctionValued k))
        (q := fun m => m.first.nonUndefined.isCallable) fun m hm => by
          have found := normal.type.find?_name object hm
          rw [normal.isFunctionValued_of_find? object found (roomy _ (List.mem_map_of_mem hm))]
          exact ⟨rfl, rfl⟩
    exact ⟨all, functions, others, known, hf, ho, split⟩

/-- An optional member with 16 alternatives beside an optional method, stored without room to spare.
Its slice has the method alone. -/
theorem reading_fails_at_sixteen_letters :
    ∃ d : Descriptor 22, (do
      let letters := (Text.ofString "abcdefghijklmnop").map fun c => [c]
      let wide ← union (← letters.mapM (stringLiteral 22))
      let first ← Member.make (.ofString "a") wide ⟨false, true, 0⟩
      let second ← Member.make (.ofString "b") (← fn (← ofKind 22 .void) []) ⟨false, true, 0⟩
      object 22 [first, second]) = .ok d ∧
      d.propertyType (.ofString "a") = .error .tooManyAlternatives ∧
      d.isFunctionValued (.ofString "a") = .error .tooManyAlternatives ∧
      (∃ answer, d.isFunctionValued (.ofString "b") = .ok answer) ∧
      ∃ e, d.slice (.ofString "b") = .ok e ∧ ∃ all functions others, e.tree.keys = .ok all ∧
        e.functionKeys = .ok functions ∧ e.nonFunctionKeys = .ok others ∧
        all.partitions functions others = .ok true := by
  let roomy {n : Nat} (e : Descriptor n) : Bool :=
    e.tree.isKind .object ∧ ∀ k ∈ e.tree.names, ¬ e.Overfull k.text
  refine exists_ok_of_test (fun d =>
    d.tree.hasKey (.ofString "a") = .ok true ∧ d.tree.hasKey (.ofString "b") = .ok true ∧
      d.Overfull (.ofString "a") ∧ ¬ d.Overfull (.ofString "b") ∧
      (d.slice (.ofString "b")).map roomy = .ok true) (by decide +kernel) ?_
  intro d made known
  obtain ⟨hasA, hasB, overfull, fits, method⟩ := of_decide_eq_true known
  have reachable : d.Reachable := by
    refine Gives.holds made (.bind .stringLiterals fun types ht => ?_)
    refine .bind (.union ht) fun wide hw => .bind (.make hw) fun a ha => ?_
    refine .bind (.kind rfl) fun void hv => .member (.fn hv (by simp)) fun b hb => ?_
    exact .object (by simp [ha, hb])
  have reading := (reading_fails_iff_overfull reachable (Tree.hasKey_iff.1 hasA).1).1
  obtain ⟨property, -, valued, -⟩ := reading _ hasA
  obtain ⟨-, -, -, answer⟩ := reading _ hasB
  obtain ⟨-, certain, -, -, answered⟩ := answer fits
  refine ⟨(property _).2 ⟨overfull, rfl⟩, (valued _).2 ⟨overfull, rfl⟩, ⟨_, answered⟩, ?_⟩
  refine exists_ok_of_test roomy method fun e sliced roomy => ?_
  obtain ⟨object, roomy⟩ := of_decide_eq_true roomy
  exact (reading_fails_iff_overfull (.slice reachable sliced) object).2.1 roomy

end Descriptor

end StructuralTypes
