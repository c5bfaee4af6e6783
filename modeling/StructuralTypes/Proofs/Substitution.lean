import StructuralTypes.Proofs.AlikeTypes

/-!
# Alike types replace one another

Assignability asks for members by key, for alternatives in any order, and not for read-only marks.
So a type may be replaced by an alike one on either side, whatever stands on the other side. Where
the two sides are compared by equality, the replaced type is alike to the other one, and alike types
are assignable.
-/

namespace StructuralTypes.Tree

/-- Opposite `b`, the second type does whatever the first one does. -/
structure Replaces (a a' b : Tree) : Prop where
  source : a.assignable b = true → a'.assignable b = true
  target : b.assignable a = true → b.assignable a' = true

/-- Alike types replace one another in all pairs with fewer nodes. -/
def ReplacedBelow (a b : Tree) : Prop :=
  ∀ u u' v : Tree, u.size + v.size < a.size + b.size → u.Regular → Alike u u' → Replaces u u' v

theorem ReplacedBelow.mono {a b u v : Tree} (h : ReplacedBelow a b)
    (fewer : u.size + v.size ≤ a.size + b.size) : ReplacedBelow u v :=
  fun x x' y smaller => h x x' y (Nat.lt_of_lt_of_le smaller fewer)

section Replacing

variable {a a' b : Tree} (ha : a.Regular) (below : ReplacedBelow a b)

include ha below

theorem replaces_of_mem_children (single : a.isKind .object = false) {c c' d : Tree}
    (hc : c ∈ a.children) (partner : Alike c c') (hd : d ∈ b.children) : Replaces c c' d := by
  have := size_lt_of_mem hc
  have := size_lt_of_mem hd
  exact below c c' d (by omega) (ha.of_mem_children single c hc) partner

/-- Alike members ask for the same. -/
theorem ByKey.target (k : a.isKind .object = true) {m m' : Tree} (hm : m ∈ a.children)
    (partner : Alike m m') (h : ByKey b m) : ByKey b m' := by
  have key := congrArg Name.text partner.name_eq
  have slots {found expected type : Tree} (present : b.find? m.name.text = some found)
      (slot : m.first? = some expected) (value : found.first? = some type) :
      ∃ expected', m'.first? = some expected' ∧
        ∀ v : Tree, v.size ≤ type.size → Replaces expected expected' v := by
    obtain ⟨member, first, regular⟩ := ha.slot k hm
    obtain rfl := Option.some.inj (first.symm.trans slot)
    have positional : m.tag.unordered = false := unordered_of_isKind member
    obtain ⟨expected', slot', h⟩ := partner.exists_first? positional first
    have := size_lt_of_mem hm
    have := size_lt_of_first? slot
    have := size_lt_of_mem (mem_of_find? present)
    have := size_lt_of_first? value
    exact ⟨expected', slot', fun v small => below _ _ v (by omega) regular h⟩
  cases h with
  | absent missing optional => exact .absent (key ▸ missing) (partner.optional_eq ▸ optional)
  | @required found type expected present slot value wanted given assigns =>
      obtain ⟨expected', slot', swapped⟩ := slots present slot value
      exact .required (key ▸ present) slot' value (partner.optional_eq ▸ wanted) given
        ((swapped type (Nat.le_refl _)).target assigns)
  | @optional found type expected present slot value optional each =>
      obtain ⟨expected', slot', swapped⟩ := slots present slot value
      refine .optional (key ▸ present) slot' value (partner.optional_eq ▸ optional) ?_
      exact fun x hx known => (swapped x (size_le_of_mem_alternatives hx)).target (each x hx known)

variable (alike : Alike a a')

include alike

theorem signatureAssignable_source {kind : Kind} (signature : kind.isSignature = true)
    (k : a.isKind kind = true) (h : a.signatureAssignable b = true) :
    a'.signatureAssignable b = true := by
  have object : a.isKind .object = false := isKind_eq_false k (by rintro rfl; cases signature)
  have positional := unordered_of_isSignature signature k
  have positional' := unordered_of_isSignature signature (alike.isKind_eq kind ▸ k)
  rw [signatureAssignable_iff] at h ⊢
  obtain ⟨fewer, parameters, r, hr, result⟩ := h
  refine ⟨alike.length_children ▸ fewer, ?_, r, hr, ?_⟩
  · intro i p q' hp hq'
    obtain ⟨q, hq, partner⟩ := alike.symm.exists_at positional' hq'
    have swapped := replaces_of_mem_children ha below object (List.mem_of_getElem? hq)
      partner.symm (List.mem_of_getElem? hp)
    exact swapped.target (parameters i p q hp hq)
  · rcases result with ⟨fn, void⟩ | ⟨q, hq, h⟩
    · exact .inl ⟨alike.isKind_eq _ ▸ fn, void⟩
    · obtain ⟨q', hq', partner⟩ := alike.exists_first? positional hq
      have swapped := replaces_of_mem_children ha below object (mem_of_first? hq) partner
        (mem_of_first? hr)
      exact .inr ⟨q', hq', swapped.source h⟩

theorem signatureAssignable_target {kind : Kind} (signature : kind.isSignature = true)
    (k : a.isKind kind = true) (h : b.signatureAssignable a = true) :
    b.signatureAssignable a' = true := by
  have object : a.isKind .object = false := isKind_eq_false k (by rintro rfl; cases signature)
  have positional := unordered_of_isSignature signature k
  have positional' := unordered_of_isSignature signature (alike.isKind_eq kind ▸ k)
  rw [signatureAssignable_iff] at h ⊢
  obtain ⟨fewer, parameters, r, hr, result⟩ := h
  obtain ⟨r', hr', partner⟩ := alike.exists_first? positional hr
  refine ⟨alike.length_children ▸ fewer, ?_, r', hr', ?_⟩
  · intro i p' q hp' hq
    obtain ⟨p, hp, partner⟩ := alike.symm.exists_at positional' hp'
    have swapped := replaces_of_mem_children ha below object (List.mem_of_getElem? hp)
      partner.symm (List.mem_of_getElem? hq)
    exact swapped.source (parameters i p q hp hq)
  · rcases result with ⟨fn, void⟩ | ⟨q, hq, h⟩
    · exact .inl ⟨fn, partner.isKind_eq _ ▸ void⟩
    · have swapped := replaces_of_mem_children ha below object (mem_of_first? hr) partner
        (mem_of_first? hq)
      exact .inr ⟨q, hq, swapped.target h⟩

theorem ByKey.source (k : a.isKind .object = true) {m : Tree} (hm : m ∈ b.children)
    (h : ByKey a m) : ByKey a' m := by
  have := size_lt_of_mem hm
  -- What `a` has under a key, `a'` has as well, with a type that replaces the other one.
  have slots {found expected type : Tree} (present : a.find? m.name.text = some found)
      (slot : m.first? = some expected) (value : found.first? = some type) :
      ∃ found' type', a'.find? m.name.text = some found' ∧ found'.first? = some type' ∧
        found.modifiers.optional = found'.modifiers.optional ∧ type.Regular ∧ Alike type type' ∧
        type.size + expected.size < a.size + b.size := by
    have inside := mem_of_find? present
    obtain ⟨member, first, regular⟩ := ha.slot k inside
    obtain rfl := Option.some.inj (first.symm.trans value)
    have keys := (ha.of_alike alike).keys (alike.isKind_eq _ ▸ k)
    obtain ⟨found', present', partner⟩ := alike.exists_of_find? keys present
    have positional : found.tag.unordered = false := unordered_of_isKind member
    obtain ⟨type', value', h⟩ := partner.exists_first? positional first
    have := size_lt_of_mem inside
    have := size_lt_of_first? value
    have := size_lt_of_first? slot
    exact ⟨found', type', present', value', partner.optional_eq, regular, h, by omega⟩
  cases h with
  | absent missing optional => exact .absent (alike.find?_eq_none missing) optional
  | required present slot value wanted given assigns =>
      obtain ⟨found', type', present', value', optional, regular, h, fewer⟩ :=
        slots present slot value
      exact .required present' slot value' wanted (optional ▸ given)
        ((below _ _ _ fewer regular h).source assigns)
  | @optional found type expected present slot value optional each =>
      obtain ⟨found', type', present', value', -, regular, h, fewer⟩ := slots present slot value
      refine .optional present' slot value' optional fun x' hx' known => ?_
      obtain ⟨x, hx, partner⟩ := h.symm.exists_alternative hx'
      have := size_le_of_mem_alternatives hx
      have swapped := below x x' expected (by omega) (regular.of_mem_alternatives hx).1 partner.symm
      exact swapped.source (each x hx (partner.isKind_eq _ ▸ known))

theorem ByKind.source (h : ByKind a b) : ByKind a' b := by
  have kinds := alike.isKind_eq
  cases h with
  | void source target => exact .void (kinds _ ▸ source) target
  | callable signature source target => exact .callable signature (kinds _ ▸ source) target
  | signature signature source target accepts =>
      exact .signature signature (kinds _ ▸ source) target
        (signatureAssignable_source ha below alike signature source accepts)
  | array source target element =>
      obtain ⟨expected, slot, given, value, h⟩ := element
      obtain ⟨given', value', partner⟩ :=
        alike.exists_first? (unordered_of_isKind source) value
      have swapped := replaces_of_mem_children ha below (isKind_eq_false source (by decide))
        (mem_of_first? value) partner (mem_of_first? slot)
      exact .array (kinds _ ▸ source) target ⟨expected, slot, given', value', swapped.source h⟩
  | object source target members =>
      refine .object (kinds _ ▸ source) target fun m hm => memberAssignable_iff.2 ?_
      exact ByKey.source ha below alike source hm (memberAssignable_iff.1 (members m hm))
  | shapeless source target empty =>
      exact .shapeless (fun kind nullish => kinds kind ▸ source kind nullish) target empty

theorem ByKind.target (h : ByKind b a) : ByKind b a' := by
  have kinds := alike.isKind_eq
  cases h with
  | void source target => exact .void source (kinds _ ▸ target)
  | callable signature source target => exact .callable signature source (kinds _ ▸ target)
  | signature signature source target accepts =>
      exact .signature signature source (kinds _ ▸ target)
        (signatureAssignable_target ha below alike signature target accepts)
  | array source target element =>
      obtain ⟨expected, slot, given, value, h⟩ := element
      obtain ⟨expected', slot', partner⟩ :=
        alike.exists_first? (unordered_of_isKind target) slot
      have swapped := replaces_of_mem_children ha below (isKind_eq_false target (by decide))
        (mem_of_first? slot) partner (mem_of_first? value)
      exact .array source (kinds _ ▸ target) ⟨expected', slot', given, value, swapped.target h⟩
  | object source target members =>
      refine .object source (kinds _ ▸ target) fun m' hm' => memberAssignable_iff.2 ?_
      obtain ⟨m, hm, partner⟩ := alike.symm.exists_of_mem hm'
      exact ByKey.target ha below target hm partner.symm (memberAssignable_iff.1 (members m hm))
  | shapeless source target empty =>
      refine .shapeless source (kinds _ ▸ target) (List.length_eq_zero_iff.1 ?_)
      rw [← alike.length_children, empty, List.length_nil]

/-- Two types that are no unions are compared by equality, by widening and by their kinds. -/
theorem assignable_source_of_single (single : a.IsAlternative) (whole : b.isKind .union = false)
    (h : a.assignable b = true) : a'.assignable b = true := by
  cases known : b.isKind .unknown with
  | true => exact assignable_of_unknown known
  | false =>
      rcases (single.assignable_iff whole known).1 h with equal | rest
      · have opposite := Alike.of_equiv equal
        exact (ha.of_alike alike).assignable_of_alike (ha.of_alike opposite)
          (alike.symm.trans opposite)
      rw [(single.of_kinds alike.isKind_eq).assignable_iff whole known]
      rcases rest with widened | rule
      · exact .inr (.inl (alike.tag_eq ▸ widened))
      · exact .inr (.inr (ByKind.source ha below alike rule))

theorem assignable_target_of_single (single : b.IsAlternative) (whole : a.isKind .union = false)
    (h : b.assignable a = true) : b.assignable a' = true := by
  have kinds := alike.isKind_eq
  cases known : a.isKind .unknown with
  | true => exact assignable_of_unknown (kinds _ ▸ known)
  | false =>
      rcases (single.assignable_iff whole known).1 h with equal | rest
      · have opposite := (Alike.of_equiv equal).symm
        exact (ha.of_alike opposite).assignable_of_alike (ha.of_alike alike)
          (opposite.symm.trans alike)
      rw [single.assignable_iff (kinds _ ▸ whole) (kinds _ ▸ known)]
      rcases rest with widened | rule
      · exact .inr (.inl (alike.tag_eq ▸ widened))
      · exact .inr (.inr (ByKind.target ha below alike rule))

end Replacing

variable {a a' : Tree}

/-- Opposite any type at all, a regular type may be replaced by an alike one. -/
theorem Regular.replaces (ha : a.Regular) (alike : Alike a a') (b : Tree) : Replaces a a' b := by
  induction nodes : a.size + b.size using Nat.strongRecOn generalizing a a' b with
  | _ n ih =>
      subst nodes
      have below : ReplacedBelow a b := fun u u' v fewer hu h => ih _ fewer hu h v rfl
      constructor
      · intro h
        rcases (assignable_iff_alternatives a b).1 h with target | each
        · exact assignable_of_unknown target
        refine (assignable_iff_alternatives a' b).2 (.inr fun x' hx' => ?_)
        obtain ⟨x, hx, partner⟩ := alike.symm.exists_alternative hx'
        obtain ⟨single, y, hy, accepts⟩ := each x hx
        have fewer := Nat.add_le_add (size_le_of_mem_alternatives hx)
          (size_le_of_mem_alternatives hy)
        refine ⟨single.of_kinds partner.symm.isKind_eq, y, hy, ?_⟩
        exact assignable_source_of_single (ha.of_mem_alternatives hx).1 (below.mono fewer)
          partner.symm single (isKind_of_mem_alternatives hy).1 accepts
      · intro h
        rcases (assignable_iff_alternatives b a).1 h with target | each
        · exact assignable_of_unknown (alike.isKind_eq _ ▸ target)
        refine (assignable_iff_alternatives b a').2 (.inr fun x hx => ?_)
        obtain ⟨single, y, hy, accepts⟩ := each x hx
        obtain ⟨y', hy', partner⟩ := alike.exists_alternative hy
        have fewer := Nat.add_le_add (size_le_of_mem_alternatives hy)
          (size_le_of_mem_alternatives hx)
        refine ⟨single, y', hy', ?_⟩
        exact assignable_target_of_single (ha.of_mem_alternatives hy).1 (below.mono fewer)
          partner single (isKind_of_mem_alternatives hy).1 accepts

theorem Regular.assignable_congr_source (ha : a.Regular) (alike : Alike a a') (b : Tree) :
    a.assignable b = a'.assignable b :=
  Bool.eq_iff_iff.2
    ⟨(ha.replaces alike b).source, ((ha.of_alike alike).replaces alike.symm b).source⟩

theorem Regular.assignable_congr_target (ha : a.Regular) (alike : Alike a a') (b : Tree) :
    b.assignable a = b.assignable a' :=
  Bool.eq_iff_iff.2
    ⟨(ha.replaces alike b).target, ((ha.of_alike alike).replaces alike.symm b).target⟩

/-- Equal types replace one another. -/
theorem Normal.replaces (ha : a.Normal) (same : a.equiv a' = true) (b : Tree) : Replaces a a' b :=
  ha.regular.replaces (.of_equiv same) b

end StructuralTypes.Tree
