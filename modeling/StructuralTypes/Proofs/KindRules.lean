import StructuralTypes.Proofs.UnionNormalForm

/-!
# What the procedure does with a pair of types

Assignability opens unions, the source before the target, and compares what is left by equality, by
widening and by kinds. The last step matches on two kinds at once; here it is an inductive
predicate with a case for each combination that is accepted, from which other proofs read off what
they need. No normal form is asked of the trees.
-/

namespace StructuralTypes.Tree

variable {s t : Tree}

section Equations

theorem first?_eq_some (below : t.children ≠ []) : t.first? = some t.first := by
  rw [first, first?]
  cases h : t.children with
  | nil => exact absurd h below
  | cons c cs => rfl

theorem first_mem (below : t.children ≠ []) : t.first ∈ t.children :=
  List.mem_of_mem_head? (first?_eq_some below)

theorem assignable_of_never (source : s.isKind .never = true) : s.assignable t = true := by
  rw [assignable_eq, source]
  rfl

theorem assignable_of_unknown (target : t.isKind .unknown = true) : s.assignable t = true := by
  rw [assignable_eq, target, Bool.or_true, if_pos rfl]

theorem size_le_of_mem_alternatives {a : Tree} (h : a ∈ t.alternatives) : a.size ≤ t.size := by
  induction t using nodeInduction with
  | node head children ih =>
      rw [alternatives_eq] at h
      split at h
      · obtain ⟨c, hc, h⟩ := List.mem_flatMap.1 h
        exact (ih c hc h).trans (size_lt_of_mem hc).le
      · split at h
        · cases h
        · rw [List.mem_singleton.1 h]

/-- Every alternative but `undefined` has to be assignable. -/
theorem assignableOrUndefined_iff :
    s.assignableOrUndefined t = true ↔
      ∀ a ∈ s.alternatives, a.isKind .undefined = false → a.assignable t = true := by
  induction s using nodeInduction with
  | node head children ih =>
      rw [assignableOrUndefined_eq, alternatives_eq]
      split
      · simp only [children_node, List.all_eq_true, List.mem_flatMap, forall_exists_index, and_imp]
        constructor
        · intro h a c hc ha
          exact (ih c hc).1 (h c hc) a ha
        · intro h c hc
          exact (ih c hc).2 fun a ha => h a c hc ha
      · split
        · next never =>
          rw [assignable_of_never never, Bool.or_true]
          simp
        · rw [Bool.or_eq_true, List.forall_mem_singleton]
          cases (node head children).isKind .undefined <;> simp

theorem assignable_fromUnion (source : s.isKind .union = true)
    (target : t.isKind .unknown = false) :
    s.assignable t = s.children.all fun a => a.assignable t := by
  rw [assignable_eq, isKind_eq_false source (by decide : Kind.union ≠ .never), target,
    isKind_eq_false source (by decide : Kind.union ≠ .unknown), source]
  rfl

/-- A type that is no union enters a union through one of its alternatives. -/
theorem assignable_intoUnion (single : s.isKind .union = false) (notNever : s.isKind .never = false)
    (notUnknown : s.isKind .unknown = false) (target : t.isKind .union = true) :
    s.assignable t = t.children.any fun a => s.assignable a := by
  rw [assignable_eq, notNever, isKind_eq_false target (by decide : Kind.union ≠ .unknown),
    notUnknown, single, target]
  rfl

/-- The rules for two types that are no unions apply when the source is not `unknown`. -/
theorem assignable_of_single (single : s.isKind .union = false)
    (notUnknown : s.isKind .unknown = false) (target : t.isKind .union = false)
    (h : (s.equiv t || s.tag.widened == t.tag || s.structureAssignable t) = true) :
    s.assignable t = true := by
  rw [assignable_eq, notUnknown, single, target, h]
  simp

/-- Nothing but `unknown` takes a value of which nothing is known. -/
theorem not_assignable_of_unknown (source : s.isKind .unknown = true)
    (target : t.isKind .unknown = false) : s.assignable t = false := by
  rw [assignable_eq, isKind_eq_false source (by decide : Kind.unknown ≠ .never), target, source]
  rfl

end Equations

section Kinds

/-- Parameters are compared position by position, with the sides exchanged, and results by the first
position. A node may lack either. -/
theorem signatureAssignable_iff :
    s.signatureAssignable t = true ↔
      s.children.length ≤ t.children.length ∧
      (∀ i p q, t.children[i + 1]? = some p → s.children[i + 1]? = some q →
        p.assignable q = true) ∧
      ∃ r, t.first? = some r ∧ (s.isKind .fn = true ∧ r.isKind .void = true ∨
        ∃ q, s.first? = some q ∧ q.assignable r = true) := by
  rw [signatureAssignable_eq, Bool.and_eq_true, Bool.and_eq_true, decide_eq_true_eq, and_assoc]
  refine and_congr_right fun _ => and_congr ?_ ?_
  · simp only [List.all_eq_true, List.mem_iff_getElem?, List.getElem?_zip_eq_some,
      List.getElem?_drop, Nat.add_comm 1]
    constructor
    · intro h i p q hp hq
      exact h (p, q) ⟨i, hp, hq⟩
    · rintro h ⟨p, q⟩ ⟨i, hp, hq⟩
      exact h i p q hp hq
  · simp only [Option.any_eq_true, Bool.or_eq_true, Bool.and_eq_true]

/-- The ways in which an object has what a member asks for. -/
inductive ByKey (s m : Tree) : Prop
  | absent (missing : s.find? m.name.text = none) (optional : m.modifiers.optional = true)
  | required {found type expected : Tree} (present : s.find? m.name.text = some found)
      (slot : m.first? = some expected) (value : found.first? = some type)
      (wanted : m.modifiers.optional = false) (given : found.modifiers.optional = false)
      (assigns : type.assignable expected = true)
  | optional {found type expected : Tree} (present : s.find? m.name.text = some found)
      (slot : m.first? = some expected) (value : found.first? = some type)
      (optional : m.modifiers.optional = true)
      (each : ∀ a ∈ type.alternatives, a.isKind .undefined = false →
        a.assignable expected = true)

theorem memberAssignable_iff {m : Tree} : s.memberAssignable m = true ↔ ByKey s m := by
  rw [memberAssignable_eq]
  constructor
  · intro h
    split at h
    · next missing => exact .absent missing h
    · next found present =>
      obtain ⟨expected, slot, h⟩ := (Option.any_eq_true _ _).1 h
      obtain ⟨type, value, h⟩ := (Option.any_eq_true _ _).1 h
      split at h
      · next optional =>
        exact .optional present slot value optional (assignableOrUndefined_iff.1 h)
      · next required =>
        obtain ⟨h, given⟩ := Bool.and_eq_true_iff.1 h
        exact .required present slot value (Bool.eq_false_iff.2 required) (by simpa using given) h
  · intro h
    cases h with
    | absent missing optional => rw [missing, optional]
    | required present slot value wanted given assigns =>
        simp [present, slot, value, wanted, given, assigns]
    | optional present slot value optional each =>
        simp [present, slot, value, optional, assignableOrUndefined_iff.2 each]

/-- The combinations of kinds that the rules accept. -/
inductive ByKind (s t : Tree) : Prop
  | void (source : s.isKind .undefined = true) (target : t.isKind .void = true)
  | callable {kind : Kind} (signature : kind.isSignature = true) (source : s.isKind kind = true)
      (target : t.isKind .function = true)
  | signature {kind : Kind} (signature : kind.isSignature = true) (source : s.isKind kind = true)
      (target : t.isKind kind = true) (accepts : s.signatureAssignable t = true)
  | array (source : s.isKind .array = true) (target : t.isKind .array = true)
      (element : ∃ expected, t.first? = some expected ∧
        ∃ given, s.first? = some given ∧ given.assignable expected = true)
  | object (source : s.isKind .object = true) (target : t.isKind .object = true)
      (members : ∀ m ∈ t.children, s.memberAssignable m = true)
  | shapeless (source : ∀ kind : Kind, kind.isNullish = true → s.isKind kind = false)
      (target : t.isKind .object = true) (empty : t.children = [])

/-- A tree is of one kind at most. -/
theorem isKind_unique {kind other : Kind} (h : t.isKind kind = true)
    (h' : t.isKind other = true) : kind = other :=
  Tag.known.inj ((isKind_iff.1 h).symm.trans (isKind_iff.1 h'))

theorem solid_of_isKind {kind : Kind} (k : t.isKind kind = true) (solid : kind.isNullish = false) :
    ∀ other : Kind, other.isNullish = true → t.isKind other = false := by
  intro other nullish
  refine isKind_eq_false k ?_
  rintro rfl
  rw [solid] at nullish
  cases nullish

theorem ByKind.of_structureAssignable (h : s.structureAssignable t = true) : ByKind s t := by
  rw [structureAssignable_eq] at h
  split at h
  · next source target => exact .void (isKind_iff.2 source) (isKind_iff.2 target)
  · next source target => exact .callable rfl (isKind_iff.2 source) (isKind_iff.2 target)
  · next source target => exact .callable rfl (isKind_iff.2 source) (isKind_iff.2 target)
  · next source target => exact .signature rfl (isKind_iff.2 source) (isKind_iff.2 target) h
  · next source target => exact .signature rfl (isKind_iff.2 source) (isKind_iff.2 target) h
  · next source target =>
    refine .array (isKind_iff.2 source) (isKind_iff.2 target) ?_
    simpa only [Option.any_eq_true] using h
  · next source target =>
    exact .object (isKind_iff.2 source) (isKind_iff.2 target) (List.all_eq_true.1 h)
  · next kind _ source target =>
    obtain ⟨empty, solid⟩ := Bool.and_eq_true_iff.1 h
    rw [Bool.not_eq_true'] at solid
    exact .shapeless (solid_of_isKind (isKind_iff.2 source) solid) (isKind_iff.2 target)
      (List.isEmpty_iff.1 empty)
  · next source target =>
    refine .shapeless ?_ (isKind_iff.2 target) (List.isEmpty_iff.1 h)
    simp [isKind, source]
  · cases h

theorem ByKind.structureAssignable (h : ByKind s t) : s.structureAssignable t = true := by
  rw [structureAssignable_eq]
  cases h with
  | void source target => rw [isKind_iff.1 source, isKind_iff.1 target]
  | @callable kind signature source target =>
      rw [isKind_iff.1 source, isKind_iff.1 target]
      cases kind <;> first | rfl | cases signature
  | @signature kind signature source target accepts =>
      rw [isKind_iff.1 source, isKind_iff.1 target]
      cases kind <;> first | exact accepts | cases signature
  | array source target element =>
      rw [isKind_iff.1 source, isKind_iff.1 target]
      simpa only [Option.any_eq_true] using element
  | object source target members =>
      rw [isKind_iff.1 source, isKind_iff.1 target]
      exact List.all_eq_true.2 members
  | shapeless source target empty =>
      rw [isKind_iff.1 target, empty]
      cases tag : s.tag with
      | other text unnamed => rfl
      | known kind =>
          have solid : kind.isNullish = false := by
            apply Bool.eq_false_iff.2
            intro nullish
            have := source kind nullish
            rw [isKind_iff.2 tag] at this
            cases this
          cases kind <;> first | rfl | cases solid

theorem structureAssignable_iff : s.structureAssignable t = true ↔ ByKind s t :=
  ⟨.of_structureAssignable, ByKind.structureAssignable⟩

namespace ByKind

variable {kind : Kind} (h : ByKind s t)

include h

/-- No rule by kinds has a target of any other kind. -/
theorem target_kind (target : t.isKind kind = true) :
    kind ∈ [.void, .function, .fn, .ctor, .array, .object] := by
  cases h with
  | signature signature _ target' =>
      obtain rfl := isKind_unique target target'
      cases kind <;> first | decide | cases signature
  | void _ target' | callable _ _ target' | array _ target' | object _ target'
  | shapeless _ target' =>
      obtain rfl := isKind_unique target target'
      decide

theorem of_signature (signature : kind.isSignature = true) (target : t.isKind kind = true) :
    s.isKind kind = true ∧ s.signatureAssignable t = true := by
  cases h with
  | signature _ source target' accepts =>
      obtain rfl := isKind_unique target target'
      exact ⟨source, accepts⟩
  | void _ target' | callable _ _ target' | array _ target' | object _ target'
  | shapeless _ target' =>
      obtain rfl := isKind_unique target target'
      cases signature

theorem of_array (target : t.isKind .array = true) :
    s.isKind .array = true ∧ ∃ expected, t.first? = some expected ∧
      ∃ given, s.first? = some given ∧ given.assignable expected = true := by
  cases h with
  | array source _ element => exact ⟨source, element⟩
  | signature signature _ target' =>
      obtain rfl := isKind_unique target target'
      cases signature
  | void _ target' | callable _ _ target' | object _ target' | shapeless _ target' =>
      cases isKind_unique target target'

theorem of_object (target : t.isKind .object = true) :
    (s.isKind .object = true ∧ ∀ m ∈ t.children, s.memberAssignable m = true) ∨
      ((∀ kind : Kind, kind.isNullish = true → s.isKind kind = false) ∧ t.children = []) := by
  cases h with
  | object source _ members => exact .inl ⟨source, members⟩
  | shapeless source _ empty => exact .inr ⟨source, empty⟩
  | signature signature _ target' =>
      obtain rfl := isKind_unique target target'
      cases signature
  | void _ target' | callable _ _ target' | array _ target' => cases isKind_unique target target'

/-- No source of a rule by kinds is nullish if the target is not. -/
theorem source_solid (solid : ∀ kind : Kind, kind.isNullish = true → t.isKind kind = false) :
    ∀ kind : Kind, kind.isNullish = true → s.isKind kind = false := by
  cases h with
  | void _ target =>
      rw [solid .void rfl] at target
      cases target
  | @callable kind signature source | @signature kind signature source =>
      exact solid_of_isKind source (by cases kind <;> first | rfl | cases signature)
  | array source | object source => exact solid_of_isKind source rfl
  | shapeless source => exact source

/-- A source of any other kind is accepted by the shape without members alone. -/
theorem shapeless_of_source (source : s.isKind kind = true)
    (other : kind ∉ [.undefined, .fn, .ctor, .array, .object]) :
    kind.isNullish = false ∧ t.isKind .object = true ∧ t.children = [] := by
  cases h with
  | shapeless solid target empty =>
      refine ⟨Bool.eq_false_iff.2 fun nullish => ?_, target, empty⟩
      rw [solid kind nullish] at source
      cases source
  | callable signature source' | signature signature source' =>
      obtain rfl := isKind_unique source source'
      cases kind <;> first | exact absurd (by decide) other | cases signature
  | void source' | array source' | object source' =>
      obtain rfl := isKind_unique source source'
      simp at other

end ByKind

/-- What widens to a type of some kind is a literal of that kind. -/
theorem exists_literal {primitive : Kind} (target : t.isKind primitive = true)
    (h : s.tag.widened = t.tag) :
    ∃ kind : Kind, s.isKind kind = true ∧ kind.widened = some primitive := by
  rw [isKind_iff.1 target] at h
  cases source : s.tag with
  | other text unnamed =>
      rw [source] at h
      cases h
  | known kind =>
      rw [source, Tag.widened] at h
      cases widened : kind.widened with
      | none =>
          rw [widened] at h
          cases h
      | some wide =>
          rw [widened] at h
          cases h
          exact ⟨kind, isKind_iff.2 source, widened⟩

/-- Two types that are no unions are compared as they are. -/
theorem IsAlternative.assignable_iff (hs : s.IsAlternative) (single : t.isKind .union = false)
    (known : t.isKind .unknown = false) :
    s.assignable t = true ↔ s.equiv t = true ∨ s.tag.widened = t.tag ∨ ByKind s t := by
  rw [assignable_eq, hs.notNever, hs.notUnknown, hs.noUnion, single, known]
  simp only [Bool.or_false, Bool.false_eq_true, if_false, Bool.or_eq_true, beq_iff_eq,
    structureAssignable_iff, or_assoc]

end Kinds

end StructuralTypes.Tree
