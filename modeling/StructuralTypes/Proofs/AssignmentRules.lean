import StructuralTypes.Proofs.KindRules
import StructuralTypes.Proofs.Reachable

/-!
# Assignability by rules

Assignability is the least relation that is closed under a list of rules, in no order. The decision
procedure tries them in a fixed order and commits to the first that matches. On normal types this
loses no derivation: alternatives are no unions, so a source union may be opened before the target,
and an alternative that equals another one is of its kind.
-/

namespace StructuralTypes

namespace Tree

mutual

/-- A value of the first type may stand where the second is expected. -/
inductive Assigns : Tree → Tree → Prop
  | never {s t : Tree} (source : s.isKind .never = true) : Assigns s t
  | unknown {s t : Tree} (target : t.isKind .unknown = true) : Assigns s t
  | equal {s t : Tree} (same : s.equiv t = true) : Assigns s t
  | fromUnion {s t : Tree} (source : s.isKind .union = true)
      (each : ∀ a ∈ s.children, Assigns a t) : Assigns s t
  | intoUnion {s t a : Tree} (target : t.isKind .union = true) (inside : a ∈ t.children)
      (assigns : Assigns s a) : Assigns s t
  | literal {s t : Tree} {kind primitive : Kind} (source : s.isKind kind = true)
      (target : t.isKind primitive = true) (widened : kind.widened = some primitive) : Assigns s t
  | void {s t : Tree} (source : s.isKind .undefined = true) (target : t.isKind .void = true) :
      Assigns s t
  | callable {s t : Tree} {kind : Kind} (signature : kind.isSignature = true)
      (source : s.isKind kind = true) (target : t.isKind .function = true) : Assigns s t
  | fn {s t : Tree} (source : s.isKind .fn = true) (target : t.isKind .fn = true)
      (fewer : s.children.length ≤ t.children.length)
      (parameters : ∀ i p q, t.children[i + 1]? = some p → s.children[i + 1]? = some q →
        Assigns p q)
      (result : t.first.isKind .void = false → Assigns s.first t.first) : Assigns s t
  | ctor {s t : Tree} (source : s.isKind .ctor = true) (target : t.isKind .ctor = true)
      (fewer : s.children.length ≤ t.children.length)
      (parameters : ∀ i p q, t.children[i + 1]? = some p → s.children[i + 1]? = some q →
        Assigns p q)
      (result : Assigns s.first t.first) : Assigns s t
  | array {s t : Tree} (source : s.isKind .array = true) (target : t.isKind .array = true)
      (element : Assigns s.first t.first) : Assigns s t
  | object {s t : Tree} (source : s.isKind .object = true) (target : t.isKind .object = true)
      (members : ∀ m ∈ t.children, Fills s m) : Assigns s t
  | shapeless {s t : Tree}
      (source : ∀ kind ∈ [.null, .undefined, .void, .unknown, .union], s.isKind kind = false)
      (target : t.isKind .object = true) (empty : t.children = []) : Assigns s t

/-- An object has what a member of another object asks for. -/
inductive Fills : Tree → Tree → Prop
  | absent {s m : Tree} (missing : s.find? m.name.text = none)
      (optional : m.modifiers.optional = true) : Fills s m
  | required {s m found : Tree} (present : s.find? m.name.text = some found)
      (wanted : m.modifiers.optional = false) (given : found.modifiers.optional = false)
      (type : Assigns found.first m.first) : Fills s m
  | optional {s m found : Tree} (present : s.find? m.name.text = some found)
      (optional : m.modifiers.optional = true)
      (each : ∀ a ∈ found.first.alternatives, a.isKind .undefined = false → Assigns a m.first) :
      Fills s m

end

section Closure

variable {s t : Tree}

theorem isKind_eq_of_equiv (same : s.equiv t = true) (kind : Kind) :
    s.isKind kind = t.isKind kind := by
  cases s with
  | node a as =>
      cases t with
      | node b bs =>
          obtain ⟨rfl, -⟩ := Reordering.node_iff.1 ((equiv_iff_reordering _ _).1 same)
          rfl

/-- Children of equal types have equal partners. -/
theorem exists_equiv_of_mem (same : s.equiv t = true) {c : Tree} (hc : c ∈ s.children) :
    ∃ d ∈ t.children, c.equiv d = true := by
  simp only [equiv_iff_reordering] at same ⊢
  cases same with
  | inPlace _ children => exact exists_mem_of_forall₂ children hc
  | rearranged _ order children => exact exists_mem_of_forall₂ children (order.mem_iff.1 hc)

/-- Equal normal types are assignable: an alternative of the source is of the kind of its partner in
the target. -/
theorem Normal.assignable_of_equiv (hs : s.Normal) (same : s.equiv t = true) :
    s.assignable t = true := by
  have kinds := isKind_eq_of_equiv same
  cases unknown : s.isKind .unknown with
  | true => exact assignable_of_unknown ((kinds _).symm.trans unknown)
  | false =>
      cases union : s.isKind .union with
      | false =>
          apply assignable_of_single union unknown ((kinds _).symm.trans union)
          rw [same, Bool.true_or, Bool.true_or]
      | true =>
          have target : t.isKind .union = true := (kinds _).symm.trans union
          rw [assignable_fromUnion union ((kinds _).symm.trans unknown), List.all_eq_true]
          intro c hc
          have proper := (hs.alternatives union).proper c hc
          obtain ⟨d, hd, partner⟩ := exists_equiv_of_mem same hc
          have single := (isKind_eq_of_equiv partner .union).symm.trans proper.noUnion
          rw [assignable_intoUnion proper.noUnion proper.notNever proper.notUnknown target,
            List.any_eq_true]
          refine ⟨d, hd, assignable_of_single proper.noUnion proper.notUnknown single ?_⟩
          rw [partner, Bool.true_or, Bool.true_or]

/-- What is assignable to an alternative is assignable to the union. A source union is opened
first, and each of its alternatives enters the target on its own. -/
theorem Normal.assignable_of_alternative (hs : s.Normal) (ht : t.Normal)
    (target : t.isKind .union = true) {a : Tree} (ha : a ∈ t.children)
    (h : s.assignable a = true) : s.assignable t = true := by
  have proper := (ht.alternatives target).proper a ha
  cases never : s.isKind .never with
  | true => exact assignable_of_never never
  | false =>
      cases unknown : s.isKind .unknown with
      | true =>
          rw [not_assignable_of_unknown unknown proper.notUnknown] at h
          cases h
      | false =>
          cases union : s.isKind .union with
          | false =>
              rw [assignable_intoUnion union never unknown target, List.any_eq_true]
              exact ⟨a, ha, h⟩
          | true =>
              rw [assignable_fromUnion union proper.notUnknown, List.all_eq_true] at h
              rw [assignable_fromUnion union (isKind_eq_false target (by decide)),
                List.all_eq_true]
              intro c hc
              have single := (hs.alternatives union).proper c hc
              rw [assignable_intoUnion single.noUnion single.notNever single.notUnknown target,
                List.any_eq_true]
              exact ⟨a, ha, h c hc⟩

end Closure

section Kinds

variable {s t : Tree}

/-- The rules by kinds apply to types that are no unions. -/
theorem assignable_of_kinds {kind other : Kind} (source : s.isKind kind = true)
    (target : t.isKind other = true) (single : kind ≠ .union) (known : kind ≠ .unknown)
    (whole : other ≠ .union) (h : s.tag.widened = t.tag ∨ ByKind s t) : s.assignable t = true := by
  apply assignable_of_single (isKind_eq_false source single) (isKind_eq_false source known)
    (isKind_eq_false target whole)
  simp only [Bool.or_eq_true, beq_iff_eq, structureAssignable_iff, or_assoc]
  exact .inr h

theorem assignable_of_literal {kind primitive : Kind} (source : s.isKind kind = true)
    (target : t.isKind primitive = true) (widened : kind.widened = some primitive) :
    s.assignable t = true := by
  have literal : kind ≠ .union ∧ kind ≠ .unknown ∧ primitive ≠ .union := by
    cases kind <;> cases widened <;> decide
  apply assignable_of_kinds source target literal.1 literal.2.1 literal.2.2
  rw [isKind_iff.1 source, isKind_iff.1 target, Tag.widened, widened]
  exact .inl rfl

theorem assignable_of_callable {kind : Kind} (signature : kind.isSignature = true)
    (source : s.isKind kind = true) (target : t.isKind .function = true) :
    s.assignable t = true := by
  apply assignable_of_kinds source target _ _ (by decide)
    (.inr (.callable signature source target))
  · rintro rfl
    cases signature
  · rintro rfl
    cases signature

/-- Only literals widen, since a normal type is of some kind. -/
theorem Normal.assigns_of_widened (ht : t.Normal) (h : s.tag.widened = t.tag) : Assigns s t := by
  obtain ⟨primitive, target⟩ := ht.exists_kind
  obtain ⟨kind, source, widened⟩ := exists_literal target h
  exact .literal source target widened

/-- The object without members asks for nothing, whatever the kind of the source. -/
theorem Normal.assignable_of_shapeless (hs : s.Normal)
    (source : ∀ kind ∈ [.null, .undefined, .void, .unknown, .union], s.isKind kind = false)
    (target : t.isKind .object = true) (empty : t.children = []) : s.assignable t = true := by
  obtain ⟨kind, k⟩ := hs.exists_kind
  have different : ∀ other ∈ [.null, .undefined, .void, .unknown, .union], kind ≠ other := by
    rintro other inside rfl
    rw [source kind inside] at k
    cases k
  have solid : ∀ other : Kind, other.isNullish = true → s.isKind other = false := by
    intro other nullish
    apply source
    cases other <;> first | decide | cases nullish
  exact assignable_of_kinds k target (different _ (by decide)) (different _ (by decide)) (by decide)
    (.inr (.shapeless solid target empty))

end Kinds

/-- Pairs of normal types with fewer nodes are compared by the rules. -/
def DecidedBelow (s t : Tree) : Prop :=
  ∀ u v : Tree, u.size + v.size < s.size + t.size → u.Normal → v.Normal →
    (u.assignable v = true ↔ Assigns u v)

section Rules

variable {s t : Tree} (hs : s.Normal) (ht : t.Normal) (below : DecidedBelow s t)

include hs ht below

theorem signatureAssignable_iff_assigns {kind : Kind} (signature : kind.isSignature = true)
    (source : s.isKind kind = true) (target : t.isKind kind = true) :
    s.signatureAssignable t = true ↔
      s.children.length ≤ t.children.length ∧
      (∀ i p q, t.children[i + 1]? = some p → s.children[i + 1]? = some q → Assigns p q) ∧
      (s.isKind .fn = true ∧ t.first.isKind .void = true ∨ Assigns s.first t.first) := by
  obtain ⟨someS, -, typesS⟩ := hs.parts signature source
  obtain ⟨someT, -, typesT⟩ := ht.parts signature target
  rw [signatureAssignable_iff, first?_eq_some someS, first?_eq_some someT]
  simp only [Option.some.injEq, exists_eq_left']
  refine and_congr_right fun _ => and_congr ?_ (or_congr_right ?_)
  · refine forall_congr' fun i => forall_congr' fun p => forall_congr' fun q => ?_
    refine forall_congr' fun hp => forall_congr' fun hq => ?_
    have insideT := List.mem_of_getElem? hp
    have insideS := List.mem_of_getElem? hq
    have := size_lt_of_mem insideT
    have := size_lt_of_mem insideS
    exact below p q (by omega) (typesT p insideT) (typesS q insideS)
  · have := size_lt_of_mem (first_mem someS)
    have := size_lt_of_mem (first_mem someT)
    exact below _ _ (by omega) (typesS _ (first_mem someS)) (typesT _ (first_mem someT))

theorem elementAssignable_iff_assigns (source : s.isKind .array = true)
    (target : t.isKind .array = true) :
    (∃ expected, t.first? = some expected ∧
      ∃ given, s.first? = some given ∧ given.assignable expected = true) ↔
        Assigns s.first t.first := by
  obtain ⟨onlyS, typeS⟩ := hs.element source
  obtain ⟨onlyT, typeT⟩ := ht.element target
  have someS : s.children ≠ [] := by
    rw [onlyS]
    exact List.cons_ne_nil _ _
  have someT : t.children ≠ [] := by
    rw [onlyT]
    exact List.cons_ne_nil _ _
  have := size_lt_of_mem (first_mem someS)
  have := size_lt_of_mem (first_mem someT)
  rw [first?_eq_some someS, first?_eq_some someT]
  simp only [Option.some.injEq, exists_eq_left']
  exact below _ _ (by omega) typeS typeT

/-- Whatever is compared for a member has fewer nodes than the objects. -/
theorem memberTypes_decided (source : s.isKind .object = true) (target : t.isKind .object = true)
    {m found : Tree} (hm : m ∈ t.children) (present : s.find? m.name.text = some found) :
    found.first? = some found.first ∧ ∀ a ∈ found.first :: found.first.alternatives,
      (a.assignable m.first = true ↔ Assigns a m.first) := by
  have wanted := (ht.members target).shaped m hm
  have typeT := (ht.members target).normal m hm
  have hf := mem_of_find? present
  have given := (hs.members source).shaped found hf
  have typeS := (hs.members source).normal found hf
  have small : found.first.size + m.first.size < s.size + t.size := by
    have := size_lt_of_mem hm
    have := size_lt_of_mem hf
    have := size_lt_of_mem (first_mem wanted.below)
    have := size_lt_of_mem (first_mem given.below)
    omega
  refine ⟨first?_eq_some given.below, List.forall_mem_cons.2 ⟨below _ _ small typeS typeT, ?_⟩⟩
  intro a ha
  have := size_le_of_mem_alternatives ha
  exact below a _ (by omega) (typeS.of_mem_alternatives ha) typeT

theorem memberAssignable_iff_fills (source : s.isKind .object = true)
    (target : t.isKind .object = true) {m : Tree} (hm : m ∈ t.children) :
    s.memberAssignable m = true ↔ Fills s m := by
  have slot := first?_eq_some ((ht.members target).shaped m hm).below
  have decided {found : Tree} (present : s.find? m.name.text = some found) :=
    memberTypes_decided hs ht below source target hm present
  rw [memberAssignable_iff]
  constructor
  · intro h
    cases h with
    | absent missing optional => exact .absent missing optional
    | required present slot' value required certain assigns =>
        obtain ⟨value', types⟩ := decided present
        obtain rfl := Option.some.inj (slot.symm.trans slot')
        obtain rfl := Option.some.inj (value'.symm.trans value)
        exact .required present required certain ((types _ List.mem_cons_self).1 assigns)
    | optional present slot' value optional each =>
        obtain ⟨value', types⟩ := decided present
        obtain rfl := Option.some.inj (slot.symm.trans slot')
        obtain rfl := Option.some.inj (value'.symm.trans value)
        exact .optional present optional fun a ha known =>
          (types a (List.mem_cons_of_mem _ ha)).1 (each a ha known)
  · intro h
    cases h with
    | absent missing optional => exact .absent missing optional
    | required present required certain assigns =>
        obtain ⟨value, types⟩ := decided present
        exact .required present slot value required certain
          ((types _ List.mem_cons_self).2 assigns)
    | optional present optional each =>
        obtain ⟨value, types⟩ := decided present
        exact .optional present slot value optional fun a ha known =>
          (types a (List.mem_cons_of_mem _ ha)).2 (each a ha known)

/-- Whatever the rules by kinds accept is derivable. -/
theorem assigns_of_byKind (notUnknown : s.isKind .unknown = false)
    (single : s.isKind .union = false) (h : ByKind s t) : Assigns s t := by
  cases h with
  | void source target => exact .void source target
  | callable signature source target => exact .callable signature source target
  | @signature kind signature source target accepts =>
      obtain ⟨fewer, parameters, result⟩ :=
        (signatureAssignable_iff_assigns hs ht below signature source target).1 accepts
      have function : kind = .fn ∨ kind = .ctor := by
        cases kind <;> first | exact .inl rfl | exact .inr rfl | cases signature
      rcases function with rfl | rfl
      · apply Assigns.fn source target fewer parameters
        intro wanted
        rw [wanted] at result
        simpa using result
      · apply Assigns.ctor source target fewer parameters
        rw [isKind_eq_false source (by decide : Kind.ctor ≠ .fn)] at result
        simpa using result
  | array source target element =>
      exact .array source target
        ((elementAssignable_iff_assigns hs ht below source target).1 element)
  | object source target members =>
      exact .object source target fun m hm =>
        (memberAssignable_iff_fills hs ht below source target hm).1 (members m hm)
  | shapeless source target empty =>
      refine .shapeless ?_ target empty
      simp [source .null rfl, source .undefined rfl, source .void rfl, single, notUnknown]

/-- Every step of the procedure is a rule. -/
theorem assigns_of_assignable (h : s.assignable t = true) : Assigns s t := by
  rw [assignable_eq] at h
  split at h
  · next trivial =>
    rcases Bool.or_eq_true_iff.1 trivial with never | unknown
    · exact .never never
    · exact .unknown unknown
  · split at h
    · cases h
    · next notUnknown =>
      split at h
      · next source =>
        apply Assigns.fromUnion source
        intro a ha
        have := size_lt_of_mem ha
        have normal := (hs.alternatives source).normal a ha
        exact (below a t (by omega) normal ht).1 (List.all_eq_true.1 h a ha)
      · next single =>
        split at h
        · next target =>
          obtain ⟨a, ha, h⟩ := List.any_eq_true.1 h
          have := size_lt_of_mem ha
          have normal := (ht.alternatives target).normal a ha
          exact .intoUnion target ha ((below s a (by omega) hs normal).1 h)
        · simp only [Bool.or_eq_true, beq_iff_eq, structureAssignable_iff, or_assoc] at h
          rcases h with same | widened | rule
          · exact .equal same
          · exact ht.assigns_of_widened widened
          · exact assigns_of_byKind hs ht below (Bool.eq_false_iff.2 notUnknown)
              (Bool.eq_false_iff.2 single) rule

/-- The procedure opens the source, as the rule for its alternatives does. -/
theorem assignable_of_each_alternative (source : s.isKind .union = true)
    (each : ∀ a ∈ s.children, Assigns a t) : s.assignable t = true := by
  cases known : t.isKind .unknown with
  | true => exact assignable_of_unknown known
  | false =>
      rw [assignable_fromUnion source known, List.all_eq_true]
      intro a ha
      have := size_lt_of_mem ha
      exact (below a t (by omega) ((hs.alternatives source).normal a ha) ht).2 (each a ha)

/-- Every rule is kept by the procedure. -/
theorem assignable_of_assigns (h : Assigns s t) : s.assignable t = true := by
  cases h with
  | never source => exact assignable_of_never source
  | unknown target => exact assignable_of_unknown target
  | equal same => exact hs.assignable_of_equiv same
  | fromUnion source each => exact assignable_of_each_alternative hs ht below source each
  | @intoUnion _ _ a target inside assigns =>
      have := size_lt_of_mem inside
      apply hs.assignable_of_alternative ht target inside
      exact (below s a (by omega) hs ((ht.alternatives target).normal a inside)).2 assigns
  | literal source target widened => exact assignable_of_literal source target widened
  | void source target =>
      exact assignable_of_kinds source target (by decide) (by decide) (by decide)
        (.inr (.void source target))
  | callable signature source target =>
      exact assignable_of_callable signature source target
  | fn source target fewer parameters result =>
      apply assignable_of_kinds source target (by decide) (by decide) (by decide)
      refine .inr (.signature rfl source target
        ((signatureAssignable_iff_assigns hs ht below rfl source target).2
          ⟨fewer, parameters, ?_⟩))
      cases wanted : t.first.isKind .void with
      | true => exact .inl ⟨source, rfl⟩
      | false => exact .inr (result wanted)
  | ctor source target fewer parameters result =>
      apply assignable_of_kinds source target (by decide) (by decide) (by decide)
      exact .inr (.signature rfl source target
        ((signatureAssignable_iff_assigns hs ht below rfl source target).2
          ⟨fewer, parameters, .inr result⟩))
  | array source target element =>
      apply assignable_of_kinds source target (by decide) (by decide) (by decide)
      exact .inr (.array source target
        ((elementAssignable_iff_assigns hs ht below source target).2 element))
  | object source target members =>
      apply assignable_of_kinds source target (by decide) (by decide) (by decide)
      exact .inr (.object source target fun m hm =>
        (memberAssignable_iff_fills hs ht below source target hm).2 (members m hm))
  | shapeless source target empty => exact hs.assignable_of_shapeless source target empty

end Rules

/-- The procedure decides the relation on normal types. -/
theorem assignable_iff_assigns {s t : Tree} (hs : s.Normal) (ht : t.Normal) :
    s.assignable t = true ↔ Assigns s t := by
  induction nodes : s.size + t.size using Nat.strongRecOn generalizing s t with
  | _ n ih =>
      subst nodes
      have below : DecidedBelow s t := fun u v fewer hu hv => ih _ fewer hu hv rfl
      exact ⟨assigns_of_assignable hs ht below, assignable_of_assigns hs ht below⟩

end Tree

namespace Descriptor

/-- One type is assignable to another exactly when the rules, applied in any order, derive it. The
types may be stored at different capacities. -/
theorem assignable_decides_rules {m n : Nat} {s : Descriptor m} {t : Descriptor n}
    (hs : s.Reachable) (ht : t.Reachable) :
    s.tree.assignable t.tree = true ↔ s.tree.Assigns t.tree :=
  Tree.assignable_iff_assigns hs.normal.type ht.normal.type

/-- A function may take fewer parameters than it is given, and return what nobody wants. -/
theorem assignable_unwanted_result :
    ∃ s : Descriptor 4, (do fn (← ofKind 4 .number) []) = .ok s ∧
      ∃ t : Descriptor 8, (do fn (← ofKind 8 .void) [← ofKind 8 .string]) = .ok t ∧
        s.tree.assignable t.tree = true := by
  apply exists_ok (by decide +kernel)
  intro s made
  apply exists_ok (by decide +kernel)
  intro t given
  obtain ⟨source, supplied⟩ : s.Known (.node (.ofKind .fn) [.ofKind .number]) :=
    Gives.holds made <| .bind (.knownKind rfl) fun number hn =>
      .knownFn (by simp [hn.1]) (by simp [hn.2])
  obtain ⟨target, wanted⟩ : t.Known (.node (.ofKind .fn) [.ofKind .void, .ofKind .string]) :=
    Gives.holds given (.unary rfl rfl)
  apply (assignable_decides_rules source target).2
  rw [supplied, wanted]
  apply Tree.Assigns.fn rfl rfl (by simp) (by simp)
  intro result
  cases result

end Descriptor

end StructuralTypes
