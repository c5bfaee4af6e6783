import StructuralTypes.Proofs.Substitution

/-!
# Assignability is transitive

Assignability chains through types without optional members whose unions keep `void` out. An
optional member breaks a chain, because the shape without members takes every object and is taken by
any shape whose members are all optional. So does `void` as an alternative: a function whose result
is `void` takes every result, and its own result is one alternative among others.
-/

namespace StructuralTypes

namespace Tree

section Subtrees

mutual

/-- A tree and all trees below its root. -/
def subtrees : Tree → List Tree
  | node head children => node head children :: subtreesAll children

/-- The subtrees of some trees, one tree after the other. -/
def subtreesAll : List Tree → List Tree
  | [] => []
  | t :: ts => t.subtrees ++ subtreesAll ts

end

theorem subtrees_subset_subtreesAll {t : Tree} {ts : List Tree} (h : t ∈ ts) :
    t.subtrees ⊆ subtreesAll ts := by
  induction ts with
  | nil => cases h
  | cons u us ih =>
      rw [subtreesAll]
      rcases List.mem_cons.1 h with rfl | h
      · exact List.subset_append_left _ _
      · exact List.Subset.trans (ih h) (List.subset_append_right _ _)

theorem subtrees_subset {t c : Tree} (h : c ∈ t.children) : c.subtrees ⊆ t.subtrees := by
  cases t with
  | node head children => exact List.subset_cons_of_subset _ (subtrees_subset_subtreesAll h)

theorem mem_subtrees_self (t : Tree) : t ∈ t.subtrees := by
  cases t
  exact List.mem_cons_self

end Subtrees

/-- No member at any depth is optional. -/
def AllRequired (t : Tree) : Prop :=
  ∀ u ∈ t.subtrees, u.isKind .member = true → u.modifiers.optional = false

/-- No union at any depth has `void` as an alternative. -/
def VoidApart (t : Tree) : Prop :=
  ∀ u ∈ t.subtrees, u.isKind .union = true → ∀ a ∈ u.children, a.isKind .void = false

/-- The types that assignability chains through. -/
structure Chainable (t : Tree) : Prop where
  normal : t.Normal
  required : t.AllRequired
  voidApart : t.VoidApart

namespace Chainable

variable {t : Tree} (h : t.Chainable)

include h

theorem of_subtrees {c : Tree} (inside : c.subtrees ⊆ t.subtrees) (normal : c.Normal) :
    c.Chainable :=
  ⟨normal, fun u hu => h.required u (inside hu), fun u hu => h.voidApart u (inside hu)⟩

theorem of_mem_children (single : t.isKind .object = false) {c : Tree} (hc : c ∈ t.children) :
    c.Chainable :=
  h.of_subtrees (subtrees_subset hc) (h.normal.of_mem_children single c hc)

theorem of_mem_alternatives {a : Tree} (ha : a ∈ t.alternatives) : a.Chainable := by
  rcases h.normal.mem_alternatives ha with ⟨-, inside, -⟩ | rfl
  · exact h.of_subtrees (subtrees_subset inside) (h.normal.of_mem_alternatives ha)
  · exact h

/-- A member of an object is required, and declares a type that assignability chains through. -/
theorem of_member (k : t.isKind .object = true) {m : Tree} (hm : m ∈ t.children) :
    m.modifiers.optional = false ∧ ∀ {type}, m.first? = some type → type.Chainable := by
  have member := isKind_iff.2 ((h.normal.members k).shaped m hm).tag
  refine ⟨h.required m (subtrees_subset hm (mem_subtrees_self m)) member, fun value => ?_⟩
  have normal := (h.normal.members k).normal m hm
  rw [first, value] at normal
  have inside := List.Subset.trans (subtrees_subset (mem_of_first? value)) (subtrees_subset hm)
  exact h.of_subtrees inside normal

end Chainable

/-- Assignability chains through all triples with fewer nodes. -/
def ChainedBelow (x y z : Tree) : Prop :=
  ∀ u v w : Tree, u.size + v.size + w.size < x.size + y.size + z.size → u.Chainable →
    v.Chainable → w.Chainable → u.assignable v = true → v.assignable w = true →
    u.assignable w = true

section Chaining

variable {x y z : Tree}

/-- Literals do not widen to `void`, and `void` is no source of a rule by kinds. -/
theorem isKind_void_of_assignable (source : y.isKind .void = true) (normal : z.Normal)
    (single : z.isKind .union = false) (known : z.isKind .unknown = false)
    (accepts : y.assignable z = true) : z.isKind .void = true := by
  have alternative : y.IsAlternative := ⟨isKind_eq_false source (by decide),
    isKind_eq_false source (by decide), isKind_eq_false source (by decide)⟩
  rcases (alternative.assignable_iff single known).1 accepts with equal | widened | rule
  · exact (isKind_eq_of_equiv equal _).symm.trans source
  · obtain ⟨primitive, target⟩ := normal.exists_kind
    obtain ⟨kind, literal, widened⟩ := exists_literal target widened
    obtain rfl := isKind_unique source literal
    cases widened
  · cases (rule.shapeless_of_source source (by decide)).1

/-- What `void` is assignable to, as long as it is kept out of unions. -/
theorem Chainable.of_void (h : z.Chainable) (source : y.isKind .void = true)
    (accepts : y.assignable z = true) : z.isKind .void = true ∨ z.isKind .unknown = true := by
  have alternative : y.IsAlternative := ⟨isKind_eq_false source (by decide),
    isKind_eq_false source (by decide), isKind_eq_false source (by decide)⟩
  obtain ⟨b, hb, accepts⟩ := (alternative.assignable_iff_some z).1 accepts
  cases known : b.isKind .unknown with
  | true => exact .inr (h.normal.isKind_unknown_of_mem hb known)
  | false =>
      have void := isKind_void_of_assignable source (h.normal.of_mem_alternatives hb)
        (isKind_of_mem_alternatives hb).1 known accepts
      rcases h.normal.mem_alternatives hb with ⟨union, inside, -⟩ | rfl
      · rw [h.voidApart z (mem_subtrees_self z) union b inside] at void
        cases void
      · exact .inl void

variable (hx : x.Chainable) (hy : y.Chainable) (hz : z.Chainable) (below : ChainedBelow x y z)

include hx hy hz below

theorem chained_of_mem_children {kind : Kind} (single : kind ≠ .object)
    (kx : x.isKind kind = true) (ky : y.isKind kind = true) (kz : z.isKind kind = true)
    {u v w : Tree} (hu : u ∈ x.children) (hv : v ∈ y.children) (hw : w ∈ z.children) :
    (u.assignable v = true → v.assignable w = true → u.assignable w = true) ∧
      (w.assignable v = true → v.assignable u = true → w.assignable u = true) := by
  have := size_lt_of_mem hu
  have := size_lt_of_mem hv
  have := size_lt_of_mem hw
  have cu := hx.of_mem_children (isKind_eq_false kx single) hu
  have cv := hy.of_mem_children (isKind_eq_false ky single) hv
  have cw := hz.of_mem_children (isKind_eq_false kz single) hw
  exact ⟨below u v w (by omega) cu cv cw, below w v u (by omega) cw cv cu⟩

theorem signatureAssignable_trans {kind : Kind} (signature : kind.isSignature = true)
    (kx : x.isKind kind = true) (ky : y.isKind kind = true) (kz : z.isKind kind = true)
    (xy : x.signatureAssignable y = true) (yz : y.signatureAssignable z = true) :
    x.signatureAssignable z = true := by
  have single : kind ≠ .object := by rintro rfl; cases signature
  have sameFn : x.isKind .fn = y.isKind .fn := by
    rw [isKind, isKind, isKind_iff.1 kx, isKind_iff.1 ky]
  rw [signatureAssignable_iff] at xy yz ⊢
  obtain ⟨fewer, parameters, ry, hry, result⟩ := xy
  obtain ⟨fewer', parameters', rz, hrz, result'⟩ := yz
  refine ⟨fewer.trans fewer', ?_, rz, hrz, ?_⟩
  · intro i p q hp hq
    have inside : i + 1 < y.children.length :=
      Nat.lt_of_lt_of_le (List.getElem?_eq_some_iff.1 hq).1 fewer
    have hr : y.children[i + 1]? = some y.children[i + 1] := List.getElem?_eq_getElem inside
    have chained := chained_of_mem_children hx hy hz below single kx ky kz
      (List.mem_of_getElem? hq) (List.mem_of_getElem? hr) (List.mem_of_getElem? hp)
    exact chained.2 (parameters' i p _ hp hr) (parameters i _ q hr hq)
  · rcases result' with ⟨fn, void⟩ | ⟨qy, hqy, accepts'⟩
    · exact .inl ⟨sameFn.trans fn, void⟩
    · obtain rfl : ry = qy := Option.some.inj (hry.symm.trans hqy)
      rcases result with ⟨fn, void⟩ | ⟨qx, hqx, accepts⟩
      · have kind := hz.of_mem_children (isKind_eq_false kz single) (mem_of_first? hrz)
        rcases kind.of_void void accepts' with void' | top
        · exact .inl ⟨fn, void'⟩
        · exact .inr ⟨x.first, first?_eq_some (hx.normal.parts signature kx).1,
            assignable_of_unknown top⟩
      · have chained := chained_of_mem_children hx hy hz below single kx ky kz
          (mem_of_first? hqx) (mem_of_first? hry) (mem_of_first? hrz)
        exact .inr ⟨qx, hqx, chained.1 accepts accepts'⟩

theorem memberAssignable_trans (kx : x.isKind .object = true) (ky : y.isKind .object = true)
    (kz : z.isKind .object = true) (xy : ∀ m ∈ y.children, x.memberAssignable m = true) {m : Tree}
    (hm : m ∈ z.children) (yz : y.memberAssignable m = true) : x.memberAssignable m = true := by
  obtain ⟨wanted, typeZ⟩ := hz.of_member kz hm
  have := size_lt_of_mem hm
  rw [memberAssignable_iff] at yz ⊢
  cases yz with
  | absent _ optional | optional _ _ _ optional =>
      rw [wanted] at optional
      cases optional
  | @required between typeY expected present slot value _ _ assigns =>
      have inside := mem_of_find? present
      have key : between.name.text = m.name.text := by simpa using List.find?_some present
      obtain ⟨certain, typeY'⟩ := hy.of_member ky inside
      cases memberAssignable_iff.1 (xy between inside) with
      | absent _ optional | optional _ _ _ optional =>
          rw [certain] at optional
          cases optional
      | @required found typeX expected' present' slot' value' _ given assigns' =>
          obtain rfl := Option.some.inj (value.symm.trans slot')
          obtain ⟨-, typeX'⟩ := hx.of_member kx (mem_of_find? present')
          have := size_lt_of_mem inside
          have := size_lt_of_mem (mem_of_find? present')
          have := size_lt_of_first? slot
          have := size_lt_of_first? value
          have := size_lt_of_first? value'
          refine .required (key ▸ present') slot value' wanted given ?_
          exact below typeX typeY expected (by omega) (typeX' value') (typeY' value) (typeZ slot)
            assigns' assigns

theorem byKind_trans (xy : ByKind x y) (yz : ByKind y z) : ByKind x z := by
  cases yz with
  | void source _ => exact absurd (xy.target_kind source) (by decide)
  | callable signature source target =>
      exact .callable signature (xy.of_signature signature source).1 target
  | signature signature source target accepts =>
      obtain ⟨source', accepts'⟩ := xy.of_signature signature source
      exact .signature signature source' target
        (signatureAssignable_trans hx hy hz below signature source' source target accepts' accepts)
  | array source target element =>
      obtain ⟨source', between, hb, given, hg, assigns⟩ := xy.of_array source
      obtain ⟨expected, he, between', hb', assigns'⟩ := element
      obtain rfl := Option.some.inj (hb.symm.trans hb')
      have chained := chained_of_mem_children hx hy hz below (by decide) source' source target
        (mem_of_first? hg) (mem_of_first? hb) (mem_of_first? he)
      exact .array source' target ⟨expected, he, given, hg, chained.1 assigns assigns'⟩
  | object source target members =>
      rcases xy.of_object source with ⟨source', members'⟩ | ⟨solid, empty⟩
      · refine .object source' target fun m hm => ?_
        exact memberAssignable_trans hx hy hz below source' source target members' hm
          (members m hm)
      · -- A shape that asks for a member is not met by the shape without members.
        refine .shapeless solid target (List.eq_nil_iff_forall_not_mem.2 fun m hm => ?_)
        obtain ⟨wanted, -⟩ := hz.of_member target hm
        cases memberAssignable_iff.1 (members m hm) with
        | absent _ optional | optional _ _ _ optional =>
            rw [wanted] at optional
            cases optional
        | required present =>
            have inside := mem_of_find? present
            rw [empty] at inside
            cases inside
  | shapeless solid target empty => exact .shapeless (xy.source_solid solid) target empty

theorem assignable_trans_of_single (sx : x.IsAlternative) (sy : y.IsAlternative)
    (single : z.isKind .union = false) (xy : x.assignable y = true) (yz : y.assignable z = true) :
    x.assignable z = true := by
  cases known : z.isKind .unknown with
  | true => exact assignable_of_unknown known
  | false =>
      rcases (sx.assignable_iff sy.noUnion sy.notUnknown).1 xy with equal | widened | rule
      · exact (hy.normal.replaces (equiv_symm equal) z).source yz
      all_goals rcases (sy.assignable_iff single known).1 yz with equal' | widened' | rule'
      · exact (hy.normal.replaces equal' x).target xy
      · obtain ⟨primitive, target⟩ := hy.normal.exists_kind
        obtain ⟨kind, -, widens⟩ := exists_literal target widened
        obtain ⟨wide, target'⟩ := hz.normal.exists_kind
        obtain ⟨kind', source', widens'⟩ := exists_literal target' widened'
        obtain rfl := isKind_unique target source'
        cases kind <;> cases widens <;> cases widens'
      · obtain ⟨primitive, target⟩ := hy.normal.exists_kind
        obtain ⟨kind, source, widens⟩ := exists_literal target widened
        have plain : kind.isNullish = false ∧
            primitive ∉ [.undefined, .fn, .ctor, .array, .object] := by
          cases kind <;> cases widens <;> decide
        obtain ⟨-, target', empty⟩ := rule'.shapeless_of_source target plain.2
        exact (sx.assignable_iff single known).2
          (.inr (.inr (.shapeless (solid_of_isKind source plain.1) target' empty)))
      · exact (hy.normal.replaces equal' x).target xy
      · obtain ⟨wide, target⟩ := hz.normal.exists_kind
        obtain ⟨kind, source, widens⟩ := exists_literal target widened'
        have := rule.target_kind source
        cases kind <;> cases widens <;> exact absurd this (by decide)
      · exact (sx.assignable_iff single known).2
          (.inr (.inr (byKind_trans hx hy hz below rule rule')))

end Chaining

/-- Assignability chains where no member is optional and no union has `void` as an alternative. -/
theorem Chainable.chain {x y z : Tree} (hx : x.Chainable) (hy : y.Chainable)
    (hz : z.Chainable) (xy : x.assignable y = true) (yz : y.assignable z = true) :
    x.assignable z = true := by
  induction nodes : x.size + y.size + z.size using Nat.strongRecOn generalizing x y z with
  | _ n ih =>
      subst nodes
      have below : ChainedBelow x y z := fun u v w fewer cu cv cw uv vw =>
        ih _ fewer cu cv cw uv vw rfl
      rcases (assignable_iff_alternatives y z).1 yz with top | each'
      · exact assignable_of_unknown top
      rcases (assignable_iff_alternatives x y).1 xy with top | each
      · have only : y ∈ y.alternatives := by simp [alternatives_of_unknown top]
        obtain ⟨single, -⟩ := each' y only
        rw [single.notUnknown] at top
        cases top
      refine (assignable_iff_alternatives x z).2 (.inr fun a ha => ?_)
      obtain ⟨sa, b, hb, ab⟩ := each a ha
      obtain ⟨sb, c, hc, bc⟩ := each' b hb
      have := size_le_of_mem_alternatives ha
      have := size_le_of_mem_alternatives hb
      have := size_le_of_mem_alternatives hc
      have chained : ChainedBelow a b c := fun u v w fewer => below u v w (by omega)
      exact ⟨sa, c, hc, assignable_trans_of_single (hx.of_mem_alternatives ha)
        (hy.of_mem_alternatives hb) (hz.of_mem_alternatives hc) chained sa sb
        (isKind_of_mem_alternatives hc).1 ab bc⟩

/-- An optional member breaks a chain. -/
example :
    let shape (optional : Bool) (type : Kind) : Tree :=
      ofMembers [node ⟨Kind.member, .blank, ⟨false, optional, 0⟩⟩ [ofKind type]]
    (shape false .number).assignable (ofMembers []) = true ∧
      (ofMembers []).assignable (shape true .string) = true ∧
      (shape false .number).assignable (shape true .string) = false := by decide +kernel

/-- So does `void` beside another alternative. -/
example :
    let returning (result : Tree) : Tree := node (.ofKind .fn) [result]
    let voidOrNull : Tree := node (.ofKind .union) [ofKind .void, ofKind .null]
    (returning (ofKind .string)).assignable (returning (ofKind .void)) = true ∧
      (returning (ofKind .void)).assignable (returning voidOrNull) = true ∧
      (returning (ofKind .string)).assignable (returning voidOrNull) = false := by decide +kernel

end Tree

namespace Descriptor

/-- Assignability is transitive on types that have no optional members and no unions with `void` as
an alternative. The types may be stored at different capacities. -/
theorem assignable_trans {l m n : Nat} {a : Descriptor l} {b : Descriptor m} {c : Descriptor n}
    (ha : a.Reachable) (hb : b.Reachable) (hc : c.Reachable)
    (required : a.tree.AllRequired ∧ b.tree.AllRequired ∧ c.tree.AllRequired)
    (voidApart : a.tree.VoidApart ∧ b.tree.VoidApart ∧ c.tree.VoidApart)
    (ab : a.tree.assignable b.tree = true) (bc : b.tree.assignable c.tree = true) :
    a.tree.assignable c.tree = true :=
  Tree.Chainable.chain ⟨ha.normal.type, required.1, voidApart.1⟩
    ⟨hb.normal.type, required.2.1, voidApart.2.1⟩ ⟨hc.normal.type, required.2.2, voidApart.2.2⟩
    ab bc

/-- Callbacks whose parameter narrows from step to step, and whose result nobody wants. -/
theorem assignable_trans_callbacks :
    ∃ a : Descriptor 4, (do fn (← ofKind 4 .string) [← ofKind 4 .unknown]) = .ok a ∧
      ∃ b : Descriptor 3, (do fn (← ofKind 3 .void) [← ofKind 3 .number]) = .ok b ∧
        ∃ c : Descriptor 8,
          (do fn (← ofKind 8 .void) [← ofKind 8 .never, ← ofKind 8 .boolean]) = .ok c ∧
            a.tree.assignable c.tree = true := by
  apply exists_ok (by decide +kernel)
  intro a ma
  apply exists_ok (by decide +kernel)
  intro b mb
  apply exists_ok (by decide +kernel)
  intro c mc
  obtain ⟨ra, ta⟩ : a.Known (.node (.ofKind .fn) [.ofKind .string, .ofKind .unknown]) :=
    Gives.holds ma (.unary rfl rfl)
  obtain ⟨rb, tb⟩ : b.Known (.node (.ofKind .fn) [.ofKind .void, .ofKind .number]) :=
    Gives.holds mb (.unary rfl rfl)
  obtain ⟨rc, tc⟩ :
      c.Known (.node (.ofKind .fn) [.ofKind .void, .ofKind .never, .ofKind .boolean]) :=
    Gives.holds mc <| .bind (.knownKind rfl) fun r hr => .bind (.knownKind rfl) fun p hp =>
      .bind (.knownKind rfl) fun q hq =>
        .knownFn (by simp [hr.1, hp.1, hq.1]) (by simp [hr.2, hp.2, hq.2])
  refine assignable_trans ra rb rc ?_ ?_ ?_ ?_
  · rw [Tree.AllRequired, Tree.AllRequired, Tree.AllRequired, ta, tb, tc]
    decide
  · rw [Tree.VoidApart, Tree.VoidApart, Tree.VoidApart, ta, tb, tc]
    decide
  · rw [ta, tb]
    decide +kernel
  · rw [tb, tc]
    decide +kernel

end Descriptor

end StructuralTypes
