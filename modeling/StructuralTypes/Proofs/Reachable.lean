import StructuralTypes.Proofs.NormalDescriptor
import StructuralTypes.Proofs.Unfolding

/-!
# What the operations build

A descriptor is reachable when finitely many operations build it. What it stores is then the layout
of a normal type: the nodes stand in post-order without any others, and every node has the children,
the name and the modifiers that its kind calls for.
-/

namespace StructuralTypes

namespace Tree

/-- What a node has below it and carries, by its kind. -/
structure Shaped (t : Tree) : Prop where
  kind : ∃ kind, t.isKind kind = true
  union : t.isKind .union = true → 2 ≤ t.children.length ∧ t.children.length ≤ 16 ∧
    (∀ a ∈ t.children, a.IsAlternative) ∧ Distinct t.children
  object : t.isKind .object = true → t.children.length ≤ 16 ∧ (∀ m ∈ t.children, m.IsMember) ∧
    (t.children.map name).Nodup
  elsewhere : t.isKind .object = false → ∀ c ∈ t.children, c.isKind .member = false
  member : t.isKind .member = true → t.IsMember ∧ t.name.text.length ≤ 31
  signature : t.isKind .fn = true ∨ t.isKind .ctor = true →
    1 ≤ t.children.length ∧ t.children.length ≤ 16
  array : t.isKind .array = true → t.children.length = 1
  leaf : (∀ kind ∈ [.union, .object, .member, .fn, .ctor, .array], t.isKind kind = false) →
    t.children = []
  unnamed : t.isKind .member = false → t.isLiteral = false → t.name = .blank
  numeral : t.isKind .numberLiteral = true → Numeral.canonical t.name.text = .ok t.name
  unmodified : t.isKind .member = false → t.modifiers = .none

namespace Normal

variable {t : Tree}

/-- Below any normal type but an object there are normal types. -/
theorem of_mem_children (h : t.Normal) (object : t.isKind .object = false) :
    ∀ c ∈ t.children, c.Normal := by
  cases h with
  | primitive => simp [ofKind]
  | literal => simp
  | signature _ _ _ normal => exact normal
  | array normal => simpa using normal
  | union _ _ _ _ normal => exact normal
  | object => cases object

theorem children_eq_nil (h : t.Normal)
    (leaf : ∀ kind ∈ [.union, .object, .member, .fn, .ctor, .array], t.isKind kind = false) :
    t.children = [] := by
  obtain ⟨kind, k⟩ := h.exists_kind
  have below := h.normalChildren k
  have other : kind ∉ [.union, .object, .member, .fn, .ctor, .array] := by
    intro inside
    rw [leaf kind inside] at k
    cases k
  cases kind <;> first | exact below | simp at other

/-- A normal type that is no literal has neither a name nor modifiers. -/
theorem head_eq_ofKind (h : t.Normal) (literal : t.isLiteral = false) :
    ∃ kind, t.head = .ofKind kind := by
  obtain ⟨kind, k⟩ := h.exists_kind
  refine ⟨kind, h.head_eq k ?_⟩
  rwa [isLiteral, isKind_iff.1 k] at literal

theorem modifiers_eq_none (h : t.Normal) : t.modifiers = .none := by
  cases h with
  | literal literal => cases literal <;> rfl
  | _ => rfl

theorem canonical (h : t.Normal) (k : t.isKind .numberLiteral = true) :
    Numeral.canonical t.name.text = .ok t.name := by
  rw [isKind_iff] at k
  cases h with
  | @primitive kind primitive =>
      cases k
      cases primitive
  | literal literal =>
      cases literal with
      | number canonical => exact canonical
      | _ => cases k
  | @signature kind _ signature =>
      cases k
      cases signature
  | _ => cases k

/-- The root of a normal type is shaped. -/
theorem shaped (h : t.Normal) : t.Shaped where
  kind := h.exists_kind
  union k := ⟨h.several k, (h.alternatives k).bounded, (h.alternatives k).proper,
    (h.alternatives k).distinct⟩
  object k := ⟨(h.members k).bounded, (h.members k).shaped, (h.members k).keys⟩
  elsewhere k c hc := (h.of_mem_children k c hc).isKind_member
  member k := by
    rw [h.isKind_member] at k
    cases k
  signature := by
    rintro (k | k)
    · exact ⟨List.length_pos_iff.2 (h.parts rfl k).1, (h.parts rfl k).2.1⟩
    · exact ⟨List.length_pos_iff.2 (h.parts rfl k).1, (h.parts rfl k).2.1⟩
  array k := congrArg List.length (h.element k).1
  leaf := h.children_eq_nil
  unnamed _ literal := by
    obtain ⟨kind, head⟩ := h.head_eq_ofKind literal
    rw [name, head]
    rfl
  numeral := h.canonical
  unmodified _ := h.modifiers_eq_none

end Normal

/-- The node of a member with a normal type is shaped. -/
theorem IsMember.shaped {m : Tree} (h : m.IsMember) (type : m.first.Normal) : m.Shaped := by
  have member : m.isKind .member = true := isKind_iff.2 h.tag
  have other : ∀ kind, kind ≠ .member → m.isKind kind = false := fun kind different =>
    isKind_eq_false member different.symm
  constructor
  case kind => exact ⟨.member, member⟩
  case elsewhere =>
    intro _ c hc
    rw [h.type, List.mem_singleton] at hc
    rw [hc]
    exact type.isKind_member
  case member => exact fun _ => ⟨h, Nat.le_of_lt_succ m.name.fits⟩
  case leaf =>
    intro leaf
    rw [leaf .member (by simp)] at member
    cases member
  all_goals simp [other, member]

/-- A normal type, or a member that declares one. -/
def TypeOrMember (t : Tree) : Prop := t.Normal ∨ t.IsMember ∧ t.first.Normal

theorem TypeOrMember.of_mem_children {t : Tree} (h : t.TypeOrMember) :
    ∀ c ∈ t.children, c.TypeOrMember := by
  intro c hc
  rcases h with h | ⟨shape, type⟩
  · cases k : t.isKind .object with
    | false => exact .inl (h.of_mem_children k c hc)
    | true => exact .inr ⟨(h.members k).shaped c hc, (h.members k).normal c hc⟩
  · rw [shape.type, List.mem_singleton] at hc
    rw [hc]
    exact .inl type

theorem TypeOrMember.shaped {t : Tree} (h : t.TypeOrMember) : t.Shaped := by
  rcases h with h | ⟨shape, type⟩
  · exact h.shaped
  · exact shape.shaped type

end Tree

namespace Descriptor

/-- The descriptors that finitely many operations build. Members are made with a key and the two
modifiers that mean something. -/
inductive Reachable : {cap : Nat} → Descriptor cap → Prop
  | ofKind {cap : Nat} {d : Descriptor cap} {kind : Kind} (primitive : kind.isPrimitive = true)
      (made : Descriptor.ofKind cap kind = .ok d) : Reachable d
  | numberLiteral {cap : Nat} {d : Descriptor cap} {spelling : Text}
      (made : Descriptor.numberLiteral cap spelling = .ok d) : Reachable d
  | integerLiteral {cap : Nat} {d : Descriptor cap} {v : Int}
      (made : Descriptor.integerLiteral cap v = .ok d) : Reachable d
  | stringLiteral {cap : Nat} {d : Descriptor cap} {text : Text}
      (made : Descriptor.stringLiteral cap text = .ok d) : Reachable d
  | booleanLiteral {cap : Nat} {d : Descriptor cap} {value : Bool}
      (made : Descriptor.booleanLiteral cap value = .ok d) : Reachable d
  | fn {cap : Nat} {d result : Descriptor cap} {parameters : List (Descriptor cap)}
      (first : Reachable result) (rest : ∀ p ∈ parameters, Reachable p)
      (made : Descriptor.fn result parameters = .ok d) : Reachable d
  | ctor {cap : Nat} {d result : Descriptor cap} {parameters : List (Descriptor cap)}
      (first : Reachable result) (rest : ∀ p ∈ parameters, Reachable p)
      (made : Descriptor.ctor result parameters = .ok d) : Reachable d
  | array {cap : Nat} {d element : Descriptor cap} (only : Reachable element)
      (made : element.array = .ok d) : Reachable d
  | union {cap : Nat} {d : Descriptor cap} {operands : List (Descriptor cap)}
      (each : ∀ o ∈ operands, Reachable o) (made : Descriptor.union operands = .ok d) :
      Reachable d
  | object {cap : Nat} {d : Descriptor cap} {members : List (Member cap)}
      (types : ∀ m ∈ members, Reachable m.type)
      (keyed : ∀ m ∈ members, ∃ key readOnly optional,
        Member.make key m.type ⟨readOnly, optional, 0⟩ = .ok m)
      (made : Descriptor.object cap members = .ok d) : Reachable d
  | nullable {cap : Nat} {d e : Descriptor cap} (h : Reachable d) (made : d.nullable = .ok e) :
      Reachable e
  | nullish {cap : Nat} {d e : Descriptor cap} (h : Reachable d) (made : d.nullish = .ok e) :
      Reachable e
  | primitive {cap : Nat} {d : Descriptor cap} (made : Descriptor.primitive cap = .ok d) :
      Reachable d
  | falsy {cap : Nat} {d : Descriptor cap} (made : Descriptor.falsy cap = .ok d) : Reachable d
  | arrayItem {cap : Nat} {d e : Descriptor cap} (h : Reachable d) (made : d.arrayItem = .ok e) :
      Reachable e
  | child {cap : Nat} {d e : Descriptor cap} {i : Nat} (h : Reachable d)
      (signature : d.tree.isKind .fn = true ∨ d.tree.isKind .ctor = true)
      (made : d.child? i = some (.ok e)) : Reachable e
  | exclude {cap : Nat} {d e other : Descriptor cap} (h : Reachable d) (k : Reachable other)
      (made : d.exclude other = .ok e) : Reachable e
  | nonUndefined {cap : Nat} {d e : Descriptor cap} (h : Reachable d)
      (made : d.nonUndefined = .ok e) : Reachable e
  | declaredType {cap : Nat} {d e : Descriptor cap} {key : Text} (h : Reachable d)
      (made : d.declaredType key = .ok e) : Reachable e
  | propertyType {cap : Nat} {d e : Descriptor cap} {key : Text} (h : Reachable d)
      (made : d.propertyType key = .ok e) : Reachable e
  | slice {cap : Nat} {d e : Descriptor cap} {key : Text} (h : Reachable d)
      (made : d.slice key = .ok e) : Reachable e
  | pick {cap : Nat} {d e : Descriptor cap} {keys : KeySet} (h : Reachable d)
      (object : d.tree.isKind .object = true) (made : d.pick keys = .ok e) : Reachable e
  | drop {cap : Nat} {d e : Descriptor cap} {keys : KeySet} (h : Reachable d)
      (object : d.tree.isKind .object = true) (made : d.drop keys = .ok e) : Reachable e
  | withOptional {cap : Nat} {d e : Descriptor cap} {keys : KeySet} (h : Reachable d)
      (object : d.tree.isKind .object = true) (made : d.withOptional keys = .ok e) : Reachable e
  | mutableProjection {cap : Nat} {d e : Descriptor cap} (h : Reachable d)
      (made : d.mutableProjection = .ok e) : Reachable e
  | pickRequired {cap : Nat} {d e : Descriptor cap} (h : Reachable d)
      (made : d.pickRequired = .ok e) : Reachable e
  | resize {cap capacity : Nat} {d : Descriptor cap} {e : Descriptor capacity} (h : Reachable d)
      (made : d.resize capacity = .ok e) : Reachable e
  | describe {cap : Nat} {d : Descriptor cap} {type : HostType}
      (made : type.describe cap = .ok d) : Reachable d

/-- Every operation keeps to normal types. -/
theorem Reachable.normal {cap : Nat} {d : Descriptor cap} (h : Reachable d) : d.Normal := by
  induction h with
  | ofKind primitive made => exact normal_ofKind primitive made
  | numberLiteral made => exact normal_numberLiteral made
  | integerLiteral made => exact normal_integerLiteral made
  | stringLiteral made => exact normal_stringLiteral made
  | booleanLiteral made => exact normal_booleanLiteral made
  | fn _ _ made first rest => exact normal_signature rfl first rest made
  | ctor _ _ made first rest => exact normal_signature rfl first rest made
  | array _ made only => exact normal_array only made
  | union _ made each => exact normal_union each made
  | object _ keyed made types =>
      apply normal_object _ made
      intro m hm
      obtain ⟨key, readOnly, optional, made⟩ := keyed m hm
      exact Member.normal_make rfl (types m hm) made
  | nullable _ made h => exact normal_nullable h made
  | nullish _ made h => exact normal_nullish h made
  | primitive made => exact normal_primitive made
  | falsy made => exact normal_falsy made
  | arrayItem _ made h => exact normal_arrayItem h made
  | child _ signature made h => exact normal_child h signature made
  | exclude _ _ made h => exact normal_exclude h made
  | nonUndefined _ made h => exact normal_nonUndefined h made
  | declaredType _ made h => exact normal_declaredType h made
  | propertyType _ made h => exact normal_propertyType h made
  | slice _ made h => exact normal_slice h made
  | pick _ object made h => exact normal_pick h object made
  | drop _ object made h => exact normal_drop h object made
  | withOptional _ object made h => exact normal_withOptional h object made
  | mutableProjection _ made h => exact normal_mutableProjection h made
  | pickRequired _ made h => exact normal_pickRequired h made
  | resize _ made h => exact normal_resize h made
  | describe made => exact HostType.normal_describe _ made

end Descriptor

/-- The member was made with a reachable type and with the two modifiers that mean something. -/
def Member.Reachable {cap : Nat} (m : Member cap) : Prop :=
  ∃ (key : Text) (type : Descriptor cap) (readOnly optional : Bool),
    type.Reachable ∧ Member.make key type ⟨readOnly, optional, 0⟩ = .ok m

/-!
### Reachable results

Whatever a program made of the operations gives is reachable. Its steps are followed one by one; a
step of several operations that programs often take has a lemma of its own.
-/

/-- Reachable, and of a type that is known. -/
def Descriptor.Known {cap : Nat} (t : Tree) (d : Descriptor cap) : Prop :=
  d.Reachable ∧ d.tree = t

namespace Gives

open Descriptor (Reachable Known)

variable {cap : Nat} {β : Type} {Q : β → Prop} {x y : Except Fault (Descriptor cap)}
  {key key' : Text} {readOnly optional readOnly' optional' : Bool}

theorem kind {kind : Kind} (primitive : kind.isPrimitive = true) :
    Gives (Descriptor.ofKind cap kind) Reachable := fun _ => .ofKind primitive

theorem stringLiterals {texts : List Text} :
    Gives (texts.mapM (Descriptor.stringLiteral cap)) fun ts => ∀ t ∈ ts, t.Reachable :=
  .mapM fun _ _ _ => .stringLiteral

theorem fn {result : Descriptor cap} {parameters : List (Descriptor cap)}
    (first : result.Reachable) (rest : ∀ p ∈ parameters, p.Reachable) :
    Gives (Descriptor.fn result parameters) Reachable := fun _ => .fn first rest

theorem array {element : Descriptor cap} (only : element.Reachable) :
    Gives element.array Reachable := fun _ => .array only

theorem union {operands : List (Descriptor cap)} (each : ∀ o ∈ operands, o.Reachable) :
    Gives (Descriptor.union operands) Reachable := fun _ => .union each

theorem knownKind {kind : Kind} (primitive : kind.isPrimitive = true) :
    Gives (Descriptor.ofKind cap kind) (Known (.ofKind kind)) :=
  fun _ made => ⟨.ofKind primitive made, Descriptor.tree_of_ofTree made⟩

theorem knownFn {result : Descriptor cap} {parameters : List (Descriptor cap)} {ts : List Tree}
    (each : ∀ p ∈ result :: parameters, p.Reachable)
    (types : (result :: parameters).map Descriptor.tree = ts) :
    Gives (Descriptor.fn result parameters) (Known (.node (.ofKind .fn) ts)) := by
  obtain ⟨first, rest⟩ := List.forall_mem_cons.1 each
  exact fun d made => ⟨.fn first rest made, types ▸ (Descriptor.tree_of_ofNode made).2⟩

/-- A function type of one parameter. -/
theorem unary {r p : Kind} (result : r.isPrimitive = true) (parameter : p.isPrimitive = true) :
    Gives (do Descriptor.fn (← Descriptor.ofKind cap r) [← Descriptor.ofKind cap p])
      (Known (.node (.ofKind .fn) [.ofKind r, .ofKind p])) :=
  .bind (.knownKind result) fun _ hr => .bind (.knownKind parameter) fun _ hp =>
    .knownFn (by simp [hr.1, hp.1]) (by simp [hr.2, hp.2])

theorem make {type : Descriptor cap} (reachable : type.Reachable) :
    Gives (Member.make key type ⟨readOnly, optional, 0⟩) Member.Reachable :=
  fun _ made => ⟨key, type, readOnly, optional, reachable, made⟩

/-- An object of members that are made with reachable types is reachable. -/
theorem object {members : List (Member cap)} (each : ∀ m ∈ members, m.Reachable) :
    Gives (Descriptor.object cap members) Reachable := by
  refine fun _ => .object (fun m hm => ?_) (fun m hm => ?_)
  · obtain ⟨key, type, readOnly, optional, reachable, made⟩ := each m hm
    exact Member.type_of_make made ▸ reachable
  · obtain ⟨key, type, readOnly, optional, -, made⟩ := each m hm
    obtain rfl := Member.type_of_make made
    exact ⟨key, readOnly, optional, made⟩

/-- A member may be made with a type that has just been built. -/
theorem member (type : Gives x Reachable) {f : Member cap → Except Fault β}
    (next : ∀ m, m.Reachable → Gives (f m) Q) :
    Gives (do f (← Member.make key (← x) ⟨readOnly, optional, 0⟩)) Q :=
  .bind type fun _ ht => .bind (.make ht) next

/-- A shape of one member. -/
theorem single (type : Gives x Reachable) :
    Gives (do Descriptor.object cap [← Member.make key (← x) ⟨readOnly, optional, 0⟩]) Reachable :=
  .member type fun _ ha => .object (List.forall_mem_singleton.2 ha)

/-- A shape of two members. -/
theorem pair (first : Gives x Reachable) (second : Gives y Reachable) :
    Gives (do
      let a ← Member.make key (← x) ⟨readOnly, optional, 0⟩
      let b ← Member.make key' (← y) ⟨readOnly', optional', 0⟩
      Descriptor.object cap [a, b]) Reachable :=
  .member first fun a ha => .member second fun b hb => .object (by simp [ha, hb])

/-- Two types that have just been built may be joined. -/
theorem either (first : Gives x Reachable) (second : Gives y Reachable)
    {f : Descriptor cap → Except Fault β} (next : ∀ u, u.Reachable → Gives (f u) Q) :
    Gives (do f (← Descriptor.union [← x, ← y])) Q :=
  .bind first fun a ha => .bind second fun b hb => .bind (.union (by simp [ha, hb])) next

end Gives

namespace Descriptor

/-- The nodes of one type and no others, in post-order, each of them shaped. -/
structure Compact {cap : Nat} (d : Descriptor cap) : Prop where
  /-- The walk from the root meets every node once, in order of storage. -/
  walk : d.arena.walk d.root = List.range d.arena.size
  backward : ∀ i (h : i < d.arena.nodes.size), ∀ c ∈ d.arena.nodes[i].children, c < i
  last : d.root + 1 = d.arena.size
  bounded : d.arena.size ≤ cap
  top : d.tree.isKind .member = false
  shaped : ∀ i < d.arena.size, (d.arena.tree i).Shaped

/-- What finitely many operations build is compact: an operation either fails or gives the nodes of
a normal type in post-order. -/
theorem Reachable.compact {cap : Nat} {d : Descriptor cap} (h : Reachable d) : d.Compact := by
  have normal := h.normal
  obtain ⟨stored, last⟩ := layout_of_ofTree normal.laidOut
  have size : d.arena.size = d.tree.size := by simp [Arena.size, stored]
  have walk : d.arena.walk d.root = List.range d.arena.size := by
    have whole : d.arena.walk (0 + d.tree.size - 1) = List.range' 0 d.tree.size :=
      d.arena.walk_of_layout d.tree [] [] rfl (by simp [stored])
    rwa [Nat.zero_add, ← last, Nat.add_sub_cancel, last, ← size, ← List.range_eq_range'] at whole
  refine ⟨walk, d.arena.ordered, last.trans size.symm, d.arena.bounded,
    normal.type.isKind_member, ?_⟩
  intro i hi
  have met : i ∈ d.arena.walk d.root := by rw [walk]; exact List.mem_range.2 hi
  have start : (d.arena.tree d.root).TypeOrMember := .inl normal.type
  exact (d.arena.forall_mem_walk (fun _ => Tree.TypeOrMember.of_mem_children) start i met).shaped

/-- A shape with an optional member of a union type, or null. -/
theorem compact_nullable_shape :
    ∃ d : Descriptor 8, (do
      let text ← ofKind 8 .string
      let either ← union [text, ← ofKind 8 .number, text]
      let member ← Member.make (.ofString "a") either ⟨false, true, 0⟩
      (← object 8 [member]).nullable) = .ok d ∧ d.Compact := by
  refine exists_ok (by decide +kernel) fun d made => Reachable.compact (Gives.holds made ?_)
  refine .bind (.kind rfl) fun text ht => .bind (.kind rfl) fun number hn => ?_
  refine .bind (.union (by simp [ht, hn])) fun either he => .bind (.make he) fun member hm => ?_
  exact .bind (.object (List.forall_mem_singleton.2 hm)) fun shape hs _ => .nullable hs

end Descriptor

end StructuralTypes
