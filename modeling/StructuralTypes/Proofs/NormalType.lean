import StructuralTypes.Proofs.CanonicalNumeral
import StructuralTypes.Tree.Category
import StructuralTypes.Tree.Shape

/-!
# Types in normal form

A normal type has the nodes that its kinds call for: unions of several distinct alternatives that
are no unions themselves, objects whose children are members with distinct keys, and members nowhere
else. The operations on trees take normal types to normal types.
-/

namespace StructuralTypes

namespace Kind

/-- The kinds of types that are a single node without a name. -/
def isPrimitive : Kind → Bool
  | number | string | boolean | bigint | symbol | void | null | undefined | unknown | never
  | function => true
  | _ => false

/-- The kinds of types with parameters. -/
def isSignature : Kind → Bool
  | fn | ctor => true
  | _ => false

end Kind

/-- The heads of literal types. Numbers are spelled canonically. -/
inductive Head.Literal : Head → Prop
  | number {name : Name} (canonical : Numeral.canonical name.text = .ok name) :
      Literal ⟨Kind.numberLiteral, name, .none⟩
  | string (name : Name) : Literal ⟨Kind.stringLiteral, name, .none⟩
  | boolean {name : Name} (value : Bool)
      (spelled : name.text = .ofString (if value then "true" else "false")) :
      Literal ⟨Kind.booleanLiteral, name, .none⟩

namespace Tree

/-- The node of a member: it has a key, one declared type, and at most the two modifiers that mean
something. -/
structure IsMember (m : Tree) : Prop where
  tag : m.tag = .known .member
  key : m.name.text ≠ []
  bits : m.modifiers.reserved = 0
  type : m.children = [m.first]

theorem IsMember.below {m : Tree} (h : m.IsMember) : m.children ≠ [] := by
  rw [h.type]
  exact List.cons_ne_nil _ _

/-- A type that may stand beside others in a union. -/
structure IsAlternative (t : Tree) : Prop where
  noUnion : t.isKind .union = false
  notNever : t.isKind .never = false
  notUnknown : t.isKind .unknown = false

/-- No two of some types are equal. -/
def Distinct (ts : List Tree) : Prop := ts.Pairwise fun a b => a.equiv b = false

/-- Types in normal form. -/
inductive Normal : Tree → Prop
  | primitive {kind : Kind} (h : kind.isPrimitive = true) : Normal (ofKind kind)
  | literal {head : Head} (h : head.Literal) : Normal (node head [])
  | signature {kind : Kind} {types : List Tree} (h : kind.isSignature = true)
      (result : types ≠ []) (bounded : types.length ≤ 16) (normal : ∀ t ∈ types, Normal t) :
      Normal (node (.ofKind kind) types)
  | array {element : Tree} (normal : Normal element) : Normal (node (.ofKind .array) [element])
  | union {alternatives : List Tree} (several : 2 ≤ alternatives.length)
      (bounded : alternatives.length ≤ 16) (distinct : Distinct alternatives)
      (proper : ∀ a ∈ alternatives, a.IsAlternative) (normal : ∀ a ∈ alternatives, Normal a) :
      Normal (node (.ofKind .union) alternatives)
  | object {members : List Tree} (bounded : members.length ≤ 16)
      (shaped : ∀ m ∈ members, m.IsMember) (keys : (members.map name).Nodup)
      (normal : ∀ m ∈ members, Normal m.first) : Normal (ofMembers members)

/-- What the children of a normal object satisfy. -/
structure NormalMembers (members : List Tree) : Prop where
  bounded : members.length ≤ 16
  shaped : ∀ m ∈ members, m.IsMember
  keys : (members.map name).Nodup
  normal : ∀ m ∈ members, Normal m.first

/-- What the children of a normal union satisfy, apart from there being several. -/
structure NormalAlternatives (alternatives : List Tree) : Prop where
  bounded : alternatives.length ≤ 16
  distinct : Distinct alternatives
  proper : ∀ a ∈ alternatives, a.IsAlternative
  normal : ∀ a ∈ alternatives, Normal a

/-- What the children of a normal node of a kind satisfy. -/
def NormalChildren (children : List Tree) : Kind → Prop
  | .fn | .ctor => children ≠ [] ∧ children.length ≤ 16 ∧ ∀ c ∈ children, Normal c
  | .array => ∃ element, children = [element] ∧ Normal element
  | .union => 2 ≤ children.length ∧ NormalAlternatives children
  | .object => NormalMembers children
  | .member => False
  | _ => children = []

section Kinds

@[simp] theorem isKind_node (head : Head) (children : List Tree) (kind : Kind) :
    (node head children).isKind kind = (head.tag == .known kind) := rfl

@[simp] theorem tag_ofKind (kind : Kind) : (Head.ofKind kind).tag = .known kind := rfl

@[simp] theorem tag_node (head : Head) (children : List Tree) :
    (node head children).tag = head.tag := rfl

theorem isKind_iff {t : Tree} {kind : Kind} : t.isKind kind = true ↔ t.tag = .known kind := by
  simp [isKind]

/-- A tree is of one kind at most. -/
theorem isKind_eq_false {t : Tree} {kind other : Kind} (h : t.isKind kind = true)
    (different : kind ≠ other) : t.isKind other = false := by
  rw [isKind_iff] at h
  simp [isKind, h, different]

end Kinds

namespace Normal

variable {t : Tree}

/-- The head of a normal type other than a literal is that of its kind. -/
theorem head_eq (h : t.Normal) {kind : Kind} (k : t.isKind kind = true)
    (unnamed : kind.isLiteral = false) : t.head = .ofKind kind := by
  rw [isKind_iff] at k
  cases h with
  | literal literal =>
      cases literal <;> cases k <;> cases unnamed
  | _ =>
      cases k
      rfl

/-- The children of a normal type are those of its kind. -/
theorem normalChildren (h : t.Normal) {kind : Kind} (k : t.isKind kind = true) :
    NormalChildren t.children kind := by
  rw [isKind_iff] at k
  cases h with
  | primitive h =>
      cases k
      cases kind <;> first | rfl | cases h
  | literal h => cases h <;> cases k <;> rfl
  | signature h result bounded normal =>
      cases k
      cases kind <;> first | exact ⟨result, bounded, normal⟩ | cases h
  | array normal =>
      cases k
      exact ⟨_, rfl, normal⟩
  | union several bounded distinct proper normal =>
      cases k
      exact ⟨several, bounded, distinct, proper, normal⟩
  | object bounded shaped keys normal =>
      cases k
      exact ⟨bounded, shaped, keys, normal⟩

/-- A normal type is no member. -/
theorem isKind_member (h : t.Normal) : t.isKind .member = false := by
  by_contra k
  exact h.normalChildren (Bool.eq_true_of_not_eq_false k)

theorem members (h : t.Normal) (k : t.isKind .object = true) : NormalMembers t.children :=
  h.normalChildren k

theorem several (h : t.Normal) (k : t.isKind .union = true) : 2 ≤ t.children.length :=
  (h.normalChildren k).1

theorem alternatives (h : t.Normal) (k : t.isKind .union = true) : NormalAlternatives t.children :=
  (h.normalChildren k).2

theorem parts (h : t.Normal) {kind : Kind} (signature : kind.isSignature = true)
    (k : t.isKind kind = true) :
    t.children ≠ [] ∧ t.children.length ≤ 16 ∧ ∀ c ∈ t.children, c.Normal := by
  have below := h.normalChildren k
  cases kind <;> first | exact below | cases signature

/-- The element type of a normal array type. -/
theorem element (h : t.Normal) (k : t.isKind .array = true) :
    t.children = [t.first] ∧ t.first.Normal := by
  obtain ⟨element, only, normal⟩ := h.normalChildren k
  rw [first, first?, only]
  exact ⟨rfl, normal⟩

/-- Every normal type has a kind. -/
theorem exists_kind (h : t.Normal) : ∃ kind, t.isKind kind = true := by
  cases h with
  | @primitive kind => exact ⟨kind, by simp [ofKind]⟩
  | literal h => cases h <;> exact ⟨_, isKind_iff.2 rfl⟩
  | @signature kind => exact ⟨kind, by simp⟩
  | array => exact ⟨.array, rfl⟩
  | union => exact ⟨.union, rfl⟩
  | object => exact ⟨.object, rfl⟩

end Normal

end Tree

end StructuralTypes
