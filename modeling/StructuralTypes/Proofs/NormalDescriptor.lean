import StructuralTypes.Descriptor.Shape
import StructuralTypes.HostType
import StructuralTypes.Proofs.ShapeNormalForm
import StructuralTypes.Proofs.UnionNormalForm

/-!
# Descriptors of normal types

Every operation on descriptors makes a normal type of normal types and lays it out anew, and so does
the description of a host type.
-/

namespace StructuralTypes

/-- Repetitions are found. -/
theorem Name.nodup_of_firstRepeat? {names : List Name} (h : firstRepeat? names = none) :
    names.Nodup := by
  suffices all : ∀ seen, firstRepeat?.go seen names = none →
      names.Nodup ∧ ∀ n ∈ names, n ∉ seen from (all [] h).1
  clear h
  induction names with
  | nil => simp
  | cons n ns ih =>
      intro seen h
      rw [firstRepeat?.go] at h
      split at h
      · cases h
      · next fresh =>
        obtain ⟨nodup, unseen⟩ := ih (n :: seen) h
        simp only [List.contains_iff_mem] at fresh
        refine ⟨List.nodup_cons.2 ⟨fun again => unseen n again List.mem_cons_self, nodup⟩, ?_⟩
        intro m hm
        rcases List.mem_cons.1 hm with rfl | hm
        · exact fresh
        · exact fun known => unseen m hm (List.mem_cons_of_mem _ known)

namespace Descriptor

/-- A normal type, stored without any other nodes. -/
structure Normal {cap : Nat} (d : Descriptor cap) : Prop where
  laidOut : ofTree cap d.tree = .ok d
  type : d.tree.Normal

section Constructors

variable {cap : Nat} {d : Descriptor cap}

theorem normal_ofTree {t : Tree} (h : t.Normal) (made : ofTree cap t = .ok d) : d.Normal := by
  have same := tree_of_ofTree made
  exact ⟨by rw [same, made], by rw [same]; exact h⟩

theorem tree_of_ofNode {head : Head} {children : List Tree}
    (made : ofNode cap head children = .ok d) :
    children.length ≤ 16 ∧ d.tree = .node head children := by
  rw [ofNode] at made
  split at made
  · cases made
  · next room => exact ⟨Nat.not_lt.1 room, tree_of_ofTree made⟩

/-- A node of at most 16 children is laid out. -/
theorem normal_ofNode {head : Head} {children : List Tree}
    (h : children.length ≤ 16 → (Tree.node head children).Normal)
    (made : ofNode cap head children = .ok d) : d.Normal := by
  rw [ofNode] at made
  split at made
  · cases made
  · next room => exact normal_ofTree (h (Nat.not_lt.1 room)) made

theorem normal_ofKind {kind : Kind} (h : kind.isPrimitive = true)
    (made : ofKind cap kind = .ok d) : d.Normal :=
  normal_ofTree (.primitive h) made

theorem normal_leaf {head : Head} (h : head.Literal) (made : leaf cap head = .ok d) : d.Normal :=
  normal_ofTree (.literal h) made

/-- A canonical spelling is its own canonical spelling. -/
theorem normal_numberLiteral {spelling : Text} (made : numberLiteral cap spelling = .ok d) :
    d.Normal := by
  obtain ⟨name, canonical, made⟩ := bind_eq_ok made
  exact normal_leaf (.number (Numeral.canonical_idempotent canonical)) made

theorem normal_integerLiteral {v : Int} (made : integerLiteral cap v = .ok d) : d.Normal :=
  normal_numberLiteral made

theorem normal_stringLiteral {text : Text} (made : stringLiteral cap text = .ok d) : d.Normal := by
  obtain ⟨name, -, made⟩ := bind_eq_ok made
  exact normal_leaf (.string name) made

theorem normal_booleanLiteral {value : Bool} (made : booleanLiteral cap value = .ok d) :
    d.Normal := by
  obtain ⟨name, spelled, made⟩ := bind_eq_ok made
  exact normal_leaf (.boolean value (Name.ofText_eq_ok_iff.1 spelled)) made

theorem normal_trees {operands : List (Descriptor cap)} (h : ∀ o ∈ operands, o.Normal) :
    ∀ t ∈ operands.map tree, t.Normal := by
  intro t ht
  obtain ⟨o, ho, rfl⟩ := List.mem_map.1 ht
  exact (h o ho).type

/-- Functions and constructors take normal types. -/
theorem normal_signature {kind : Kind} (h : kind.isSignature = true) {first : Descriptor cap}
    {rest : List (Descriptor cap)} (hf : first.Normal) (hr : ∀ p ∈ rest, p.Normal)
    (made : make (.ofKind kind) (first :: rest) = .ok d) : d.Normal := by
  apply normal_ofNode _ made
  intro bounded
  exact .signature h (List.cons_ne_nil _ _) bounded
    (normal_trees (List.forall_mem_cons.2 ⟨hf, hr⟩))

theorem normal_array {element : Descriptor cap} (h : element.Normal)
    (made : element.array = .ok d) : d.Normal := by
  rw [array, make] at made
  apply normal_ofNode _ made
  intro _
  exact .array h.type

/-- The alternatives of the operands are normal types, whatever the union of the operands looks like
before it is normalized. -/
theorem normal_union {operands : List (Descriptor cap)} (h : ∀ o ∈ operands, o.Normal)
    (made : union operands = .ok d) : d.Normal := by
  obtain ⟨raw, collected, made⟩ := bind_eq_ok made
  obtain ⟨t, normalized, made⟩ := bind_eq_ok made
  obtain ⟨-, shape⟩ := tree_of_ofNode collected
  refine normal_ofTree (Tree.normal_normalized ?_ normalized) made
  intro a ha
  rw [shape, Tree.alternatives_eq, if_pos (by simp)] at ha
  obtain ⟨t, ht, ha⟩ := List.mem_flatMap.1 ha
  exact (normal_trees h t ht).of_mem_alternatives ha

end Constructors

end Descriptor

/-- A member with a key, no other modifiers than the two, and a normal type. -/
structure Member.Normal {cap : Nat} (m : Member cap) : Prop where
  key : m.key.text ≠ []
  bits : m.modifiers.reserved = 0
  type : m.type.Normal

namespace Member

variable {cap : Nat} {m : Member cap}

theorem type_of_make {key : Text} {type : Descriptor cap} {modifiers : Modifiers}
    (made : make key type modifiers = .ok m) : m.type = type := by
  rw [make] at made
  split at made
  · cases made
  · obtain ⟨name, -, made⟩ := bind_eq_ok made
    cases made
    rfl

theorem normal_make {key : Text} {type : Descriptor cap} {modifiers : Modifiers}
    (bits : modifiers.reserved = 0) (h : type.Normal) (made : make key type modifiers = .ok m) :
    m.Normal := by
  rw [make] at made
  split at made
  · cases made
  · next nonempty =>
    obtain ⟨name, spelled, made⟩ := bind_eq_ok made
    cases made
    refine ⟨?_, bits, h⟩
    rw [Name.ofText_eq_ok_iff.1 spelled]
    simpa using nonempty

theorem Normal.isMember (h : m.Normal) : m.tree.IsMember := ⟨rfl, h.key, h.bits, rfl⟩

end Member

namespace Descriptor

section Operations

variable {cap : Nat} {d e : Descriptor cap}

/-- The members make a normal object, because their keys are compared before. -/
theorem normal_object {members : List (Member cap)} (h : ∀ m ∈ members, m.Normal)
    (made : object cap members = .ok d) : d.Normal := by
  rw [object] at made
  split at made
  · cases made
  · next fresh =>
    apply normal_ofNode _ made
    intro bounded
    refine .object bounded ?_ ?_ ?_
    · exact List.forall_mem_map.2 fun m hm => (h m hm).isMember
    · rw [List.map_map]
      exact Name.nodup_of_firstRepeat? fresh
    · exact List.forall_mem_map.2 fun m hm => (h m hm).type.type

theorem tree_of_object {members : List (Member cap)} (made : object cap members = .ok d) :
    d.tree = .node (.ofKind .object) (members.map Member.tree) := by
  rw [object] at made
  split at made
  · cases made
  · exact (tree_of_ofNode made).2

theorem normal_nullable (h : d.Normal) (made : d.nullable = .ok e) : e.Normal := by
  obtain ⟨null, hn, made⟩ := bind_eq_ok made
  apply normal_union _ made
  simp only [List.forall_mem_cons]
  exact ⟨h, normal_ofKind rfl hn, by simp⟩

theorem normal_nullish (h : d.Normal) (made : d.nullish = .ok e) : e.Normal := by
  obtain ⟨null, hn, made⟩ := bind_eq_ok made
  obtain ⟨undefined, hu, made⟩ := bind_eq_ok made
  apply normal_union _ made
  simp only [List.forall_mem_cons]
  exact ⟨h, normal_ofKind rfl hn, normal_ofKind rfl hu, by simp⟩

theorem normal_falsy (made : falsy cap = .ok d) : d.Normal := by
  obtain ⟨text, ht, made⟩ := bind_eq_ok made
  obtain ⟨zero, hz, made⟩ := bind_eq_ok made
  obtain ⟨false, hf, made⟩ := bind_eq_ok made
  obtain ⟨null, hn, made⟩ := bind_eq_ok made
  obtain ⟨undefined, hu, made⟩ := bind_eq_ok made
  apply normal_union _ made
  simp only [List.forall_mem_cons]
  exact ⟨normal_stringLiteral ht, normal_integerLiteral hz, normal_booleanLiteral hf,
    normal_ofKind rfl hn, normal_ofKind rfl hu, by simp⟩

theorem normal_primitive (made : primitive cap = .ok d) : d.Normal := by
  obtain ⟨all, ha, made⟩ := bind_eq_ok made
  have known : ∀ kind ∈ [Kind.bigint, .boolean, .null, .number, .string, .symbol, .undefined],
      kind.isPrimitive = true := by decide
  exact normal_union (Gives.mapM (fun kind hk _ => normal_ofKind (known kind hk)) all ha) made

theorem normal_arrayItem (h : d.Normal) (made : d.arrayItem = .ok e) : e.Normal := by
  rw [arrayItem] at made
  split at made
  · next k => exact normal_ofTree (h.type.element k).2 made
  · cases made

theorem normal_child (h : d.Normal)
    (signature : d.tree.isKind .fn = true ∨ d.tree.isKind .ctor = true) {i : Nat}
    (made : d.child? i = some (.ok e)) : e.Normal := by
  obtain ⟨t, ht, made⟩ := Option.map_eq_some_iff.1 made
  have inside := List.mem_of_getElem? ht
  rcases signature with k | k
  · exact normal_ofTree ((h.type.parts rfl k).2.2 t inside) made
  · exact normal_ofTree ((h.type.parts rfl k).2.2 t inside) made

theorem normal_exclude (h : d.Normal) {other : Descriptor cap} (made : d.exclude other = .ok e) :
    e.Normal :=
  normal_ofTree (h.type.exclude other.tree) made

theorem normal_nonUndefined (h : d.Normal) (made : d.nonUndefined = .ok e) : e.Normal := by
  obtain ⟨undefined, -, made⟩ := bind_eq_ok made
  exact normal_exclude h made

/-- A transformation that keeps types normal keeps descriptors normal. -/
theorem normal_transform {f : Tree → Except Fault Tree} (h : ∀ u, f d.tree = .ok u → u.Normal)
    (made : d.transform f = .ok e) : e.Normal := by
  obtain ⟨u, hu, made⟩ := bind_eq_ok made
  exact normal_ofTree (h u hu) made

theorem normal_declaredType (h : d.Normal) {key : Text} (made : d.declaredType key = .ok e) :
    e.Normal :=
  normal_transform (fun _ => h.type.declaredType) made

theorem normal_propertyType (h : d.Normal) {key : Text} (made : d.propertyType key = .ok e) :
    e.Normal := by
  obtain ⟨declared, hd, made⟩ := bind_eq_ok made
  obtain ⟨modifiers, -, made⟩ := bind_eq_ok made
  have normal := normal_declaredType h hd
  split at made
  · obtain ⟨undefined, hu, made⟩ := bind_eq_ok made
    apply normal_union _ made
    simp only [List.forall_mem_cons]
    exact ⟨normal, normal_ofKind rfl hu, by simp⟩
  · cases made
    exact normal

theorem normal_slice (h : d.Normal) {key : Text} (made : d.slice key = .ok e) : e.Normal :=
  normal_transform (fun _ => h.type.slice) made

theorem normal_pick (h : d.Normal) (object : d.tree.isKind .object = true) {keys : KeySet}
    (made : d.pick keys = .ok e) : e.Normal :=
  normal_transform (fun _ => h.type.pick object) made

theorem normal_drop (h : d.Normal) (object : d.tree.isKind .object = true) {keys : KeySet}
    (made : d.drop keys = .ok e) : e.Normal :=
  normal_transform (fun _ => h.type.drop object) made

theorem normal_withOptional (h : d.Normal) (object : d.tree.isKind .object = true) {keys : KeySet}
    (made : d.withOptional keys = .ok e) : e.Normal :=
  normal_transform (fun _ => h.type.withOptional object) made

theorem normal_mutableProjection (h : d.Normal) (made : d.mutableProjection = .ok e) : e.Normal :=
  normal_transform (fun _ => h.type.mutableProjection) made

/-- The required keys of a type are looked up first, which no type but an object survives. -/
theorem normal_pickRequired (h : d.Normal) (made : d.pickRequired = .ok e) : e.Normal := by
  obtain ⟨keys, selected, made⟩ := bind_eq_ok made
  obtain ⟨all, known, -⟩ := bind_eq_ok selected
  obtain ⟨done, object, -⟩ := bind_eq_ok known
  exact normal_pick h (Tree.requireObject_eq_ok_iff.1 object) made

theorem normal_resize (h : d.Normal) {capacity : Nat} {e : Descriptor capacity}
    (made : d.resize capacity = .ok e) : e.Normal :=
  normal_ofTree h.type made

end Operations

end Descriptor

namespace HostType

open Descriptor

variable {cap : Nat}

mutual

/-- The description of a host type is built by the operations above. -/
theorem normal_describe (t : HostType) {d : Descriptor cap} (made : t.describe cap = .ok d) :
    d.Normal := by
  match t with
  | bool | arithmetic | string | stringView | charPointer | void | nullptr | monostate | nullopt =>
    rw [describe] at made
    exact normal_ofKind rfl made
  | const t | volatile t | lvalueReference t | rvalueReference t =>
    rw [describe] at made
    exact normal_describe t made
  | optional value =>
    rw [describe] at made
    obtain ⟨inner, hi, made⟩ := bind_eq_ok made
    obtain ⟨undefined, hu, made⟩ := bind_eq_ok made
    apply normal_union _ made
    simp only [List.forall_mem_cons]
    exact ⟨normal_describe value hi, normal_ofKind rfl hu, by simp⟩
  | variant first [] =>
    rw [describe] at made
    exact normal_describe first made
  | variant first (next :: rest) =>
    rw [describe] at made
    · obtain ⟨d, hd, made⟩ := bind_eq_ok made
      obtain ⟨ds, hds, made⟩ := bind_eq_ok made
      have each := List.forall_mem_cons.2
        ⟨normal_describe first hd, normal_describeAll (next :: rest) hds⟩
      exact normal_union each made
    · exact List.cons_ne_nil next rest
  | vector element | array element _ =>
    rw [describe] at made
    obtain ⟨d, hd, made⟩ := bind_eq_ok made
    exact normal_array (normal_describe element hd) made
  | function result arguments | functionPointer _ result arguments =>
    rw [describe] at made
    obtain ⟨d, hd, made⟩ := bind_eq_ok made
    obtain ⟨ds, hds, made⟩ := bind_eq_ok made
    exact normal_signature rfl (normal_describe result hd) (normal_describeAll arguments hds) made
  | record fields =>
    rw [describe] at made
    obtain ⟨members, hm, made⟩ := bind_eq_ok made
    exact normal_object (normal_describeFields fields hm) made
termination_by sizeOf t

theorem normal_describeAll (ts : List HostType) {ds : List (Descriptor cap)}
    (made : describeAll cap ts = .ok ds) : ∀ d ∈ ds, d.Normal := by
  match ts with
  | [] =>
    rw [describeAll] at made
    cases made
    simp
  | t :: ts =>
    rw [describeAll] at made
    obtain ⟨d, hd, made⟩ := bind_eq_ok made
    obtain ⟨ds, hds, made⟩ := bind_eq_ok made
    cases made
    exact List.forall_mem_cons.2 ⟨normal_describe t hd, normal_describeAll ts hds⟩
termination_by sizeOf ts

theorem normal_describeField (f : HostField) {m : Member cap}
    (made : describeField cap f = .ok m) : m.Normal := by
  match f with
  | .data key type =>
    rw [describeField] at made
    obtain ⟨d, hd, made⟩ := bind_eq_ok made
    exact Member.normal_make rfl (normal_describe type.valueType hd) made
  | .method key _ result arguments =>
    rw [describeField] at made
    obtain ⟨d, hd, made⟩ := bind_eq_ok made
    obtain ⟨ds, hds, made⟩ := bind_eq_ok made
    obtain ⟨type, ht, made⟩ := bind_eq_ok made
    have normal := normal_signature rfl (normal_describe result hd)
      (normal_describeAll arguments hds) ht
    exact Member.normal_make rfl normal made
termination_by sizeOf f
decreasing_by
  · have := type.sizeOf_valueType_le
    simp only [HostField.data.sizeOf_spec]
    omega
  all_goals
    simp only [HostField.method.sizeOf_spec]
    omega

theorem normal_describeFields (fs : List HostField) {ms : List (Member cap)}
    (made : describeFields cap fs = .ok ms) : ∀ m ∈ ms, m.Normal := by
  match fs with
  | [] =>
    rw [describeFields] at made
    cases made
    simp
  | f :: fs =>
    rw [describeFields] at made
    obtain ⟨m, hm, made⟩ := bind_eq_ok made
    obtain ⟨ms, hms, made⟩ := bind_eq_ok made
    cases made
    exact List.forall_mem_cons.2 ⟨normal_describeField f hm, normal_describeFields fs hms⟩
termination_by sizeOf fs

end

end HostType

end StructuralTypes
