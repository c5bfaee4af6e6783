import StructuralTypes.Proofs.MemberModifiers
import StructuralTypes.Proofs.ObjectRoundTrip
import StructuralTypes.Proofs.PropertyType

/-!
# Records of the host

That a data member is optional is told in two ways: the member of an optional field is marked and
has the type of the value, while an optional type on its own is a union with `undefined`. Reading
the member brings the two together again. Qualifiers around the optional make no difference to
either, and a method is a read-only function however it is qualified.
-/

namespace StructuralTypes

namespace Tree

/-- A function is never `undefined`. -/
theorem not_assignable_undefined_of_fn {t : Tree} (k : t.isKind .fn = true) :
    t.assignable (ofKind .undefined) = false := by
  obtain ⟨⟨tag, name, modifiers⟩, children⟩ := t
  obtain rfl : tag = .known .fn := isKind_iff.1 k
  have different :
      (node ⟨.known .fn, name, modifiers⟩ children).equiv (ofKind .undefined) = false := by
    by_contra same
    have kinds := isKind_eq_of_equiv (Bool.eq_true_of_not_eq_false same) .fn
    cases k.symm.trans kinds
  rw [assignable_eq, different, structureAssignable_eq]
  rfl

/-- A function is callable, apart from `undefined` as on its own. -/
theorem isCallable_nonUndefined_of_fn {t : Tree} (k : t.isKind .fn = true) :
    t.nonUndefined.isCallable = true := by
  have single : t.isKind .union = false := isKind_eq_false k (by decide)
  have inhabited : t.isKind .never = false := isKind_eq_false k (by decide)
  have whole : t.nonUndefined = t := by
    rw [nonUndefined, exclude, single, inhabited, not_assignable_undefined_of_fn k]
    rfl
  have called : t.assignable (ofKind .function) = true :=
    assignable_of_kinds k (isKind_iff.2 rfl) (by decide) (by decide)
      (by decide : Kind.function ≠ .union) (.inr (.callable rfl k (isKind_iff.2 rfl)))
  rw [whole, isCallable, inhabited, called]
  rfl

end Tree

namespace HostField

/-- A method, or a data member of a constant type. -/
def isReadOnly : HostField → Bool
  | data _ type => type.isConst
  | method _ _ _ _ => true

/-- A data member of an optional type. -/
def isOptional : HostField → Bool
  | data _ type => type.isOptional
  | method _ _ _ _ => false

/-- The modifiers of the member of a field. -/
def modifiers (f : HostField) : Modifiers := ⟨f.isReadOnly, f.isOptional, 0⟩

/-- The declared type of the member of a field. -/
def declaredType (cap : Nat) : HostField → Except Fault (Descriptor cap)
  | data _ type => type.valueType.describe cap
  | method _ _ result arguments => do
    Descriptor.fn (← result.describe cap) (← HostType.describeAll cap arguments)

end HostField

namespace HostType

open HostField (data method)

variable {cap : Nat} {d : Descriptor cap} {fields : List HostField}

section Describing

/-- Qualifiers at the top of a type make no difference to its description. -/
theorem describe_unqualified (t : HostType) : t.unqualified.describe cap = t.describe cap := by
  fun_induction unqualified t with
  | case1 t ih => rw [ih, describe]
  | case2 t ih => rw [ih, describe]
  | case3 t _ _ => rfl

/-- An optional type is the union of its value type and `undefined`. -/
theorem describe_eq_valueType (t : HostType) :
    t.describe cap = if t.isOptional then
      (do Descriptor.union [← t.valueType.describe cap, ← Descriptor.ofKind cap .undefined])
    else t.valueType.describe cap := by
  rw [← t.describe_unqualified, isOptional, valueType]
  split
  · next value optional =>
    rw [optional, describe]
    rfl
  · rfl

/-- The member of a field is made of the key, the declared type and the modifiers of the field. -/
theorem describeField_eq (f : HostField) :
    describeField cap f = (do Member.make f.key (← f.declaredType cap) f.modifiers) := by
  cases f with
  | data key type =>
      rw [describeField]
      rfl
  | method key _ result arguments =>
      rw [describeField]
      simp only [HostField.declaredType, bind_assoc]
      rfl

theorem describeAll_eq_mapM (ts : List HostType) : describeAll cap ts = ts.mapM (describe cap) := by
  induction ts with
  | nil =>
      rw [describeAll]
      rfl
  | cons t ts ih => rw [describeAll, List.mapM_cons, ih]

theorem describeFields_eq_mapM (fs : List HostField) :
    describeFields cap fs = fs.mapM (describeField cap) := by
  induction fs with
  | nil =>
      rw [describeFields]
      rfl
  | cons f fs ih => rw [describeFields, List.mapM_cons, ih]

end Describing

/-- The member was made of the field. -/
structure MadeOf (f : HostField) (m : Member cap) : Prop where
  key : m.key.text = f.key
  type : f.declaredType cap = .ok m.type
  modifiers : m.modifiers = f.modifiers
  normal : m.type.Normal

theorem madeOf_of_describeField {f : HostField} {m : Member cap}
    (made : describeField cap f = .ok m) : MadeOf f m := by
  have normal := normal_describeField f made
  rw [describeField_eq] at made
  obtain ⟨type, known, made⟩ := bind_eq_ok made
  obtain ⟨key, rest⟩ := Prod.mk.inj (Member.make_eq_ok_iff.1 made).2
  obtain ⟨rfl, modifiers⟩ := Prod.mk.inj rest
  exact ⟨key, known, modifiers, normal.type⟩

/-- Members are chosen by what they were made of, in the order of the fields. -/
theorem names_filter {members : List (Member cap)} (fit : List.Forall₂ MadeOf fields members)
    {p : Tree → Bool} {q : HostField → Bool}
    (same : ∀ f (m : Member cap), MadeOf f m → p m.tree = q f) :
    (((members.map Member.tree).filter p).map Tree.name).map Name.text =
      (fields.filter q).map HostField.key := by
  induction fit with
  | nil => rfl
  | cons first _ ih =>
      rw [List.map_cons, List.filter_cons, List.filter_cons, same _ _ first]
      split
      · rw [List.map_cons, List.map_cons, List.map_cons, ih]
        exact congrArg (· :: _) first.key
      · exact ih

/-- The shape of a record has the members of its fields. -/
theorem exists_members_of_record (made : (record fields).describe cap = .ok d) :
    ∃ members, List.Forall₂ MadeOf fields members ∧ members.length ≤ 16 ∧
      Descriptor.object cap members = .ok d := by
  have shape := (normal_describe _ made).type
  rw [describe, describeFields_eq_mapM] at made
  obtain ⟨members, described, made⟩ := bind_eq_ok made
  have few := (shape.members (Descriptor.isKind_of_object made)).bounded
  rw [Descriptor.children_of_object made, List.length_map] at few
  have each := mapM_eq_ok_iff.1 described
  exact ⟨members, each.imp fun _ _ => madeOf_of_describeField, few, made⟩

section Fields

variable {members : List (Member cap)} (made : Descriptor.object cap members = .ok d)

include made

/-- What a member was made of says what reading it gives. -/
theorem propertyType_of_madeOf {f : HostField} {m : Member cap} (hm : m ∈ members)
    (origin : MadeOf f m) : d.propertyType f.key = if f.isOptional then
      (do Descriptor.union [← f.declaredType cap, ← Descriptor.ofKind cap .undefined])
    else f.declaredType cap := by
  rw [← origin.key, Descriptor.propertyType,
    Descriptor.declaredType_of_object made hm origin.normal,
    Descriptor.memberModifiers_of_object made hm, origin.modifiers, origin.type]
  rfl

/-- A member that was made of a method is function-valued, for it is not optional. -/
theorem isFunctionValued_of_madeOf (normal : d.Normal) {key : Text} {qualifiers : Qualifiers}
    {result : HostType} {arguments : List HostType} {m : Member cap} (hm : m ∈ members)
    (origin : MadeOf (method key qualifiers result arguments) m) :
    d.isFunctionValued key = .ok true := by
  have object := Descriptor.isKind_of_object made
  have found : d.tree.find? key = some m.tree := by
    have known := Descriptor.find?_of_object made hm
    rwa [origin.key] at known
  have required : m.modifiers.optional = false := congrArg Modifiers.optional origin.modifiers
  have roomy : ¬ d.Overfull key := by
    rw [normal.overfull_iff object found]
    exact fun overfull => Bool.false_ne_true (required.symm.trans overfull.1)
  obtain ⟨r, -, type⟩ := bind_eq_ok origin.type
  obtain ⟨ps, -, type⟩ := bind_eq_ok type
  have function : m.type.tree.isKind .fn = true := by
    rw [(Descriptor.tree_of_ofNode type).2]
    rfl
  rw [normal.isFunctionValued_of_find? object found roomy]
  exact congrArg Except.ok (Tree.isCallable_nonUndefined_of_fn function)

end Fields

/-- The shape of a record agrees with its fields. It has their keys, in order; read-only are the
methods and the constant data members, and optional the data members of an optional type. A method
is function-valued, and its declared type is made of the descriptions of its result and of each of
its arguments. What reading a data member gives is the description of its type, node for node. -/
theorem describe_record_agrees (made : (record fields).describe cap = .ok d) :
    (∃ all, d.tree.keys = .ok all ∧ all.keys.map Name.text = fields.map HostField.key) ∧
    (∃ readonly, d.readonlyKeys = .ok readonly ∧
      readonly.keys.map Name.text = (fields.filter HostField.isReadOnly).map HostField.key) ∧
    (∃ optional, d.optionalKeys = .ok optional ∧
      optional.keys.map Name.text = (fields.filter HostField.isOptional).map HostField.key) ∧
    (∀ key qualifiers result arguments, method key qualifiers result arguments ∈ fields →
      d.isFunctionValued key = .ok true ∧
      ∃ r ps type, result.describe cap = .ok r ∧
        List.Forall₂ (fun t p => t.describe cap = .ok p) arguments ps ∧
        Descriptor.fn r ps = .ok type ∧ d.declaredType key = .ok type) ∧
    ∀ key type, data key type ∈ fields → d.propertyType key = type.describe cap := by
  have normal := normal_describe _ made
  obtain ⟨members, fit, few, made⟩ := exists_members_of_record made
  have object := Descriptor.isKind_of_object made
  have children := Descriptor.children_of_object made
  have found {m} (hm : m ∈ d.tree.children) := normal.type.find?_name object hm
  refine ⟨?_, ?_, ?_, fun key qualifiers result arguments hf => ?_, fun key type hf => ?_⟩
  · obtain ⟨all, known, keys⟩ := normal.type.exists_keys object
    refine ⟨all, known, ?_⟩
    have every := names_filter fit (p := fun _ => true) (q := fun _ => true) fun _ _ _ => rfl
    rw [List.filter_true, List.filter_true] at every
    rw [keys, Tree.names, children, every]
  · obtain ⟨readonly, selected, keys⟩ := normal.exists_selectKeys object fun m hm =>
      normal.isReadonly_of_find? object (found hm)
    refine ⟨readonly, selected, ?_⟩
    rw [keys, children]
    exact names_filter fit (p := fun m => m.modifiers.readOnly) (q := HostField.isReadOnly)
      fun _ _ origin => congrArg Modifiers.readOnly origin.modifiers
  · obtain ⟨optional, selected, keys⟩ := normal.exists_selectKeys object fun m hm =>
      normal.isOptional_of_find? object (found hm)
    refine ⟨optional, selected, ?_⟩
    rw [keys, children]
    exact names_filter fit (p := fun m => m.modifiers.optional) (q := HostField.isOptional)
      fun _ _ origin => congrArg Modifiers.optional origin.modifiers
  · obtain ⟨m, hm, origin⟩ := exists_mem_of_forall₂ fit hf
    refine ⟨isFunctionValued_of_madeOf made normal hm origin, ?_⟩
    obtain ⟨r, hr, type⟩ := bind_eq_ok origin.type
    obtain ⟨ps, hps, type⟩ := bind_eq_ok type
    rw [describeAll_eq_mapM] at hps
    refine ⟨r, ps, m.type, hr, mapM_eq_ok_iff.1 hps, type, ?_⟩
    rw [← Descriptor.declaredType_of_object made hm origin.normal, origin.key]
    rfl
  · obtain ⟨m, hm, origin⟩ := exists_mem_of_forall₂ fit hf
    have read := propertyType_of_madeOf made hm origin
    simp only [HostField.key, HostField.isOptional, HostField.declaredType] at read
    exact read.trans (describe_eq_valueType type).symm

/-- A constant optional of an optional, an optional of a variant with an optional, a record in a
record, and a method whose qualifiers do not count. -/
theorem describe_record_agrees_nested :
    let inner : HostType := .record [.data (.ofString "x") (.volatile .arithmetic)]
    let deep : HostType := .const (.optional (.optional .string))
    let either : HostType := .optional (.variant .bool [.optional .string, .nullptr])
    let fields : List HostField := [.data (.ofString "a") deep, .data (.ofString "b") either,
      .data (.ofString "c") inner, .method (.ofString "m") ⟨true, true⟩ inner [either]]
    ∃ d : Descriptor 32, (record fields).describe 32 = .ok d ∧
      d.propertyType (.ofString "a") = deep.describe 32 ∧
      d.propertyType (.ofString "b") = either.describe 32 ∧
      d.propertyType (.ofString "c") = inner.describe 32 ∧
      d.isFunctionValued (.ofString "m") = .ok true ∧
      ∃ readonly, d.readonlyKeys = .ok readonly ∧
        readonly.keys.map Name.text = [.ofString "a", .ofString "m"] := by
  intro inner deep either fields
  refine exists_ok (by decide +kernel) fun d made => ?_
  obtain ⟨-, readonly, -, methods, reading⟩ := describe_record_agrees made
  refine ⟨?_, ?_, ?_, ?_, readonly⟩
  · exact reading _ _ List.mem_cons_self
  · exact reading _ _ (List.mem_cons_of_mem _ List.mem_cons_self)
  · exact reading _ _ (List.mem_cons_of_mem _ (List.mem_cons_of_mem _ List.mem_cons_self))
  · exact (methods _ _ _ _ (List.mem_cons_of_mem _
      (List.mem_cons_of_mem _ (List.mem_cons_of_mem _ List.mem_cons_self)))).1

end HostType

end StructuralTypes
