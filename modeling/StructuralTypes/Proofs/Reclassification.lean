import StructuralTypes.Proofs.KeySetAlgebra
import StructuralTypes.Proofs.PropertyType
import StructuralTypes.Proofs.ShapeOrder

/-!
# Classes of members in transformed shapes

The keys of a shape are extracted by six classes of members. Which class a member is in depends on
its modifiers and its declared type alone, so a transformation moves exactly those members from
class to class whose modifiers it revises. Whether a member is function-valued does not depend on
its modifiers at all, since `undefined` is taken away again; but an optional member whose type is a
crowded union has no answer, and then the class has no extraction.
-/

namespace StructuralTypes

namespace Modifiers

variable (chosen : Bool) (m : Modifiers)

/-- What may be absent once a choice of members may be. -/
theorem optional_ite :
    (if chosen then { m with optional := true } else m).optional = (chosen || m.optional) := by
  cases chosen <;> rfl

theorem readOnly_ite : (if chosen then { m with optional := true } else m).readOnly = m.readOnly := by
  cases chosen <;> rfl

end Modifiers

/-- The classes of members that keys are extracted by. -/
inductive MemberClass
  | readonly
  | writable
  | optional
  | required
  | function
  | nonFunction
deriving DecidableEq

namespace MemberClass

/-- The classes that tell whether a member may be written to. -/
def aboutMutability : MemberClass → Bool
  | readonly | writable => true
  | _ => false

/-- The classes that tell whether a member may be absent. -/
def aboutPresence : MemberClass → Bool
  | optional | required => true
  | _ => false

/-- The classes that tell what reading a member gives. -/
def aboutValue : MemberClass → Bool
  | function | nonFunction => true
  | _ => false

/-- A member is in the class, by its modifiers and its declared type. -/
def holds (m : Tree) : MemberClass → Bool
  | readonly => m.modifiers.readOnly
  | writable => !m.modifiers.readOnly
  | optional => m.modifiers.optional
  | required => !m.modifiers.optional
  | function => m.first.nonUndefined.isCallable
  | nonFunction => !m.first.nonUndefined.isCallable

/-- The class has an answer for a member: reading it does not fail for want of alternatives. -/
def Answers (c : MemberClass) (m : Tree) : Prop :=
  c.aboutValue = true → m.modifiers.optional = true → ¬ m.first.Crowded

/-- Making members mutable, or letting them be absent, does not move a member between the classes
that tell something else. -/
theorem holds_withModifiers (c : MemberClass) (m : Tree) (modifiers : Modifiers)
    (mutability : c.aboutMutability = true → modifiers.readOnly = m.modifiers.readOnly)
    (presence : c.aboutPresence = true → modifiers.optional = m.modifiers.optional) :
    c.holds (m.withModifiers modifiers) = c.holds m := by
  cases c with
  | readonly => exact mutability rfl
  | writable => exact congrArg not (mutability rfl)
  | optional => exact presence rfl
  | required => exact congrArg not (presence rfl)
  | function => rfl
  | nonFunction => rfl

variable {c : MemberClass} (m : Tree)

theorem holds_mutable (other : c.aboutMutability = false) :
    c.holds (m.withModifiers { m.modifiers with readOnly := false }) = c.holds m := by
  refine c.holds_withModifiers m _ (fun about => ?_) fun _ => rfl
  rw [other] at about
  cases about

theorem holds_relaxed (other : c.aboutPresence = false) (chosen : Bool) :
    c.holds (m.withModifiers (if chosen then { m.modifiers with optional := true }
      else m.modifiers)) = c.holds m := by
  refine c.holds_withModifiers m _ (fun _ => Modifiers.readOnly_ite _ _) fun about => ?_
  rw [other] at about
  cases about

/-- A class that has an answer for a member that may be absent has one for the member as it was. -/
theorem Answers.of_relaxed {chosen : Bool}
    (answers : c.Answers (m.withModifiers (if chosen then { m.modifiers with optional := true }
      else m.modifiers))) : c.Answers m := by
  intro value optional
  apply answers value
  rw [Tree.modifiers_withModifiers, Modifiers.optional_ite, optional, Bool.or_true]

end MemberClass

namespace Descriptor

variable {cap : Nat} {d e : Descriptor cap}

/-- The keys of the members in a class. -/
def keysIn (d : Descriptor cap) : MemberClass → Except Fault KeySet
  | .readonly => d.readonlyKeys
  | .writable => d.writableKeys
  | .optional => d.optionalKeys
  | .required => d.requiredKeys
  | .function => d.functionKeys
  | .nonFunction => d.nonFunctionKeys

/-- The question about a key by which a class is extracted. -/
def asks (d : Descriptor cap) (c : MemberClass) (key : Text) : Except Fault Bool :=
  match c with
  | .readonly => d.isReadonly key
  | .writable => d.isWritable key
  | .optional => d.isOptional key
  | .required => d.isRequired key
  | .function => d.isFunctionValued key
  | .nonFunction => do return !(← d.isFunctionValued key)

theorem keysIn_eq_selectKeys (c : MemberClass) : d.keysIn c = d.selectKeys (d.asks c) := by
  cases c <;> rfl

/-- A selection succeeds only if the predicate has an answer for every member. -/
theorem Normal.answers_of_selectKeys (h : d.Normal) (object : d.tree.isKind .object = true)
    {p : Text → Except Fault Bool} {s : KeySet} (selected : d.selectKeys p = .ok s) :
    ∀ m ∈ d.tree.children, ∃ b, p m.name.text = .ok b := by
  intro m hm
  obtain ⟨all, known, keys⟩ := h.type.exists_keys object
  have asked : m.name ∈ all.keys := by
    rw [keys]
    exact List.mem_map_of_mem hm
  cases answer : p m.name.text with
  | ok b => exact ⟨b, rfl⟩
  | error fault =>
      obtain ⟨fault', failed⟩ := exists_filterM_eq_error (p := fun k : Name => p k.text) asked answer
      rw [selectKeys, known] at selected
      change (all.keys.filterM fun k : Name => p k.text) >>=
        (fun kept => KeySet.ofList (kept.map Name.text)) = .ok s at selected
      rw [failed] at selected
      cases selected

namespace Normal

variable (h : d.Normal) (object : d.tree.isKind .object = true)

include h object

/-- A class that has an answer for a member gives the one that the member itself gives. -/
theorem asks_of_answers (c : MemberClass) {m : Tree} (hm : m ∈ d.tree.children)
    (answers : c.Answers m) : d.asks c m.name.text = .ok (c.holds m) := by
  have found := h.type.find?_name object hm
  have valued (value : c.aboutValue = true) :
      d.isFunctionValued m.name.text = .ok m.first.nonUndefined.isCallable := by
    refine h.isFunctionValued_of_find? object found fun overfull => ?_
    obtain ⟨optional, crowded⟩ := (h.overfull_iff object found).1 overfull
    exact answers value optional crowded
  cases c with
  | readonly => exact h.isReadonly_of_find? object found
  | writable => exact h.isWritable_of_find? object found
  | optional => exact h.isOptional_of_find? object found
  | required => exact h.isRequired_of_find? object found
  | function => exact valued rfl
  | nonFunction =>
      rw [asks, valued rfl]
      rfl

/-- Reading an overfull member has no answer, and so the class has none. -/
theorem answers_of_asks (c : MemberClass) {m : Tree} (hm : m ∈ d.tree.children) {b : Bool}
    (answer : d.asks c m.name.text = .ok b) : c.Answers m := by
  intro value optional crowded
  have found := h.type.find?_name object hm
  have overfull := (h.overfull_iff object found).2 ⟨optional, crowded⟩
  have failed := (h.propertyType_eq_error_iff object found _).2 ⟨overfull, rfl⟩
  have unread : d.isFunctionValued m.name.text = .error .tooManyAlternatives := by
    rw [isFunctionValued, failed]
    rfl
  cases c with
  | function =>
      rw [asks, unread] at answer
      cases answer
  | nonFunction =>
      rw [asks, unread] at answer
      cases answer
  | _ => cases value

/-- A class is extracted exactly when it has an answer for every member, and then its keys are those
of the members in the class, in order. -/
theorem keysIn_eq_ok_iff (c : MemberClass) {s : KeySet} :
    d.keysIn c = .ok s ↔ (∀ m ∈ d.tree.children, c.Answers m) ∧
      s.keys = (d.tree.children.filter fun m => c.holds m).map Tree.name := by
  rw [keysIn_eq_selectKeys]
  constructor
  · intro selected
    have answers : ∀ m ∈ d.tree.children, c.Answers m := by
      intro m hm
      obtain ⟨b, answer⟩ := h.answers_of_selectKeys object selected m hm
      exact h.answers_of_asks object c hm answer
    obtain ⟨s', selected', keys⟩ := h.exists_selectKeys object fun m hm =>
      h.asks_of_answers object c hm (answers m hm)
    obtain rfl := Except.ok.inj (selected.symm.trans selected')
    exact ⟨answers, keys⟩
  · rintro ⟨answers, keys⟩
    obtain ⟨s', selected, keys'⟩ := h.exists_selectKeys object fun m hm =>
      h.asks_of_answers object c hm (answers m hm)
    rw [selected, KeySet.ext (keys'.trans keys.symm)]

/-- The classes that are told by modifiers are always extracted. -/
theorem exists_keysIn {c : MemberClass} (modifier : c.aboutValue = false) :
    ∃ s, d.keysIn c = .ok s ∧
      s.keys = (d.tree.children.filter fun m => c.holds m).map Tree.name := by
  obtain ⟨s, selected, keys⟩ := h.exists_selectKeys object fun m hm =>
    h.asks_of_answers object c hm fun value => by rw [modifier] at value; cases value
  exact ⟨s, (keysIn_eq_selectKeys c).trans selected, keys⟩

section Revisions

variable {kept : Tree → Bool} {f : Tree → Modifiers} (c : MemberClass) {s : KeySet}

omit h object in
/-- In a revision, a class has the kept members that are in it once their modifiers are revised. -/
theorem keysIn_revised_iff (same : e.tree = d.tree.revised kept f) (he : e.Normal) :
    e.keysIn c = .ok s ↔
      (∀ m ∈ d.tree.children, kept m = true → c.Answers (m.withModifiers (f m))) ∧
      s.keys = (d.tree.children.filter fun m => kept m && c.holds (m.withModifiers (f m))).map
        Tree.name := by
  have shape : e.tree.isKind .object = true := by rw [same]; rfl
  have members : e.tree.children =
      (d.tree.children.filter kept).map fun m => m.withModifiers (f m) := by rw [same]; rfl
  rw [he.keysIn_eq_ok_iff shape, members, List.forall_mem_map, List.filter_map, List.map_map,
    List.filter_filter]
  simp only [List.mem_filter, and_imp, Function.comp_def, Tree.name_withModifiers, Bool.and_comm]

/-- Members that are left out are left out of every class. -/
theorem keysIn_filter {p : Name → Bool}
    (same : e.tree = d.tree.revised (fun m => p m.name) Tree.modifiers) (he : e.Normal)
    (extracted : d.keysIn c = .ok s) : e.keysIn c = .ok (s.filter p) := by
  obtain ⟨answers, keys⟩ := (h.keysIn_eq_ok_iff object c).1 extracted
  apply (keysIn_revised_iff c same he).2
  constructor
  · intro m hm _
    rw [Tree.withModifiers_modifiers]
    exact answers m hm
  · simp only [Tree.withModifiers_modifiers]
    calc (s.filter p).keys
        = ((d.tree.children.filter fun m => c.holds m).map Tree.name).filter p :=
          congrArg (List.filter p) keys
      _ = ((d.tree.children.filter fun m => c.holds m).filter (p ∘ Tree.name)).map Tree.name :=
          List.filter_map
      _ = _ := by rw [List.filter_filter]; rfl

/-- A revision that keeps all members, and does not move them into a class or out of it, has the
same keys in the class. -/
theorem keysIn_of_revised (same : e.tree = d.tree.revised (fun _ => true) f) (he : e.Normal)
    (answers : ∀ m, c.Answers (m.withModifiers (f m)) → c.Answers m)
    (holds : ∀ m, c.holds (m.withModifiers (f m)) = c.holds m)
    (extracted : e.keysIn c = .ok s) : d.keysIn c = .ok s := by
  obtain ⟨revised, keys⟩ := (keysIn_revised_iff c same he).1 extracted
  apply (h.keysIn_eq_ok_iff object c).2
  refine ⟨fun m hm => answers m (revised m hm rfl), keys.trans ?_⟩
  simp only [holds, Bool.true_and]

end Revisions

/-- The union of the optional keys and a set of keys has the keys of the members that are optional
or have a key in the set. -/
theorem exists_union_optional {keys s : KeySet} (known : ∀ k ∈ keys.keys, k ∈ d.tree.names)
    (optional : s.keys = (d.tree.children.filter (·.modifiers.optional)).map Tree.name) :
    ∃ u, s.union keys = .ok u ∧ ∀ k, k ∈ u.keys ↔ k ∈ s.keys ∨ k ∈ keys.keys := by
  refine KeySet.exists_union_of_subset (h.type.length_names_le object) ?_ known
  rw [optional]
  exact (List.filter_sublist.map Tree.name).subset

section Mutable

variable
  (same : e.tree = d.tree.revised (fun _ => true) fun m => { m.modifiers with readOnly := false })
  (he : e.Normal)

include same he

omit h object in
/-- No member of a mutable projection is read-only. -/
theorem readonlyKeys_mutable : e.readonlyKeys = .ok .empty := by
  apply (keysIn_revised_iff .readonly same he).2
  refine ⟨fun _ _ _ => nofun, ?_⟩
  simp [MemberClass.holds, KeySet.empty]

/-- All members of a mutable projection are writable. -/
theorem writableKeys_mutable :
    ∃ all, d.tree.keys = .ok all ∧ e.writableKeys = .ok all := by
  obtain ⟨all, listed, names⟩ := h.type.exists_keys object
  refine ⟨all, listed, ?_⟩
  apply (keysIn_revised_iff .writable same he).2
  refine ⟨fun _ _ _ => nofun, ?_⟩
  simp [MemberClass.holds, names, Tree.names]

theorem keysIn_mutable_iff {c : MemberClass} (other : c.aboutMutability = false) {s : KeySet} :
    e.keysIn c = .ok s ↔ d.keysIn c = .ok s := by
  rw [keysIn_revised_iff c same he, h.keysIn_eq_ok_iff object c]
  simp only [c.holds_mutable _ other, Bool.true_and, forall_const]
  rfl

end Mutable

section Relaxed

variable {keys : KeySet}
  (same : e.tree = d.tree.revised (fun _ => true) fun m =>
    if keys.contains m.name.text then { m.modifiers with optional := true } else m.modifiers)
  (he : e.Normal)

include same he

/-- Members that are made optional join the optional ones. -/
theorem optionalKeys_relaxed (named : ∀ k ∈ keys.keys, k ∈ d.tree.names) :
    ∃ before united after, d.optionalKeys = .ok before ∧ before.union keys = .ok united ∧
      e.optionalKeys = .ok after ∧ after.same united = true := by
  obtain ⟨before, extracted, listed⟩ := h.exists_keysIn object (c := .optional) rfl
  obtain ⟨after, extracted', -⟩ := he.exists_keysIn (by rw [same]; rfl) (c := .optional) rfl
  obtain ⟨united, union, members⟩ := h.exists_union_optional object named listed
  -- The shape lists its keys in another order than the union, which appends the new ones.
  refine ⟨before, united, after, extracted, union, extracted', KeySet.same_of_mem_iff fun k => ?_⟩
  have listed' := ((keysIn_revised_iff .optional same he).1 extracted').2
  simp only [MemberClass.holds, Tree.modifiers_withModifiers, Modifiers.optional_ite,
    Bool.true_and] at listed listed'
  rw [members, listed, listed']
  simp only [List.mem_map, List.mem_filter, Bool.or_eq_true, KeySet.contains_text]
  constructor
  · rintro ⟨m, ⟨hm, chosen | optional⟩, rfl⟩
    · exact .inr chosen
    · exact .inl ⟨m, ⟨hm, optional⟩, rfl⟩
  · rintro (⟨m, ⟨hm, optional⟩, rfl⟩ | chosen)
    · exact ⟨m, ⟨hm, .inr optional⟩, rfl⟩
    · obtain ⟨m, hm, rfl⟩ := List.mem_map.1 (named k chosen)
      exact ⟨m, ⟨hm, .inl chosen⟩, rfl⟩

/-- Members that are made optional leave the required ones. -/
theorem requiredKeys_relaxed :
    ∃ before, d.requiredKeys = .ok before ∧ e.requiredKeys = .ok (before.diff keys) := by
  obtain ⟨before, extracted, listed⟩ := h.exists_keysIn object (c := .required) rfl
  refine ⟨before, extracted, ?_⟩
  apply (keysIn_revised_iff .required same he).2
  refine ⟨fun _ _ _ => nofun, ?_⟩
  simp only [MemberClass.holds, Tree.modifiers_withModifiers, Modifiers.optional_ite,
    Bool.true_and, Bool.not_or] at listed ⊢
  calc (before.diff keys).keys
      = ((d.tree.children.filter (!·.modifiers.optional)).map Tree.name).filter
          fun k => !keys.contains k.text := congrArg (List.filter _) listed
    _ = ((d.tree.children.filter (!·.modifiers.optional)).filter
          fun m => !keys.contains m.name.text).map Tree.name := List.filter_map
    _ = _ := by rw [List.filter_filter]

/-- In a class that does not tell whether a member may be absent, nothing changes. -/
theorem keysIn_of_relaxed {c : MemberClass} (other : c.aboutPresence = false) {s : KeySet}
    (extracted : e.keysIn c = .ok s) : d.keysIn c = .ok s :=
  h.keysIn_of_revised object c same he (fun m answers => answers.of_relaxed m)
    (fun m => c.holds_relaxed m other _) extracted

end Relaxed

end Normal

/-- How transformations move members between classes. Picking and dropping move none; they restrict
each class to the keys that are left. Members that are made optional join the optional ones and
leave the required ones, and members that are made mutable join the writable ones and leave the
read-only ones; in the other classes nothing changes. Where a class has no answer for the shape or
for what it is transformed to, nothing is said about it. -/
theorem transformations_reclassify (h : d.Reachable) (object : d.tree.isKind .object = true) :
    (∃ e, d.mutableProjection = .ok e ∧ e.readonlyKeys = .ok .empty ∧
      (∃ all, d.tree.keys = .ok all ∧ e.writableKeys = .ok all) ∧
      ∀ c : MemberClass, c.aboutMutability = false →
        ∀ s, e.keysIn c = .ok s ↔ d.keysIn c = .ok s) ∧
    ∀ keys : KeySet, (∀ k ∈ keys.keys, d.tree.hasKey k.text = .ok true) →
      (∃ e, d.pick keys = .ok e ∧
        ∀ c s, d.keysIn c = .ok s → e.keysIn c = .ok (s.inter keys)) ∧
      (∃ e, d.drop keys = .ok e ∧
        ∀ c s, d.keysIn c = .ok s → e.keysIn c = .ok (s.diff keys)) ∧
      ∃ e, d.withOptional keys = .ok e ∧
        (∃ before united after, d.optionalKeys = .ok before ∧ before.union keys = .ok united ∧
          e.optionalKeys = .ok after ∧ after.same united = true) ∧
        (∃ before, d.requiredKeys = .ok before ∧ e.requiredKeys = .ok (before.diff keys)) ∧
        ∀ c : MemberClass, c.aboutPresence = false →
          ∀ s, e.keysIn c = .ok s → d.keysIn c = .ok s := by
  have normal := h.normal
  refine ⟨?projection, fun keys known => ⟨?picking, ?dropping, ?relaxing⟩⟩
  case projection =>
    obtain ⟨e, projected, same⟩ := normal.exists_mutableProjection object
    have he := normal_mutableProjection normal projected
    exact ⟨e, projected, Normal.readonlyKeys_mutable same he,
      normal.writableKeys_mutable object same he,
      fun c other s => normal.keysIn_mutable_iff object same he other⟩
  case picking =>
    obtain ⟨e, picked, same⟩ := normal.exists_pick object known
    have he := normal_pick normal object picked
    exact ⟨e, picked, fun c s extracted => normal.keysIn_filter object c same he extracted⟩
  case dropping =>
    obtain ⟨e, dropped, same⟩ := normal.exists_drop object known
    have he := normal_drop normal object dropped
    exact ⟨e, dropped, fun c s extracted => normal.keysIn_filter object c same he extracted⟩
  case relaxing =>
    obtain ⟨e, relaxed, same⟩ := normal.exists_withOptional object known
    have he := normal_withOptional normal object relaxed
    have named := normal.mem_names_of_mem_keys object known
    exact ⟨e, relaxed, normal.optionalKeys_relaxed object same he named,
      normal.requiredKeys_relaxed object same he,
      fun c other s extracted => normal.keysIn_of_relaxed object same he other extracted⟩

/-- A read-only optional method beside a required number, stored without room to spare. Without the
number, and also once the number may be absent, the function-valued members are as before. -/
theorem transformations_reclassify_method :
    ∃ d : Descriptor 6, (do
      let run ← Member.make (.ofString "run") (← fn (← ofKind 6 .void) []) ⟨true, true, 0⟩
      let size ← Member.make (.ofString "size") (← ofKind 6 .number) .none
      object 6 [run, size]) = .ok d ∧
      ∃ keys, KeySet.ofList [.ofString "size"] = .ok keys ∧
        (∃ e s, d.drop keys = .ok e ∧ d.functionKeys = .ok s ∧ e.functionKeys = .ok (s.diff keys)) ∧
        ∃ e s r, d.withOptional keys = .ok e ∧ e.functionKeys = .ok s ∧ d.functionKeys = .ok s ∧
          d.requiredKeys = .ok r ∧ e.requiredKeys = .ok (r.diff keys) := by
  refine exists_ok_of_test (fun d =>
    d.tree.hasKey (.ofString "size") = .ok true ∧ d.functionKeys.isOk ∧ (do
      let keys ← KeySet.ofList [.ofString "size"]
      (← d.withOptional keys).functionKeys).isOk) (by decide +kernel) fun d made known => ?_
  obtain ⟨hasKey, before, after⟩ := of_decide_eq_true known
  refine exists_ok_of_test (fun keys => ∀ k ∈ keys.keys, k.text = .ofString "size")
    (by decide +kernel) fun keys given named => ?_
  have present : ∀ k ∈ keys.keys, d.tree.hasKey k.text = .ok true := fun k hk =>
    (of_decide_eq_true named k hk).symm ▸ hasKey
  have reachable : d.Reachable := Gives.holds made <| .bind (.kind rfl) fun void hv =>
    .pair (.fn hv (by simp)) (.kind rfl)
  obtain ⟨-, moves⟩ := transformations_reclassify reachable (Tree.hasKey_iff.1 hasKey).1
  obtain ⟨-, ⟨e, dropped, restricted⟩, e', relaxed, -, ⟨r, required, left⟩, others⟩ :=
    moves keys present
  obtain ⟨s, extracted⟩ := exists_of_isOk before
  rw [given] at after
  change (d.withOptional keys >>= functionKeys).isOk = true at after
  rw [relaxed] at after
  obtain ⟨s', extracted'⟩ := exists_of_isOk (x := e'.functionKeys) after
  exact ⟨⟨e, s, dropped, extracted, restricted .function s extracted⟩, e', s', r, relaxed,
    extracted', others .function rfl s' extracted', required, left⟩

end Descriptor

end StructuralTypes
