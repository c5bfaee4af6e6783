import StructuralTypes.Proofs.ObjectRoundTrip
import StructuralTypes.Proofs.ObjectRule
import StructuralTypes.Proofs.PropertyType

/-!
# Optional slots

An optional slot takes what is assignable to its type, and `undefined` besides. The procedure opens
the source for that and never builds the union of the type and `undefined`; but it answers as if it
had been built and normalized. So a slot, optional or not, takes what is assignable to the type of
reading it.
-/

namespace StructuralTypes

namespace Tree

/-- Of the alternatives there are, `undefined` takes itself alone. -/
theorem Normal.assignable_undefined_iff {a : Tree} (h : a.Normal)
    (single : a.isKind .union = false) (proper : a.isKind .never = false) :
    a.assignable (ofKind .undefined) = true ↔ a.isKind .undefined = true := by
  constructor
  · intro accepted
    cases known : a.isKind .unknown with
    | true =>
        rw [not_assignable_of_unknown known rfl] at accepted
        cases accepted
    | false =>
        have alternative : a.IsAlternative := ⟨single, proper, known⟩
        rcases (alternative.assignable_iff rfl rfl).1 accepted with same | widened | rule
        · rw [isKind_eq_of_equiv same]
          rfl
        · obtain ⟨kind, -, widened⟩ := exists_literal (isKind_iff.2 rfl) widened
          cases kind <;> cases widened
        · exact absurd (rule.target_kind (isKind_iff.2 rfl)) (by decide)
  · intro undefined
    rw [h.eq_ofKind rfl undefined]
    exact (Normal.primitive rfl).assignable_of_equiv (equiv_refl _)

/-- The shortcut answers as the union with `undefined` does, once that is normalized. -/
theorem Normal.assignableOrUndefined_eq {s t u : Tree} (hs : s.Normal) (ht : t.Normal)
    (made : t.orUndefined.normalized = .ok u) : s.assignableOrUndefined t = s.assignable u := by
  have normal : ∀ x ∈ [t, ofKind .undefined], x.Normal :=
    List.forall_mem_cons.2 ⟨ht, List.forall_mem_singleton.2 (.primitive rfl)⟩
  rw [Bool.eq_iff_iff, assignableOrUndefined_iff, assignable_iff_each]
  refine forall_congr' fun a => forall_congr' fun ha => ?_
  obtain ⟨single, proper⟩ := isKind_of_mem_alternatives ha
  rw [assignable_union_iff normal made (List.cons_ne_nil _ _) single]
  simp only [List.mem_cons, List.not_mem_nil, or_false, exists_eq_or_imp, exists_eq_left,
    (hs.of_mem_alternatives ha).assignable_undefined_iff single proper]
  cases a.isKind .undefined <;> simp

/-- A slot takes a member whose declared type is assignable to the type of reading the slot, unless
the member may be absent and the slot may not. -/
theorem Normal.byKey_iff_of_read {s t m found u : Tree} (hs : s.Normal) (ht : t.Normal)
    (source : s.isKind .object = true) (target : t.isKind .object = true) (hm : m ∈ t.children)
    (present : s.find? m.name.text = some found) (read : t.propertyType m.name.text = .ok u) :
    ByKey s m ↔ found.first.assignable u = true ∧
      (found.modifiers.optional = true → m.modifiers.optional = true) := by
  have slot := first?_eq_some ((ht.members target).shaped m hm).below
  have value := first?_eq_some ((hs.members source).shaped found (mem_of_find? present)).below
  have declared := (hs.members source).normal found (mem_of_find? present)
  have wanted := (ht.members target).normal m hm
  rw [propertyType_of_find? target (ht.find?_name target hm)] at read
  rw [← memberAssignable_iff, memberAssignable_eq, present]
  simp only [slot, value, Option.any_some]
  cases optional : m.modifiers.optional with
  | true =>
      rw [if_pos optional] at read
      rw [if_pos rfl, declared.assignableOrUndefined_eq wanted read]
      exact ⟨fun accepted => ⟨accepted, fun _ => rfl⟩, And.left⟩
  | false =>
      rw [if_neg (Bool.eq_false_iff.1 optional)] at read
      obtain rfl := Except.ok.inj read
      rw [if_neg Bool.false_ne_true, Bool.and_eq_true, Bool.not_eq_true']
      refine and_congr_right fun _ => ?_
      cases found.modifiers.optional <;> simp

/-- A member alone in an object fills an optional slot alone in another one when its declared type
is assignable to the type of reading the slot. -/
theorem Normal.ofMembers_assignable_optional {found m u : Tree} (hs : (ofMembers [found]).Normal)
    (ht : (ofMembers [m]).Normal) (key : found.name = m.name)
    (optional : m.modifiers.optional = true) (read : m.first.orUndefined.normalized = .ok u) :
    (ofMembers [found]).assignable (ofMembers [m]) = found.first.assignable u := by
  have present : (ofMembers [found]).find? m.name.text = some found := by
    rw [← key]
    exact hs.find?_name rfl List.mem_cons_self
  have slot := ht.find?_name rfl (m := m) List.mem_cons_self
  have reads : (ofMembers [m]).propertyType m.name.text = .ok u := by
    rw [propertyType_of_find? rfl slot, if_pos optional, read]
  rw [Bool.eq_iff_iff, hs.regular.object_assignable_iff ht.regular rfl rfl]
  refine List.forall_mem_singleton.trans ?_
  rw [hs.byKey_iff_of_read ht rfl rfl List.mem_cons_self present reads]
  exact and_iff_left fun _ => optional

end Tree

namespace Descriptor

/-- The object that has one member alone. -/
def single {cap : Nat} (key : Text) (type : Descriptor cap) (modifiers : Modifiers) :
    Except Fault (Descriptor cap) := do
  object cap [← Member.make key type modifiers]

section Slots

variable {m n : Nat} {d : Descriptor m} {e : Descriptor n}

/-- A member with a key is alone in an object as long as there are two cells besides those of its
type. -/
theorem single_total {key : Text} (given : key ≠ []) (short : key.length ≤ 31) (h : d.Normal)
    (modifiers : Modifiers) :
    (d.arena.size + 2 ≤ m → ∃ e, single key d modifiers = .ok e) ∧
      (m < d.arena.size + 2 → single key d modifiers = .error .storageFull) := by
  let member : Member m := ⟨⟨key, Nat.lt_succ_of_le short⟩, d, modifiers⟩
  have made : Member.make key d modifiers = .ok member := Member.make_eq_ok_iff.2 ⟨given, rfl⟩
  have normal : ∀ o ∈ [member], o.type.Normal := List.forall_mem_singleton.2 h
  have alone : single key d modifiers = object m [member] := by
    rw [single, made]
    rfl
  have count : cells [member] = d.arena.size + 2 := by
    change 1 + (d.arena.size + 1 + 0) = _
    omega
  rw [alone, ← count]
  exact object_total (by simp) normal (List.nodup_singleton _)

/-- An object of one member has the key, the type and the modifiers that it is made with. -/
theorem Normal.exists_of_single (h : d.Normal) {key : Text} {modifiers : Modifiers}
    (bits : modifiers.reserved = 0) {e : Descriptor m} (made : single key d modifiers = .ok e) :
    e.Normal ∧ ∃ member : Tree, e.tree = .ofMembers [member] ∧ member.name.text = key ∧
      member.first = d.tree ∧ member.modifiers = modifiers := by
  obtain ⟨member, hm, made⟩ := bind_eq_ok made
  refine ⟨normal_object ?_ made, member.tree, tree_of_object made, ?_⟩
  · exact List.forall_mem_singleton.2 (Member.normal_make bits h hm)
  · obtain ⟨-, same⟩ := Member.make_eq_ok_iff.1 hm
    cases same
    exact ⟨rfl, rfl, rfl⟩

theorem Reachable.of_single (h : d.Reachable) {key : Text} {readOnly optional : Bool}
    {e : Descriptor m} (made : single key d ⟨readOnly, optional, 0⟩ = .ok e) : e.Reachable :=
  Gives.holds made (.bind (.make h) fun _ hm => .object (List.forall_mem_singleton.2 hm))

/-- A shape supplies what another one asks for under a key: nothing is asked of a key that it lacks
and that is optional, and otherwise the type of reading the slot takes the declared type of the
member, and the member is not optional unless the slot is. -/
inductive Supplies (d : Descriptor m) (e : Descriptor n) (key : Text) : Prop
  | absent {wanted : Modifiers} (missing : d.tree.hasKey key = .ok false)
      (slot : e.tree.memberModifiers key = .ok wanted) (optional : wanted.optional = true)
  | present {given wanted : Modifiers} {declared : Descriptor m} {read : Descriptor n}
      (member : d.tree.memberModifiers key = .ok given) (type : d.declaredType key = .ok declared)
      (slot : e.tree.memberModifiers key = .ok wanted) (reads : e.propertyType key = .ok read)
      (takes : declared.tree.assignable read.tree = true)
      (certain : given.optional = true → wanted.optional = true)

/-- The union of a type and `undefined`, as a slot that may be left empty reads. -/
theorem orUndefined_of_union {u : Descriptor m}
    (made : (do union [d, ← ofKind m .undefined]) = .ok u) :
    d.tree.orUndefined.normalized = .ok u.tree := by
  obtain ⟨undefined, leaf, joined⟩ := bind_eq_ok made
  have known := tree_of_union joined
  rwa [List.map_cons, List.map_singleton, tree_of_ofTree leaf] at known

/-- The slices of two shapes under a key compare as the declared type of the member and the type of
reading the slot, if the slot is optional. -/
theorem Normal.slice_assignable_slice (hd : d.Normal) (he : e.Normal)
    (source : d.tree.isKind .object = true) (target : e.tree.isKind .object = true) {key : Text}
    {u : Descriptor n} {found slot : Tree} (hf : d.tree.find? key = some found)
    (hs : e.tree.find? key = some slot) (optional : slot.modifiers.optional = true)
    (read : e.propertyType key = .ok u) :
    ∃ declared given wanted, d.declaredType key = .ok declared ∧ d.slice key = .ok given ∧
      e.slice key = .ok wanted ∧
        given.tree.assignable wanted.tree = declared.tree.assignable u.tree := by
  obtain ⟨declared, type, -, type'⟩ := hd.exists_declaredType source hf
  obtain ⟨given, left, shape, left'⟩ := hd.exists_slice source hf
  obtain ⟨wanted, right, shape', right'⟩ := he.exists_slice target hs
  have reads := (he.propertyType_stores key).eq_ok read
  rw [Tree.propertyType_of_find? target hs, if_pos optional] at reads
  have named : found.name = slot.name := Name.ext <|
    ((Tree.find?_eq_some_iff (hd.type.members source).keys).1 hf).2.trans
      ((Tree.find?_eq_some_iff (he.type.members target).keys).1 hs).2.symm
  refine ⟨declared, given, wanted, type, left, right, ?_⟩
  rw [type', left', right']
  exact Tree.Normal.ofMembers_assignable_optional (left' ▸ shape.type) (right' ▸ shape'.type) named
    optional reads

/-- What a member of the target asks for is what is to be supplied under its key. -/
theorem Normal.byKey_iff_supplies (hd : d.Normal) (he : e.Normal)
    (source : d.tree.isKind .object = true) (target : e.tree.isKind .object = true) {m : Tree}
    (hm : m ∈ e.tree.children) (readable : e.Readable m.name.text) :
    d.tree.ByKey m ↔ Supplies d e m.name.text := by
  have wanted := Tree.memberModifiers_of_find? target (he.type.find?_name target hm)
  obtain ⟨u, read⟩ := readable
  have reads := (he.propertyType_stores _).eq_ok read
  cases found : d.tree.find? m.name.text with
  | none =>
      have missing : d.tree.hasKey m.name.text = .ok false := by
        rw [Tree.hasKey, Tree.requireObject, if_pos source, found]
        rfl
      rw [Tree.byKey_iff_of_absent found]
      refine ⟨.absent missing wanted, fun supplied => ?_⟩
      cases supplied with
      | absent _ wanted' optional =>
          cases wanted.symm.trans wanted'
          exact optional
      | present member =>
          obtain ⟨-, _, found', -⟩ := Tree.find?_of_memberModifiers member
          cases found.symm.trans found'
  | some value =>
      have given := Tree.memberModifiers_of_find? source found
      obtain ⟨declared, type, -, type'⟩ := hd.exists_declaredType source found
      rw [hd.type.byKey_iff_of_read he.type source target hm found reads, ← type']
      refine ⟨fun fills => .present given type wanted read fills.1 fills.2, fun supplied => ?_⟩
      cases supplied with
      | absent missing =>
          rw [Tree.hasKey_iff.2 ⟨source, value, found⟩] at missing
          cases missing
      | present given' type' wanted' read' takes certain =>
          cases given.symm.trans given'
          cases type.symm.trans type'
          cases wanted.symm.trans wanted'
          cases read.symm.trans read'
          exact ⟨takes, certain⟩

/-- One shape is assignable to another exactly when it supplies what is asked for under each key. -/
theorem Normal.assignable_iff_supplies (hd : d.Normal) (he : e.Normal)
    (source : d.tree.isKind .object = true) (target : e.tree.isKind .object = true)
    (readable : ∀ k ∈ e.tree.names, e.Readable k.text) :
    d.tree.assignable e.tree = true ↔ ∀ k ∈ e.tree.names, Supplies d e k.text := by
  rw [hd.type.regular.object_assignable_iff he.type.regular source target, Tree.names,
    List.forall_mem_map]
  exact forall₂_congr fun m hm =>
    hd.byKey_iff_supplies he source target hm (readable _ (List.mem_map_of_mem hm))

end Slots

/-- A slot that may be left empty takes what is assignable to the union of its type and `undefined`,
whether or not the member may be absent. That union is what reading the slot gives, so members and
slots of any two shapes compare as the declared type of the one and the type of reading the other.
-/
theorem optional_slot_takes_what_it_reads :
    (∀ {cap : Nat} (d : Descriptor cap) (key : Text) (modifiers : Modifiers), d.Reachable →
      key ≠ [] → key.length ≤ 31 →
      ((∃ e, single key d modifiers = .ok e) ↔ d.arena.size + 2 ≤ cap)) ∧
    (∀ {cap : Nat} (s t u : Descriptor cap) (key : Text) (readOnly readOnly' optional : Bool)
      (shape slot : Descriptor cap), s.Reachable → t.Reachable →
      (do union [t, ← ofKind cap .undefined]) = .ok u →
      single key s ⟨readOnly, optional, 0⟩ = .ok shape →
      single key t ⟨readOnly', true, 0⟩ = .ok slot →
      shape.tree.assignable slot.tree = s.tree.assignable u.tree) ∧
    (∀ {m n : Nat} (d : Descriptor m) (e : Descriptor n) (key : Text) (wanted : Modifiers)
      (u : Descriptor n), d.Reachable → e.Reachable → d.tree.hasKey key = .ok true →
      e.tree.memberModifiers key = .ok wanted → wanted.optional = true →
      e.propertyType key = .ok u →
      ∃ declared given slot, d.declaredType key = .ok declared ∧ d.slice key = .ok given ∧
        e.slice key = .ok slot ∧
        given.tree.assignable slot.tree = declared.tree.assignable u.tree) ∧
    ∀ {m n : Nat} (d : Descriptor m) (e : Descriptor n), d.Reachable → e.Reachable →
      d.tree.isKind .object = true → e.tree.isKind .object = true →
      (∀ k ∈ e.tree.names, e.Readable k.text) →
      (d.tree.assignable e.tree = true ↔ ∀ k ∈ e.tree.names, Supplies d e k.text) := by
  refine ⟨?single, ?shapes, ?slices, ?whole⟩
  case single =>
    intro cap d key modifiers h given short
    obtain ⟨fits, full⟩ := single_total given short h.normal modifiers
    refine ⟨fun ⟨e, made⟩ => Nat.le_of_not_lt fun many => ?_, fits⟩
    rw [full many] at made
    cases made
  case shapes =>
    intro cap s t u key readOnly readOnly' optional shape slot hs ht widened left right
    obtain ⟨normal, member, known, named, type, -⟩ := hs.normal.exists_of_single rfl left
    obtain ⟨normal', member', known', named', type', wanted⟩ := ht.normal.exists_of_single rfl right
    have shaped : (Tree.ofMembers [member]).Normal := known ▸ normal.type
    have shaped' : (Tree.ofMembers [member']).Normal := known' ▸ normal'.type
    have key' : member.name = member'.name := Name.ext (named.trans named'.symm)
    rw [known, known', ← type]
    apply shaped.ofMembers_assignable_optional shaped' key'
    · rw [wanted]
    · rw [type']
      exact orUndefined_of_union widened
  case slices =>
    intro m n d e key wanted u hd he present slot optional read
    obtain ⟨source, found, hf⟩ := Tree.hasKey_iff.1 present
    obtain ⟨target, member, hs, rfl⟩ := Tree.find?_of_memberModifiers slot
    exact hd.normal.slice_assignable_slice he.normal source target hf hs optional read
  case whole =>
    exact fun d e hd he source target readable =>
      hd.normal.assignable_iff_supplies he.normal source target readable

/-- An optional slot, stored without room to spare, takes a union with `undefined` that its type
does not take. -/
theorem optional_slot_takes_undefined :
    ∃ built : Descriptor 5 × Descriptor 5 × Descriptor 5 × Descriptor 5 × Descriptor 5, (do
      let s ← union [← ofKind 5 .number, ← ofKind 5 .undefined]
      let t ← union [← ofKind 5 .string, ← ofKind 5 .number]
      let u ← union [t, ← ofKind 5 .undefined]
      let shape ← single (.ofString "a") s ⟨false, true, 0⟩
      let slot ← single (.ofString "a") t ⟨true, true, 0⟩
      return (s, t, u, shape, slot)) = .ok built ∧
      let (s, t, _, shape, slot) := built
      s.arena.size + 2 ≤ 5 ∧ s.tree.assignable t.tree = false ∧
        shape.tree.assignable slot.tree = true ∧
        (∃ declared read given wanted, shape.declaredType (.ofString "a") = .ok declared ∧
          slot.propertyType (.ofString "a") = .ok read ∧ shape.slice (.ofString "a") = .ok given ∧
          slot.slice (.ofString "a") = .ok wanted ∧
          given.tree.assignable wanted.tree = declared.tree.assignable read.tree) ∧
        Supplies shape slot (.ofString "a") := by
  obtain ⟨fits, alone, slices, whole⟩ := optional_slot_takes_what_it_reads
  refine exists_ok_of_test (fun (s, t, u, shape, slot) =>
    s.tree.assignable t.tree = false ∧ s.tree.assignable u.tree = true ∧
      shape.tree.hasKey (.ofString "a") = .ok true ∧ slot.tree.isKind .object = true ∧
      (∃ k ∈ slot.tree.names, k.text = .ofString "a") ∧
      (∀ k ∈ slot.tree.names, slot.Readable k.text) ∧
      slot.tree.memberModifiers (.ofString "a") = .ok ⟨true, true, 0⟩)
    (by decide +kernel) ?_
  rintro ⟨s, t, u, shape, slot⟩ made known
  obtain ⟨refused, taken, present, object, ⟨k, hk, named⟩, readable, marked⟩ :=
    of_decide_eq_true known
  obtain ⟨source, target, widened, left, right⟩ := Gives.holds (P := fun (s, t, u, shape, slot) =>
      s.Reachable ∧ t.Reachable ∧ (do union [t, ← ofKind 5 .undefined]) = .ok u ∧
        single (.ofString "a") s ⟨false, true, 0⟩ = .ok shape ∧
        single (.ofString "a") t ⟨true, true, 0⟩ = .ok slot) made <|
    .either (.kind rfl) (.kind rfl) fun s hs => .either (.kind rfl) (.kind rfl) fun t ht =>
      .bind .self fun undefined stored => .bind .self fun u joined =>
        .bind .self fun shape left => .bind .self fun slot right =>
          .pure ⟨hs, ht, stored ▸ joined, left, right⟩
  have given := source.of_single left
  have wanted := target.of_single right
  have accepted : shape.tree.assignable slot.tree = true :=
    (alone s t u _ _ _ _ shape slot source target widened left right).trans taken
  have supplied := (whole shape slot given wanted (Tree.hasKey_iff.1 present).1 object readable).1
    accepted k hk
  obtain ⟨read, reads⟩ := readable k hk
  rw [named] at reads supplied
  refine ⟨?_, refused, accepted, ?_, supplied⟩
  · exact (fits s (.ofString "a") ⟨false, true, 0⟩ source (by decide) (by decide)).1 ⟨shape, left⟩
  · obtain ⟨declared, value, empty, type, cut, cut', same⟩ :=
      slices shape slot _ _ read given wanted present marked rfl reads
    exact ⟨declared, read, value, empty, type, reads, cut, cut', same⟩

end Descriptor

end StructuralTypes
