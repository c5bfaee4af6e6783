import Mathlib.Data.Set.List
import StructuralTypes.Proofs.KeySelection
import StructuralTypes.Proofs.RevisedShape
import StructuralTypes.Proofs.ShapeAnswers

/-!
# Building a shape and looking it up

An object is made of members with distinct keys as long as its nodes fit: one for the object, and
for each member one more than its type has. A repeated key is reported first. What the members were
made of is read back by looking their keys up, and a shape that is read back key by key and built
again is the same shape in storage.
-/

namespace StructuralTypes

/-- The names are distinct exactly when there is no repetition to be found. -/
theorem Name.firstRepeat?_eq_none_iff {names : List Name} :
    firstRepeat? names = none ↔ names.Nodup := by
  refine ⟨nodup_of_firstRepeat?, fun distinct => ?_⟩
  suffices fresh : ∀ seen, (∀ n ∈ names, n ∉ seen) → firstRepeat?.go seen names = none from
    fresh [] fun _ _ => List.not_mem_nil
  induction names with
  | nil => exact fun _ _ => rfl
  | cons n ns ih =>
      intro seen unseen
      obtain ⟨new, distinct⟩ := List.nodup_cons.1 distinct
      obtain ⟨first, rest⟩ := List.forall_mem_cons.1 unseen
      rw [firstRepeat?.go, if_neg (by simpa using first)]
      apply ih distinct
      intro m hm again
      rcases List.mem_cons.1 again with rfl | known
      · exact new hm
      · exact rest m hm known

/-- A repetition that is found is the first one: the names before it are distinct. -/
theorem Name.exists_of_firstRepeat? {names : List Name} {k : Name}
    (found : firstRepeat? names = some k) :
    ∃ before after, names = before ++ k :: after ∧ before.Nodup ∧ k ∈ before := by
  -- The names that were seen before are kept apart from those that are still to be gone through.
  suffices split : ∀ seen, firstRepeat?.go seen names = some k → ∃ before after,
      names = before ++ k :: after ∧ before.Nodup ∧ (∀ n ∈ before, n ∉ seen) ∧
        (k ∈ seen ∨ k ∈ before) by
    obtain ⟨before, after, cut, distinct, -, known⟩ := split [] found
    exact ⟨before, after, cut, distinct, known.resolve_left List.not_mem_nil⟩
  clear found
  induction names with
  | nil =>
      intro seen found
      cases found
  | cons n ns ih =>
      intro seen found
      rw [firstRepeat?.go] at found
      split at found
      · next known =>
        obtain rfl := Option.some.inj found
        exact ⟨[], ns, rfl, .nil, by simp, .inl (by simpa using known)⟩
      · next fresh =>
        obtain ⟨before, after, rfl, distinct, unseen, known⟩ := ih (n :: seen) found
        refine ⟨n :: before, after, rfl, List.nodup_cons.2 ⟨?_, distinct⟩, ?_, ?_⟩
        · exact fun again => unseen n again List.mem_cons_self
        · intro m hm
          rcases List.mem_cons.1 hm with rfl | hm
          · simpa using fresh
          · exact fun known => unseen m hm (List.mem_cons_of_mem _ known)
        · rcases known with known | known
          · rcases List.mem_cons.1 known with rfl | known
            · exact .inr List.mem_cons_self
            · exact .inl known
          · exact .inr (List.mem_cons_of_mem _ known)

namespace Member

variable {cap : Nat} {m : Member cap}

/-- What a member is made of. -/
def ingredients (m : Member cap) : Text × Descriptor cap × Modifiers :=
  (m.key.text, m.type, m.modifiers)

theorem make_eq_ok_iff {key : Text} {type : Descriptor cap} {modifiers : Modifiers} :
    make key type modifiers = .ok m ↔ key ≠ [] ∧ m.ingredients = (key, type, modifiers) := by
  constructor
  · intro made
    rw [make] at made
    split at made
    · cases made
    · next given =>
      obtain ⟨name, spelled, made⟩ := bind_eq_ok made
      cases made
      refine ⟨by simpa using given, ?_⟩
      rw [ingredients, Name.ofText_eq_ok_iff.1 spelled]
  · rintro ⟨given, same⟩
    cases same
    rw [make, if_neg (by simpa using given), Name.ofText_eq_ok_iff.2 rfl]
    rfl

/-- The members of some ingredients, in order. -/
def makeAll (given : List (Text × Descriptor cap × Modifiers)) :
    Except Fault (List (Member cap)) :=
  given.mapM fun p => make p.1 p.2.1 p.2.2

/-- Members that are made have keys and the ingredients that they are made of. -/
theorem ingredients_of_makeAll {given : List (Text × Descriptor cap × Modifiers)}
    {members : List (Member cap)} (made : makeAll given = .ok members) :
    given = members.map ingredients ∧ ∀ m ∈ members, m.key.text ≠ [] := by
  induction given generalizing members with
  | nil =>
      cases made
      exact ⟨rfl, nofun⟩
  | cons p ps ih =>
      rw [makeAll, List.mapM_cons] at made
      obtain ⟨m, hm, made⟩ := bind_eq_ok made
      obtain ⟨ms, hms, made⟩ := bind_eq_ok made
      cases made
      obtain ⟨rfl, rest⟩ := ih hms
      obtain ⟨key, same⟩ := make_eq_ok_iff.1 hm
      obtain rfl : p = m.ingredients := same.symm
      exact ⟨rfl, List.forall_mem_cons.2 ⟨key, rest⟩⟩

theorem map_fst_ingredients (members : List (Member cap)) :
    (members.map ingredients).map Prod.fst = (members.map key).map Name.text := by
  rw [List.map_map, List.map_map]
  rfl

@[simp] theorem name_tree (m : Member cap) : m.tree.name = m.key := rfl

theorem map_name_tree (members : List (Member cap)) :
    (members.map tree).map Tree.name = members.map key := by
  rw [List.map_map]
  rfl

theorem size_tree (m : Member cap) : m.tree.size = m.type.tree.size + 1 := by
  rw [tree, Tree.size, Tree.sizeAll, Tree.sizeAll]

end Member

namespace Descriptor

variable {cap : Nat} {d : Descriptor cap}

/-- A type stored without any other nodes takes as many cells as it has nodes. -/
theorem Normal.size_arena (h : d.Normal) : d.arena.size = d.tree.size := by
  rw [Arena.size, (layout_of_ofTree h.laidOut).1, List.size_toArray, Tree.length_layout]

section Objects

variable {members : List (Member cap)}

/-- The cells that an object of some members takes. -/
def cells (members : List (Member cap)) : Nat :=
  1 + (members.map fun m => m.type.arena.size + 1).sum

theorem size_object (normal : ∀ m ∈ members, m.type.Normal) :
    (Tree.ofMembers (members.map Member.tree)).size = cells members := by
  rw [Tree.ofMembers, Tree.size, cells, Nat.add_comm]
  congr 1
  induction members with
  | nil => rfl
  | cons m ms ih =>
      obtain ⟨first, rest⟩ := List.forall_mem_cons.1 normal
      rw [List.map_cons, Tree.sizeAll, List.map_cons, List.sum_cons, Member.size_tree,
        first.size_arena, ih rest]

theorem object_of_distinct (few : members.length ≤ 16)
    (distinct : (members.map Member.key).Nodup) :
    object cap members = ofTree cap (.ofMembers (members.map Member.tree)) := by
  rw [object, Name.firstRepeat?_eq_none_iff.2 distinct]
  exact if_neg (by simpa using few)

theorem object_of_not_distinct (repeated : ¬(members.map Member.key).Nodup) :
    ∃ before key after, members.map Member.key = before ++ key :: after ∧ before.Nodup ∧
      key ∈ before ∧ object cap members = .error (.duplicateKey key.text) := by
  cases found : Name.firstRepeat? (members.map Member.key) with
  | none => exact absurd (Name.firstRepeat?_eq_none_iff.1 found) repeated
  | some key =>
      obtain ⟨before, after, cut, fresh, known⟩ := Name.exists_of_firstRepeat? found
      refine ⟨before, key, after, cut, fresh, known, ?_⟩
      rw [object, found]

/-- An object of distinct keys is made as long as there are enough cells. -/
theorem object_total (few : members.length ≤ 16) (normal : ∀ m ∈ members, m.type.Normal)
    (distinct : (members.map Member.key).Nodup) :
    (cells members ≤ cap → ∃ d, object cap members = .ok d) ∧
      (cap < cells members → object cap members = .error .storageFull) := by
  rw [object_of_distinct few distinct, ← size_object normal]
  exact ofTree_total cap _

theorem distinct_of_object (made : object cap members = .ok d) :
    (members.map Member.key).Nodup := by
  by_contra repeated
  obtain ⟨before, key, after, -, -, -, failed⟩ := object_of_not_distinct repeated
  rw [failed] at made
  cases made

section Lookup

variable (made : object cap members = .ok d)

include made

theorem children_of_object : d.tree.children = members.map Member.tree := by
  rw [tree_of_object made, Tree.children_node]

theorem isKind_of_object : d.tree.isKind .object = true := by
  rw [tree_of_object made]
  rfl

theorem nodup_names_of_object : (d.tree.children.map Tree.name).Nodup := by
  rw [children_of_object made, Member.map_name_tree]
  exact distinct_of_object made

/-- A member is found under its key. -/
theorem find?_of_object {m : Member cap} (hm : m ∈ members) :
    d.tree.find? m.key.text = some m.tree := by
  apply (Tree.find?_eq_some_iff (nodup_names_of_object made)).2
  rw [children_of_object made]
  exact ⟨List.mem_map_of_mem hm, rfl⟩

theorem hasKey_of_object (key : Text) :
    d.tree.hasKey key = .ok (decide (∃ m ∈ members, m.key.text = key)) := by
  rw [Tree.hasKey, Tree.requireObject, if_pos (isKind_of_object made)]
  refine congrArg Except.ok ?_
  rw [Bool.eq_iff_iff, decide_eq_true_iff, Tree.find?, List.find?_isSome,
    children_of_object made]
  simp

theorem keys_of_object (few : members.length ≤ 16) :
    ∃ all, d.tree.keys = .ok all ∧ all.keys = members.map Member.key := by
  have bounded : (members.map Member.key).length ≤ 16 := by rwa [List.length_map]
  obtain ⟨all, inserted, keys⟩ := KeySet.exists_ofList (distinct_of_object made) bounded
  refine ⟨all, ?_, keys⟩
  rw [Tree.keys, Tree.requireObject, if_pos (isKind_of_object made), Tree.names,
    children_of_object made, Member.map_name_tree]
  exact inserted

theorem declaredType_of_object {m : Member cap} (hm : m ∈ members) (normal : m.type.Normal) :
    d.declaredType m.key.text = .ok m.type := by
  rw [declaredType, transform,
    Tree.declaredType_of_find? (isKind_of_object made) (find?_of_object made hm)]
  exact normal.laidOut

theorem memberModifiers_of_object {m : Member cap} (hm : m ∈ members) :
    d.tree.memberModifiers m.key.text = .ok m.modifiers :=
  Tree.memberModifiers_of_find? (isKind_of_object made) (find?_of_object made hm)

end Lookup

/-- Read a shape key by key and build it again. -/
def rebuilt (d : Descriptor cap) : Except Fault (Descriptor cap) := do
  let all ← d.tree.keys
  let members ← all.keys.mapM fun k => do
    Member.make k.text (← d.declaredType k.text) (← d.tree.memberModifiers k.text)
  object cap members

/-- An object is made exactly when its keys are distinct and there are enough cells. -/
theorem isOk_object_iff (few : members.length ≤ 16)
    (normal : ∀ m ∈ members, m.type.Normal) : (object cap members).isOk = true ↔
      (members.map Member.key).Nodup ∧ cells members ≤ cap := by
  constructor
  · intro ok
    obtain ⟨d, made⟩ := exists_of_isOk ok
    refine ⟨distinct_of_object made, Nat.le_of_not_lt fun full => ?_⟩
    rw [(object_total few normal (distinct_of_object made)).2 full] at ok
    cases ok
  · rintro ⟨distinct, fits⟩
    obtain ⟨d, made⟩ := (object_total few normal distinct).1 fits
    rw [made]
    rfl

/-- An object is the one that is built of what is read from it. -/
theorem rebuilt_of_object (few : members.length ≤ 16)
    (sound : ∀ m ∈ members, m.key.text ≠ [] ∧ m.type.Normal) (made : object cap members = .ok d) :
    d.rebuilt = .ok d := by
  obtain ⟨all, known, keys⟩ := keys_of_object made few
  rw [rebuilt, known]
  change (all.keys.mapM _ >>= object cap) = _
  rw [keys, mapM_map_eq_ok]
  · exact made
  · intro m hm
    obtain ⟨given, normal⟩ := sound m hm
    rw [declaredType_of_object made hm normal, memberModifiers_of_object made hm]
    exact Member.make_eq_ok_iff.2 ⟨given, rfl⟩

end Objects

/-- A normal shape is made of members. -/
theorem Normal.exists_members (h : d.Normal) (shape : d.tree.isKind .object = true) :
    ∃ members : List (Member cap), members.length ≤ 16 ∧
      (∀ m ∈ members, m.key.text ≠ [] ∧ m.type.Normal) ∧ object cap members = .ok d := by
  have below := h.type.members shape
  have each : ∀ c ∈ d.tree.children,
      ∃ m : { m : Member cap // m.key.text ≠ [] ∧ m.type.Normal }, m.1.tree = c := by
    intro c hc
    have shaped := below.shaped c hc
    obtain ⟨type, -, normal, known⟩ := h.exists_declaredType shape (h.type.find?_name shape hc)
    refine ⟨⟨⟨c.name, type, c.modifiers⟩, shaped.key, normal⟩, ?_⟩
    calc Member.tree ⟨c.name, type, c.modifiers⟩
        = .node ⟨Kind.member, c.name, c.modifiers⟩ [c.first] := by rw [Member.tree, known]
      _ = .node c.head c.children := by
          rw [shaped.type, ← shaped.tag]
          rfl
      _ = c := Tree.node_head_children c
  obtain ⟨members, same⟩ : d.tree.children ∈ Set.range (List.map fun m :
      { m : Member cap // m.key.text ≠ [] ∧ m.type.Normal } => m.1.tree) := by
    rw [Set.range_list_map]
    exact each
  have listed : (members.map Subtype.val).map Member.tree = d.tree.children := by
    rw [List.map_map]
    exact same
  have few : (members.map Subtype.val).length ≤ 16 := by
    rw [← List.length_map Member.tree, listed]
    exact below.bounded
  refine ⟨members.map Subtype.val, few, ?_, ?_⟩
  · intro m hm
    obtain ⟨m, -, rfl⟩ := List.mem_map.1 hm
    exact m.2
  · rw [object_of_distinct few, listed, ← h.type.eq_ofMembers shape]
    · exact h.laidOut
    · rw [← Member.map_name_tree, listed]
      exact below.keys

/-- Making an object and looking its members up are inverse to each other. Of members with types of
one capacity an object is made exactly when their keys are distinct and there are enough cells, the
first repeated key being reported before a lack of room. It has the keys in order and no others, and
under each the type and the modifiers that the member was made with. Any shape is the one that is
built of what is read from it. -/
theorem construction_inverts_lookup :
    (∀ (cap : Nat) (given : List (Text × Descriptor cap × Modifiers)) (members : List (Member cap)),
      given.length ≤ 16 → (∀ p ∈ given, p.2.1.Reachable) →
      Member.makeAll given = .ok members →
        ((object cap members).isOk ↔
          (given.map Prod.fst).Nodup ∧
            1 + (given.map fun p => p.2.1.arena.size + 1).sum ≤ cap) ∧
        (¬(given.map Prod.fst).Nodup → ∃ before key after,
          given.map Prod.fst = before ++ key :: after ∧ before.Nodup ∧ key ∈ before ∧
            object cap members = .error (.duplicateKey key)) ∧
        ((given.map Prod.fst).Nodup →
          cap < 1 + (given.map fun p => p.2.1.arena.size + 1).sum →
            object cap members = .error .storageFull) ∧
        ∀ d, object cap members = .ok d →
          (∃ all, d.tree.keys = .ok all ∧ all.keys.map Name.text = given.map Prod.fst) ∧
          (∀ key, d.tree.hasKey key = .ok (decide (key ∈ given.map Prod.fst))) ∧
          (∀ p ∈ given, d.tree.memberModifiers p.1 = .ok p.2.2 ∧
            d.declaredType p.1 = .ok p.2.1) ∧
          d.rebuilt = .ok d) ∧
      ∀ (cap : Nat) (d : Descriptor cap), d.Reachable → d.tree.isKind .object = true →
        d.rebuilt = .ok d := by
  constructor
  case right =>
    intro cap d reachable shape
    obtain ⟨members, few, sound, made⟩ := reachable.normal.exists_members shape
    exact rebuilt_of_object few sound made
  case left =>
    intro cap given members few reachable made
    obtain ⟨rfl, keyed⟩ := Member.ingredients_of_makeAll made
    rw [List.length_map] at few
    have normal : ∀ m ∈ members, m.type.Normal := fun m hm =>
      (reachable _ (List.mem_map_of_mem hm)).normal
    have room : 1 + ((members.map Member.ingredients).map fun p => p.2.1.arena.size + 1).sum =
        cells members := by
      rw [List.map_map]
      rfl
    have same : ((members.map Member.key).map Name.text).Nodup ↔
        (members.map Member.key).Nodup := List.nodup_map_iff fun _ _ => Name.ext
    rw [room, Member.map_fst_ingredients, same]
    refine ⟨isOk_object_iff few normal, fun repeated => ?_, fun distinct full => ?_,
      fun d made => ?_⟩
    · obtain ⟨before, key, after, cut, fresh, known, failed⟩ := object_of_not_distinct repeated
      refine ⟨before.map Name.text, key.text, after.map Name.text, ?_, ?_, ?_, failed⟩
      · rw [cut, List.map_append, List.map_cons]
      · exact fresh.map fun _ _ => Name.ext
      · exact List.mem_map_of_mem known
    · exact (object_total few normal distinct).2 full
    · refine ⟨?_, fun key => ?_, fun p hp => ?_, ?_⟩
      · obtain ⟨all, known, keys⟩ := keys_of_object made few
        exact ⟨all, known, congrArg _ keys⟩
      · rw [hasKey_of_object made]
        simp
      · obtain ⟨m, hm, rfl⟩ := List.mem_map.1 hp
        exact ⟨memberModifiers_of_object made hm, declaredType_of_object made hm (normal m hm)⟩
      · exact rebuilt_of_object few (fun m hm => ⟨keyed m hm, normal m hm⟩) made

/-- A number and a read-only optional array, stored without room to spare. -/
theorem construction_inverts_lookup_pair :
    ∃ number : Descriptor 6, ofKind 6 .number = .ok number ∧
      ∃ tags : Descriptor 6, (do (← ofKind 6 .string).array) = .ok tags ∧
        ∃ members, Member.makeAll [(.ofString "id", number, .none),
          (.ofString "tags", tags, ⟨true, true, 0⟩)] = .ok members ∧
          ∃ d, object 6 members = .ok d ∧ d.declaredType (.ofString "tags") = .ok tags ∧
            d.tree.hasKey (.ofString "tag") = .ok false ∧ d.rebuilt = .ok d := by
  refine exists_ok_of_test (·.arena.size == 1) (by decide) fun number plain one => ?_
  refine exists_ok_of_test (·.arena.size == 2) (by decide) fun tags array two => ?_
  obtain ⟨text, ht, only⟩ := bind_eq_ok array
  refine exists_ok rfl fun members made => ?_
  have few : [Text.ofString "id", .ofString "tags"].length ≤ 16 := by decide
  have distinct : [Text.ofString "id", .ofString "tags"].Nodup := by decide
  have room : 1 + (number.arena.size + 1 + (tags.arena.size + 1 + 0)) ≤ 6 := by
    rw [eq_of_beq one, eq_of_beq two]
  have sound : ∀ p ∈ [(Text.ofString "id", number, Modifiers.none),
      (.ofString "tags", tags, ⟨true, true, 0⟩)], p.2.1.Reachable ∧ p.2.2.reserved = 0 := by
    refine List.forall_mem_cons.2 ⟨⟨.ofKind rfl plain, rfl⟩, List.forall_mem_singleton.2 ?_⟩
    exact ⟨.array (.ofKind rfl ht) only, rfl⟩
  obtain ⟨fits, -, -, known⟩ :=
    construction_inverts_lookup.1 6 _ members few (fun p hp => (sound p hp).1) made
  refine exists_ok (fits.2 ⟨distinct, room⟩) fun d shape => ?_
  obtain ⟨-, keys, each, -⟩ := known d shape
  have stored := each _ (List.mem_cons_of_mem _ List.mem_cons_self)
  refine ⟨stored.2, keys (.ofString "tag"), ?_⟩
  apply construction_inverts_lookup.2 6 d _ (isKind_of_object shape)
  obtain ⟨same, keyed⟩ := Member.ingredients_of_makeAll made
  have each : ∀ m ∈ members, m.type.Reachable ∧ m.modifiers.reserved = 0 := fun m hm =>
    sound m.ingredients (same ▸ List.mem_map_of_mem hm)
  refine .object (fun m hm => (each m hm).1) (fun m hm => ?_) shape
  refine ⟨m.key.text, m.modifiers.readOnly, m.modifiers.optional, ?_⟩
  rw [← (each m hm).2]
  exact Member.make_eq_ok_iff.2 ⟨keyed m hm, rfl⟩

end Descriptor

end StructuralTypes
