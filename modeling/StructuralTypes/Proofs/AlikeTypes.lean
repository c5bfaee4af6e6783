import StructuralTypes.Proofs.EqualTypes

/-!
# Types that are equal up to read-only marks

Equality sees the read-only marks of members, and assignability takes a shortcut for equal types.
The shortcut accepts nothing that the rules for the kinds would refuse: types that are equal up to
marks are accepted kind by kind, in both variances. Marks may tell alternatives of a union apart or
make them equal, so that types do not stay normal; what remains of the normal form is called regular
here.
-/

namespace StructuralTypes

namespace Head

/-- Set or clear the read-only mark of a member, or leave it. Other nodes have no such mark. -/
def remark (head : Head) (mark : Option Bool) : Head :=
  if head.tag = .known .member then
    { head with modifiers :=
      { head.modifiers with readOnly := mark.getD head.modifiers.readOnly } }
  else head

/-- The head without a read-only mark. -/
def unmarked (head : Head) : Head := head.remark (some false)

section Remark

variable (head : Head) (mark : Option Bool)

@[simp] theorem tag_remark : (head.remark mark).tag = head.tag := by
  rw [remark]
  split <;> rfl

@[simp] theorem name_remark : (head.remark mark).name = head.name := by
  rw [remark]
  split <;> rfl

@[simp] theorem optional_remark :
    (head.remark mark).modifiers.optional = head.modifiers.optional := by
  rw [remark]
  split <;> rfl

/-- The last mark counts. -/
@[simp] theorem unmarked_remark : (head.remark mark).unmarked = head.unmarked := by
  by_cases member : head.tag = .known .member
  · simp [unmarked, remark, member]
  · simp [unmarked, remark, member]

end Remark

theorem unmarked_of_ne {head : Head} (other : head.tag ≠ .known .member) :
    head.unmarked = head := by
  rw [unmarked, remark, if_neg other]

end Head

namespace Tree

section Unmarked

mutual

/-- The type with no member marked as read-only. -/
def unmarked : Tree → Tree
  | node head children => node head.unmarked (unmarkedAll children)

/-- Some types with no members marked as read-only. -/
def unmarkedAll : List Tree → List Tree
  | [] => []
  | t :: ts => t.unmarked :: unmarkedAll ts

end

theorem unmarkedAll_eq (ts : List Tree) : unmarkedAll ts = ts.map unmarked := by
  induction ts with
  | nil => rfl
  | cons t ts ih => rw [unmarkedAll, ih, List.map_cons]

@[simp] theorem unmarked_node (head : Head) (children : List Tree) :
    (node head children).unmarked = node head.unmarked (children.map unmarked) := by
  rw [unmarked, unmarkedAll_eq]

variable (t : Tree)

@[simp] theorem head_unmarked : t.unmarked.head = t.head.unmarked := by
  cases t
  rw [unmarked_node, head_node, head_node]

@[simp] theorem children_unmarked : t.unmarked.children = t.children.map unmarked := by
  cases t
  rw [unmarked_node, children_node, children_node]

@[simp] theorem tag_unmarked : t.unmarked.tag = t.tag := by
  rw [tag, head_unmarked, Head.unmarked, Head.tag_remark, tag]

@[simp] theorem name_unmarked : t.unmarked.name = t.name := by
  rw [name, head_unmarked, Head.unmarked, Head.name_remark, name]

@[simp] theorem optional_unmarked : t.unmarked.modifiers.optional = t.modifiers.optional := by
  rw [modifiers, head_unmarked, Head.unmarked, Head.optional_remark, modifiers]

@[simp] theorem isKind_unmarked (kind : Kind) : t.unmarked.isKind kind = t.isKind kind := by
  rw [isKind, tag_unmarked, isKind]

@[simp] theorem find?_unmarked (key : Text) :
    t.unmarked.find? key = (t.find? key).map unmarked := by
  rw [find?, children_unmarked, List.find?_map, find?]
  congr 2
  funext m
  rw [Function.comp_apply, name_unmarked]

/-- Opening unions does not depend on the marks. -/
@[simp] theorem alternatives_unmarked : t.unmarked.alternatives = t.alternatives.map unmarked := by
  induction t using nodeInduction with
  | node head children ih =>
      rw [alternatives_eq, alternatives_eq (node head children), isKind_unmarked, isKind_unmarked]
      split
      · rw [children_unmarked, List.flatMap_map, List.map_flatMap]
        exact List.flatMap_congr fun c hc => ih c hc
      · split <;> rfl

/-- Rearranged trees stay so when the marks are cleared. -/
theorem Reordering.unmarked {s t : Tree} (h : Reordering s t) :
    Reordering s.unmarked t.unmarked := by
  induction s using nodeInduction generalizing t with
  | node head children ih =>
      have cleared {as bs : List Tree} (inside : ∀ a ∈ as, a ∈ children)
          (below : List.Forall₂ Reordering as bs) :
          List.Forall₂ Reordering (as.map Tree.unmarked) (bs.map Tree.unmarked) := by
        rw [List.forall₂_map_left_iff, List.forall₂_map_right_iff]
        exact ((List.forall₂_and_left _ _).2 ⟨inside, below⟩).imp fun a b ⟨ha, h⟩ => ih a ha h
      cases h with
      | inPlace positional below =>
          rw [unmarked_node, unmarked_node]
          exact .inPlace (by rwa [Head.unmarked, Head.tag_remark]) (cleared (fun _ => id) below)
      | rearranged free order below =>
          rw [unmarked_node, unmarked_node]
          exact .rearranged (by rwa [Head.unmarked, Head.tag_remark]) (order.map _)
            (cleared (fun _ => order.mem_iff.2) below)

end Unmarked

/-- Types that are equal when the marks are cleared. -/
def Alike (s t : Tree) : Prop := s.unmarked.equiv t.unmarked = true

namespace Alike

variable {s t u : Tree}

theorem of_equiv (same : s.equiv t = true) : Alike s t :=
  (equiv_iff_reordering _ _).2 ((equiv_iff_reordering _ _).1 same).unmarked

theorem of_unmarked_eq (same : s.unmarked = t.unmarked) : Alike s t := by
  rw [Alike, same]
  exact equiv_refl _

theorem symm (h : Alike s t) : Alike t s := equiv_symm h

theorem trans (h : Alike s t) (k : Alike t u) : Alike s u := equiv_trans h k

variable (h : Alike s t)

include h

theorem isKind_eq (kind : Kind) : s.isKind kind = t.isKind kind := by
  simpa using isKind_eq_of_equiv h kind

theorem tag_eq : s.tag = t.tag := by
  simpa using tag_eq_of_equiv h

theorem name_eq : s.name = t.name := by
  simpa using name_eq_of_equiv h

/-- The names below the root are the same, in some order. -/
theorem perm_names : (s.children.map name).Perm (t.children.map name) := by
  simpa [Function.comp_def] using perm_names_of_equiv h

theorem optional_eq : s.modifiers.optional = t.modifiers.optional := by
  simpa using congrArg Modifiers.optional (modifiers_eq_of_equiv h)

theorem length_children : s.children.length = t.children.length := by
  simpa using length_children_of_equiv h

/-- Types of one node are equal, because the node is no member's. -/
theorem eq_of_leaf (type : s.isKind .member = false) (empty : s.children = []) : s = t := by
  have type' : t.isKind .member = false := (h.isKind_eq _).symm.trans type
  have empty' : t.children = [] := by
    rw [← List.length_eq_zero_iff, ← h.length_children, empty, List.length_nil]
  have heads : s.head = t.head := by
    have same := head_eq_of_equiv h
    rw [head_unmarked, head_unmarked] at same
    rw [Head.unmarked_of_ne, Head.unmarked_of_ne] at same
    · exact same
    · simpa [isKind, tag] using type'
    · simpa [isKind, tag] using type
  rw [← node_head_children s, ← node_head_children t, heads, empty, empty']

theorem exists_of_mem {c : Tree} (hc : c ∈ s.children) : ∃ d ∈ t.children, Alike c d := by
  have inside : c.unmarked ∈ s.unmarked.children := by
    rw [children_unmarked]
    exact List.mem_map_of_mem hc
  obtain ⟨u, hu, partner⟩ := exists_equiv_of_mem h inside
  rw [children_unmarked] at hu
  obtain ⟨d, hd, rfl⟩ := List.mem_map.1 hu
  exact ⟨d, hd, partner⟩

theorem exists_at (positional : s.tag.unordered = false) {i : Nat} {c : Tree}
    (hc : s.children[i]? = some c) : ∃ d, t.children[i]? = some d ∧ Alike c d := by
  have inside : s.unmarked.children[i]? = some c.unmarked := by
    rw [children_unmarked, List.getElem?_map, hc, Option.map_some]
  obtain ⟨u, hu, partner⟩ := exists_equiv_at h (by rwa [tag_unmarked]) inside
  rw [children_unmarked, List.getElem?_map] at hu
  obtain ⟨d, hd, rfl⟩ := Option.map_eq_some_iff.1 hu
  exact ⟨d, hd, partner⟩

theorem exists_first? (positional : s.tag.unordered = false) {c : Tree} (hc : s.first? = some c) :
    ∃ d, t.first? = some d ∧ Alike c d := by
  rw [first?, List.head?_eq_getElem?] at hc ⊢
  exact h.exists_at positional hc

/-- Alike types have alike children under a key. -/
theorem exists_of_find? (distinct : (t.children.map name).Nodup) {key : Text} {m : Tree}
    (found : s.find? key = some m) : ∃ n, t.find? key = some n ∧ Alike m n := by
  have inside : s.unmarked.find? key = some m.unmarked := by
    rw [find?_unmarked, found, Option.map_some]
  have names : (t.unmarked.children.map name).Nodup := by
    simpa [Function.comp_def] using distinct
  obtain ⟨u, hu, partner⟩ := exists_equiv_of_find? h names inside
  rw [find?_unmarked] at hu
  obtain ⟨n, hn, rfl⟩ := Option.map_eq_some_iff.1 hu
  exact ⟨n, hn, partner⟩

theorem find?_eq_none {key : Text} (absent : s.find? key = none) : t.find? key = none := by
  have missing : s.unmarked.find? key = none := by rw [find?_unmarked, absent, Option.map_none]
  simpa using find?_eq_none_of_equiv h missing

theorem exists_alternative {a : Tree} (ha : a ∈ s.alternatives) :
    ∃ b ∈ t.alternatives, Alike a b := by
  have inside : a.unmarked ∈ s.unmarked.alternatives := by
    rw [alternatives_unmarked]
    exact List.mem_map_of_mem ha
  obtain ⟨u, hu, partner⟩ := exists_equiv_of_mem_alternatives h inside
  rw [alternatives_unmarked] at hu
  obtain ⟨b, hb, rfl⟩ := List.mem_map.1 hu
  exact ⟨b, hb, partner⟩

end Alike

section Regular

/-- What normal types keep whatever marks their members get. -/
inductive Regular : Tree → Prop
  | intro {t : Tree} (type : t.isKind .member = false)
      (inner : t.isKind .object = false → ∀ c ∈ t.children, Regular c)
      (proper : t.isKind .union = true → ∀ a ∈ t.children, a.IsAlternative)
      (filled : ∀ kind ∈ [.fn, .ctor, .array], t.isKind kind = true → t.children ≠ [])
      (keys : t.isKind .object = true → (t.children.map name).Nodup)
      (slots : t.isKind .object = true →
        ∀ m ∈ t.children, m.isKind .member = true ∧ m.children ≠ [])
      (types : t.isKind .object = true → ∀ m ∈ t.children, Regular m.first)
      (leaf : t.children = [] ∨
        ∃ kind ∈ [.fn, .ctor, .array, .object, .union], t.isKind kind = true) : Regular t

theorem Normal.regular {t : Tree} (h : t.Normal) : t.Regular := by
  induction nodes : t.size using Nat.strongRecOn generalizing t with
  | _ n ih =>
      subst nodes
      refine .intro h.isKind_member ?_ (fun k => (h.alternatives k).proper) ?_
        (fun k => (h.members k).keys) ?_ ?_ ?_
      · intro single c hc
        exact ih _ (size_lt_of_mem hc) (h.of_mem_children single c hc) rfl
      · intro kind inside k
        have below := h.normalChildren k
        simp only [List.mem_cons, List.not_mem_nil, or_false] at inside
        rcases inside with rfl | rfl | rfl
        · exact below.1
        · exact below.1
        · obtain ⟨element, only, -⟩ := below
          simp [only]
      · intro k m hm
        have shaped := (h.members k).shaped m hm
        exact ⟨isKind_iff.2 shaped.tag, shaped.below⟩
      · intro k m hm
        have inside := first_mem ((h.members k).shaped m hm).below
        have := size_lt_of_mem hm
        have := size_lt_of_mem inside
        exact ih _ (by omega) ((h.members k).normal m hm) rfl
      · by_contra other
        rw [not_or, not_exists] at other
        refine other.1 (h.children_eq_nil fun kind inside => Bool.eq_false_iff.2 fun k => ?_)
        have different : kind ≠ .member := by
          rintro rfl
          rw [h.isKind_member] at k
          cases k
        refine other.2 kind ⟨?_, k⟩
        simp only [List.mem_cons, List.not_mem_nil, or_false] at inside ⊢
        tauto

/-- Neither marks nor order make a type irregular. -/
theorem Regular.of_alike {s t : Tree} (h : s.Regular) (alike : Alike s t) : t.Regular := by
  induction h generalizing t with
  | @intro s type inner proper filled keys slots types leaf ihInner ihTypes =>
      have kinds := alike.isKind_eq
      have empty {a b : Tree} (h : Alike a b) : a.children = [] ↔ b.children = [] := by
        rw [← List.length_eq_zero_iff, h.length_children, List.length_eq_zero_iff]
      refine .intro (kinds _ ▸ type) ?_ ?_ ?_ ?_ ?_ ?_ ?_
      · intro single c hc
        obtain ⟨d, hd, partner⟩ := alike.symm.exists_of_mem hc
        exact ihInner (kinds _ ▸ single) d hd partner.symm
      · intro union a ha
        obtain ⟨d, hd, partner⟩ := alike.symm.exists_of_mem ha
        exact (proper (kinds _ ▸ union) d hd).of_kinds partner.symm.isKind_eq
      · intro kind inside k
        exact (empty alike).not.1 (filled kind inside (kinds _ ▸ k))
      · exact fun object => alike.perm_names.nodup_iff.1 (keys (kinds _ ▸ object))
      · intro object m hm
        obtain ⟨d, hd, partner⟩ := alike.symm.exists_of_mem hm
        obtain ⟨member, some⟩ := slots (kinds _ ▸ object) d hd
        exact ⟨partner.isKind_eq _ ▸ member, (empty partner).not.2 some⟩
      · intro object m hm
        obtain ⟨d, hd, partner⟩ := alike.symm.exists_of_mem hm
        obtain ⟨member, some⟩ := slots (kinds _ ▸ object) d hd
        have positional : d.tag.unordered = false := unordered_of_isKind member
        obtain ⟨type, value, h⟩ := partner.symm.exists_first? positional (first?_eq_some some)
        rw [first, value]
        exact ihTypes (kinds _ ▸ object) d hd h
      · simpa only [empty alike, kinds] using leaf

namespace Regular

variable {t : Tree} (h : t.Regular)

include h

theorem isKind_member : t.isKind .member = false := by
  cases h
  assumption

theorem of_mem_children (single : t.isKind .object = false) : ∀ c ∈ t.children, c.Regular := by
  cases h with
  | intro type inner => exact inner single

theorem proper (union : t.isKind .union = true) : ∀ a ∈ t.children, a.IsAlternative := by
  cases h with
  | intro type inner proper => exact proper union

theorem ne_nil {kind : Kind} (inside : kind ∈ [.fn, .ctor, .array]) (k : t.isKind kind = true) :
    t.children ≠ [] := by
  cases h with
  | intro type inner proper filled => exact filled kind inside k

theorem keys (object : t.isKind .object = true) : (t.children.map name).Nodup := by
  cases h with
  | intro type inner proper filled keys => exact keys object

theorem slot (object : t.isKind .object = true) {m : Tree} (hm : m ∈ t.children) :
    m.isKind .member = true ∧ m.first? = some m.first ∧ m.first.Regular := by
  cases h with
  | intro type inner proper filled keys slots types =>
      obtain ⟨member, some⟩ := slots object m hm
      exact ⟨member, first?_eq_some some, types object m hm⟩

theorem leaf_or_kind : t.children = [] ∨
    ∃ kind ∈ [.fn, .ctor, .array, .object, .union], t.isKind kind = true := by
  cases h
  assumption

/-- The alternatives are regular, and only `unknown` has `unknown` as an alternative. -/
theorem of_mem_alternatives {a : Tree} (ha : a ∈ t.alternatives) :
    a.Regular ∧ (a.isKind .unknown = true → a = t) := by
  rw [alternatives_eq] at ha
  split at ha
  · next union =>
    obtain ⟨c, hc, ha⟩ := List.mem_flatMap.1 ha
    have single := h.proper union c hc
    rw [alternatives_of_single single.noUnion single.notNever, List.mem_singleton] at ha
    subst ha
    refine ⟨h.of_mem_children (isKind_eq_false union (by decide)) a hc, fun known => ?_⟩
    rw [single.notUnknown] at known
    cases known
  · split at ha
    · cases ha
    · rw [List.mem_singleton.1 ha]
      exact ⟨h, fun _ => rfl⟩

end Regular

end Regular

section Shortcut

/-- Pairs of regular types with fewer nodes are accepted when they are alike. -/
def AcceptedBelow (s t : Tree) : Prop :=
  ∀ u v : Tree, u.size + v.size < s.size + t.size → u.Regular → v.Regular → Alike u v →
    u.assignable v = true

variable {s t : Tree} (hs : s.Regular) (ht : t.Regular) (alike : Alike s t)
  (below : AcceptedBelow s t)

include hs ht alike below

theorem signatureAssignable_of_alike {kind : Kind} (signature : kind.isSignature = true)
    (k : s.isKind kind = true) : s.signatureAssignable t = true := by
  have k' : t.isKind kind = true := (alike.isKind_eq kind).symm.trans k
  have positional := unordered_of_isSignature signature k
  have positional' := unordered_of_isSignature signature k'
  have single : kind ≠ .object := by rintro rfl; cases signature
  have typeS := hs.of_mem_children (isKind_eq_false k single)
  have typeT := ht.of_mem_children (isKind_eq_false k' single)
  have below {u v : Tree} (hu : u ∈ s.children) (hv : v ∈ t.children) (h : Alike u v) :
      u.assignable v = true ∧ v.assignable u = true := by
    have := size_lt_of_mem hu
    have := size_lt_of_mem hv
    exact ⟨below u v (by omega) (typeS u hu) (typeT v hv) h,
      below v u (by omega) (typeT v hv) (typeS u hu) h.symm⟩
  rw [signatureAssignable_iff]
  refine ⟨alike.length_children.le, ?_, ?_⟩
  · intro i p q hp hq
    obtain ⟨p', hp', h⟩ := alike.exists_at positional hq
    obtain rfl := Option.some.inj (hp.symm.trans hp')
    exact (below (List.mem_of_getElem? hq) (List.mem_of_getElem? hp) h).2
  · have inside : kind ∈ [.fn, .ctor, .array] := by
      cases kind <;> first | decide | cases signature
    have value := first?_eq_some (hs.ne_nil inside k)
    obtain ⟨r, hr, h⟩ := alike.exists_first? positional value
    exact ⟨r, hr, .inr ⟨s.first, value, (below (mem_of_first? value) (mem_of_first? hr) h).1⟩⟩

theorem memberAssignable_of_alike (k : s.isKind .object = true) {m : Tree} (hm : m ∈ t.children) :
    s.memberAssignable m = true := by
  have k' : t.isKind .object = true := (alike.isKind_eq _).symm.trans k
  obtain ⟨found, hf, partner⟩ := alike.symm.exists_of_mem hm
  obtain ⟨member, slot, typeT⟩ := ht.slot k' hm
  obtain ⟨-, value, typeS⟩ := hs.slot k hf
  have present : s.find? m.name.text = some found :=
    (find?_eq_some_iff (hs.keys k)).2 ⟨hf, congrArg Name.text partner.name_eq.symm⟩
  have positional : m.tag.unordered = false := unordered_of_isKind member
  obtain ⟨type, value', h⟩ := partner.exists_first? positional slot
  obtain rfl : found.first = type := Option.some.inj (value.symm.trans value')
  have := size_lt_of_mem hm
  have := size_lt_of_mem hf
  have := size_lt_of_first? slot
  have := size_lt_of_first? value
  have assigns := below found.first m.first (by omega) typeS typeT h.symm
  rw [memberAssignable_iff]
  cases optional : m.modifiers.optional with
  | false =>
      exact .required present slot value optional (partner.optional_eq.symm.trans optional) assigns
  | true =>
      exact .optional present slot value optional fun a ha _ =>
        (assignable_iff_each _ _).1 assigns a ha

theorem assignable_of_alike_single (single : s.IsAlternative) : s.assignable t = true := by
  have kinds := alike.isKind_eq
  rw [single.assignable_iff (kinds _ ▸ single.noUnion) (kinds _ ▸ single.notUnknown)]
  rcases hs.leaf_or_kind with empty | ⟨kind, inside, k⟩
  · obtain rfl := alike.eq_of_leaf hs.isKind_member empty
    exact .inl (equiv_refl s)
  · refine .inr (.inr ?_)
    have k' : t.isKind kind = true := kinds kind ▸ k
    simp only [List.mem_cons, List.not_mem_nil, or_false] at inside
    rcases inside with rfl | rfl | rfl | rfl | rfl
    · exact .signature rfl k k' (signatureAssignable_of_alike hs ht alike below rfl k)
    · exact .signature rfl k k' (signatureAssignable_of_alike hs ht alike below rfl k)
    · have value := first?_eq_some (hs.ne_nil (by decide) k)
      obtain ⟨expected, slot, h⟩ := alike.exists_first? (unordered_of_isKind k) value
      have := size_lt_of_first? slot
      have := size_lt_of_first? value
      have typeS := hs.of_mem_children (isKind_eq_false k (by decide)) _ (mem_of_first? value)
      have typeT := ht.of_mem_children (isKind_eq_false k' (by decide)) _ (mem_of_first? slot)
      exact .array k k' ⟨expected, slot, s.first, value, below _ _ (by omega) typeS typeT h⟩
    · exact .object k k' fun m hm => memberAssignable_of_alike hs ht alike below k hm
    · rw [single.noUnion] at k
      cases k

end Shortcut

/-- Types that are alike are assignable without the shortcut for equal types. -/
theorem Regular.assignable_of_alike {s t : Tree} (hs : s.Regular) (ht : t.Regular)
    (alike : Alike s t) : s.assignable t = true := by
  induction nodes : s.size + t.size using Nat.strongRecOn generalizing s t with
  | _ n ih =>
      subst nodes
      cases known : t.isKind .unknown with
      | true => exact assignable_of_unknown known
      | false =>
          refine (assignable_iff_alternatives s t).2 (.inr fun a ha => ?_)
          obtain ⟨b, hb, partner⟩ := alike.exists_alternative ha
          obtain ⟨typeA, top⟩ := hs.of_mem_alternatives ha
          have single : a.IsAlternative := by
            refine isAlternative_of_mem ha (Bool.eq_false_iff.2 fun unknown => ?_)
            obtain rfl := top unknown
            rw [alike.isKind_eq, known] at unknown
            cases unknown
          have := size_le_of_mem_alternatives ha
          have := size_le_of_mem_alternatives hb
          have below : AcceptedBelow a b := fun u v fewer hu hv h => ih _ (by omega) hu hv h rfl
          exact ⟨single, b, hb, assignable_of_alike_single typeA (ht.of_mem_alternatives hb).1
            partner below single⟩

end Tree

end StructuralTypes
