import StructuralTypes.Proofs.PropertyType
import StructuralTypes.Proofs.UnsharedStorage

/-!
# The algebra of unions

Normalizing a union collects the leaves below its nested unions and keeps the first of each class of
equal leaves. What it gives depends on the set of leaves alone, up to equality. So unions may be
nested, rearranged, repeated and padded with `never` in any way, and a type in normal form is its own
normal form.
-/

namespace StructuralTypes

namespace Tree

section Leaves

/-- The trees that equal none of those before them, in order. -/
def firstOccurrences : List Tree → List Tree
  | [] => []
  | t :: ts => t :: (firstOccurrences ts).filter fun u => !t.equiv u

/-- The alternatives that a union keeps apart: those below its nested unions, each once. -/
def leaves (t : Tree) : List Tree := firstOccurrences t.alternatives

/-- Merging adds the first occurrences of what is not there yet. -/
theorem foldl_merge_eq (found ts : List Tree) :
    ts.foldl merge found =
      found ++ (firstOccurrences ts).filter fun u => !found.any (·.equiv u) := by
  induction ts generalizing found with
  | nil => exact (List.append_nil found).symm
  | cons t ts ih =>
      rw [List.foldl_cons, ih, firstOccurrences, merge]
      cases known : found.any (·.equiv t) with
      | true =>
          -- What equals `t` equals what `t` equals, so it is dropped in either case.
          have dropped : ∀ u, t.equiv u = true → found.any (·.equiv u) = true := by
            intro u same
            obtain ⟨a, ha, equal⟩ := List.any_eq_true.1 known
            exact List.any_eq_true.2 ⟨a, ha, equiv_trans equal same⟩
          rw [if_pos rfl, List.filter_cons_of_neg (by simp [known]), List.filter_filter]
          congr 2
          funext u
          cases same : t.equiv u with
          | true => rw [dropped u same]; rfl
          | false => rw [Bool.not_false, Bool.and_true]
      | false =>
          rw [if_neg Bool.false_ne_true, List.filter_cons_of_pos (by simp [known]),
            List.filter_filter, List.append_assoc, List.singleton_append]
          congr 3
          funext u
          rw [List.any_append, List.any_cons, List.any_nil, Bool.or_false, Bool.not_or]

theorem merged_eq_firstOccurrences (ts : List Tree) : merged ts = firstOccurrences ts := by
  rw [merged, foldl_merge_eq]
  exact List.filter_eq_self.2 fun _ _ => rfl

theorem mem_alternatives_of_mem_leaves {t a : Tree} (h : a ∈ t.leaves) : a ∈ t.alternatives := by
  rw [leaves, ← merged_eq_firstOccurrences] at h
  exact mem_of_mem_merged h

theorem distinct_leaves (t : Tree) : Distinct t.leaves := by
  rw [leaves, ← merged_eq_firstOccurrences]
  exact distinct_merged _

end Leaves

section Normalizing

/-- The type that distinct leaves make: `unknown` absorbs the others, no leaf is `never`, a single
one stands for itself, and several of them are the children of one union. -/
inductive IsUnionOf : List Tree → Tree → Prop
  | unknown {ts : List Tree} {a : Tree} (inside : a ∈ ts) (known : a.isKind .unknown = true) :
      IsUnionOf ts (ofKind .unknown)
  | never : IsUnionOf [] (ofKind .never)
  | single {a : Tree} (proper : a.isKind .unknown = false) : IsUnionOf [a] a
  | several {ts : List Tree} (several : 2 ≤ ts.length)
      (proper : ∀ a ∈ ts, a.isKind .unknown = false) : IsUnionOf ts (node (.ofKind .union) ts)

theorem isUnionOf_leaves (ts : List Tree) :
    IsUnionOf ts (if ts.any (·.isKind .unknown) then ofKind .unknown else ofAlternatives ts) := by
  split
  · next absorbing =>
    obtain ⟨a, inside, known⟩ := List.any_eq_true.1 absorbing
    exact .unknown inside known
  · next others =>
    simp only [List.any_eq_true, not_exists, not_and, Bool.not_eq_true] at others
    match ts with
    | [] => exact .never
    | [a] => exact .single (others a List.mem_cons_self)
    | a :: b :: rest => exact .several (by simp) others

theorem IsUnionOf.absorbed_or_kept {ts : List Tree} {t : Tree} (h : IsUnionOf ts t) :
    (t = ofKind .unknown ∧ ∃ a ∈ ts, a.isKind .unknown = true) ∨
      ((∀ a ∈ ts, a.isKind .unknown = false) ∧ t = ofAlternatives ts) := by
  cases h with
  | unknown inside known => exact .inl ⟨rfl, _, inside, known⟩
  | never => exact .inr ⟨nofun, rfl⟩
  | single proper => exact .inr ⟨List.forall_mem_singleton.2 proper, rfl⟩
  | several several proper =>
      match ts with
      | _ :: _ :: _ => exact .inr ⟨proper, rfl⟩

theorem IsUnionOf.eq_unknown {ts : List Tree} {t a : Tree} (h : IsUnionOf ts t) (inside : a ∈ ts)
    (known : a.isKind .unknown = true) : t = ofKind .unknown := by
  rcases h.absorbed_or_kept with ⟨absorbed, -⟩ | ⟨proper, -⟩
  · exact absorbed
  · rw [proper a inside] at known
    cases known

theorem IsUnionOf.eq_ofAlternatives {ts : List Tree} {t : Tree} (h : IsUnionOf ts t)
    (proper : ∀ a ∈ ts, a.isKind .unknown = false) : t = ofAlternatives ts := by
  rcases h.absorbed_or_kept with ⟨-, a, inside, known⟩ | ⟨-, kept⟩
  · rw [proper a inside] at known
    cases known
  · exact kept

/-- Normalizing fails exactly when more than 16 leaves are kept apart. -/
theorem normalized_total (t : Tree) :
    (t.leaves.length ≤ 16 → ∃ u, t.normalized = .ok u ∧ IsUnionOf t.leaves u) ∧
      (16 < t.leaves.length → t.normalized = .error .tooManyAlternatives) := by
  rw [normalized, distinctAlternatives_eq, merged_eq_firstOccurrences, ← leaves]
  constructor
  · intro few
    rw [if_pos few]
    exact ⟨_, rfl, isUnionOf_leaves t.leaves⟩
  · intro many
    rw [if_neg (Nat.not_le.2 many)]
    rfl

theorem isUnionOf_of_normalized {t u : Tree} (h : t.normalized = .ok u) :
    t.leaves.length ≤ 16 ∧ IsUnionOf t.leaves u := by
  obtain ⟨fits, full⟩ := t.normalized_total
  rcases Nat.lt_or_ge 16 t.leaves.length with many | few
  · rw [full many] at h
    cases h
  · obtain ⟨v, made, known⟩ := fits few
    rw [made] at h
    cases h
    exact ⟨few, known⟩

/-- Distinct alternatives are kept as they are. -/
theorem normalized_of_distinct {t : Tree} (distinct : Distinct t.alternatives)
    (few : t.alternatives.length ≤ 16) (proper : ∀ a ∈ t.alternatives, a.isKind .unknown = false) :
    t.normalized = .ok (ofAlternatives t.alternatives) := by
  have kept : t.leaves = t.alternatives := by
    rw [leaves, ← merged_eq_firstOccurrences, merged_of_distinct distinct]
  obtain ⟨u, made, known⟩ := t.normalized_total.1 (kept ▸ few)
  rw [kept] at known
  rw [made, known.eq_ofAlternatives proper]

/-- A normal form is its own normal form, whatever it was made of. -/
theorem normalized_idempotent {t u : Tree} (h : t.normalized = .ok u) : u.normalized = .ok u := by
  obtain ⟨few, made⟩ := isUnionOf_of_normalized h
  have single : ∀ a ∈ t.leaves, a.isKind .union = false ∧ a.isKind .never = false := fun a ha =>
    isKind_of_mem_alternatives (mem_alternatives_of_mem_leaves ha)
  rcases made.absorbed_or_kept with ⟨rfl, -⟩ | ⟨proper, same⟩
  · rfl
  · have opened : u.alternatives = t.leaves := by rw [same, alternatives_ofAlternatives single]
    have kept : u.normalized = .ok (ofAlternatives u.alternatives) := by
      apply normalized_of_distinct <;> rw [opened]
      · exact t.distinct_leaves
      · exact few
      · exact proper
    rw [kept, opened, ← same]

namespace Normal

variable {t : Tree} (h : t.Normal)

include h

/-- A normal type is made of its alternatives. -/
theorem ofAlternatives_alternatives : ofAlternatives t.alternatives = t := by
  cases union : t.isKind .union with
  | true =>
      rw [h.alternatives_of_union union]
      have several := h.several union
      calc ofAlternatives t.children
          = node (.ofKind .union) t.children := by
            match t.children, several with
            | _ :: _ :: _, _ => rfl
        _ = t := by rw [← h.head_eq union rfl, node_head_children]
  | false =>
      cases never : t.isKind .never with
      | true => rw [h.eq_ofKind rfl never]; rfl
      | false => rw [alternatives_of_single union never]; rfl

/-- A normal type is its own normal form. -/
theorem normalized_eq : t.normalized = .ok t := by
  cases known : t.isKind .unknown with
  | true =>
      rw [h.eq_ofKind rfl known]
      rfl
  | false =>
      have proper : ∀ a ∈ t.alternatives, a.isKind .unknown = false := fun a ha =>
        Bool.eq_false_iff.2 fun top => Bool.eq_false_iff.1 known (h.isKind_unknown_of_mem ha top)
      calc t.normalized
          = .ok (ofAlternatives t.alternatives) :=
            normalized_of_distinct h.distinct_alternatives h.length_alternatives_le proper
        _ = .ok t := by rw [h.ofAlternatives_alternatives]

end Normal

end Normalizing

section Sets

/-- The same types in any order, whatever the repetitions. -/
structure SameSet (ts us : List Tree) : Prop where
  left : ∀ t ∈ ts, ∃ u ∈ us, t.equiv u = true
  right : ∀ u ∈ us, ∃ t ∈ ts, u.equiv t = true

namespace SameSet

variable {ts us vs : List Tree}

theorem of_mem_iff (h : ∀ t, t ∈ ts ↔ t ∈ us) : SameSet ts us :=
  ⟨fun t ht => ⟨t, (h t).1 ht, equiv_refl t⟩, fun u hu => ⟨u, (h u).2 hu, equiv_refl u⟩⟩

theorem symm (h : SameSet ts us) : SameSet us ts := ⟨h.right, h.left⟩

theorem trans (h : SameSet ts us) (k : SameSet us vs) : SameSet ts vs := by
  have through {as bs cs : List Tree} (h : ∀ a ∈ as, ∃ b ∈ bs, a.equiv b = true)
      (k : ∀ b ∈ bs, ∃ c ∈ cs, b.equiv c = true) : ∀ a ∈ as, ∃ c ∈ cs, a.equiv c = true := by
    intro a ha
    obtain ⟨b, hb, first⟩ := h a ha
    obtain ⟨c, hc, second⟩ := k b hb
    exact ⟨c, hc, equiv_trans first second⟩
  exact ⟨through h.left k.left, through k.right h.right⟩

theorem exists_isKind (h : SameSet ts us) {t : Tree} (ht : t ∈ ts) {kind : Kind}
    (k : t.isKind kind = true) : ∃ u ∈ us, u.isKind kind = true := by
  obtain ⟨u, hu, equal⟩ := h.left t ht
  exact ⟨u, hu, by rw [← isKind_eq_of_equiv equal, k]⟩

/-- Merging drops repetitions alone. -/
theorem merged (ts : List Tree) : SameSet (Tree.merged ts) ts where
  left t ht := ⟨t, mem_of_mem_merged ht, equiv_refl t⟩
  right t ht := by
    obtain ⟨u, hu, equal⟩ := exists_equiv_mem_merged ht
    exact ⟨u, hu, equiv_symm equal⟩

/-- Equal sets, one for each group, make equal sets. -/
theorem flatMap {ι : Type} {groups : List ι} {f g : ι → List Tree}
    (each : ∀ i ∈ groups, SameSet (f i) (g i)) : SameSet (groups.flatMap f) (groups.flatMap g) := by
  have inside {f g : ι → List Tree} (partners : ∀ i ∈ groups, ∀ t ∈ f i, ∃ u ∈ g i, t.equiv u = true) :
      ∀ t ∈ groups.flatMap f, ∃ u ∈ groups.flatMap g, t.equiv u = true := by
    intro t ht
    obtain ⟨i, hi, ht⟩ := List.mem_flatMap.1 ht
    obtain ⟨u, hu, equal⟩ := partners i hi t ht
    exact ⟨u, List.mem_flatMap.2 ⟨i, hi, hu⟩, equal⟩
  exact ⟨inside fun i hi => (each i hi).left, inside fun i hi => (each i hi).right⟩

/-- Equal sets have equally many first occurrences. -/
theorem length_firstOccurrences (h : SameSet ts us) :
    (firstOccurrences ts).length = (firstOccurrences us).length := by
  rw [← merged_eq_firstOccurrences, ← merged_eq_firstOccurrences]
  exact (sameTypes_merged h.left h.right).length_eq

/-- Normal types with the same alternatives are equal. -/
theorem equiv {t u : Tree} (ht : t.Normal) (hu : u.Normal)
    (h : SameSet t.alternatives u.alternatives) : t.equiv u = true := by
  have kept := sameTypes_merged h.left h.right
  rw [merged_of_distinct ht.distinct_alternatives,
    merged_of_distinct hu.distinct_alternatives] at kept
  have equal := kept.ofAlternatives
  rwa [ht.ofAlternatives_alternatives, hu.ofAlternatives_alternatives] at equal

end SameSet

/-- The type has the alternatives that are listed, or is `unknown` because that is one of them. -/
inductive Gathers (t : Tree) (all : List Tree) : Prop
  | absorbed {a : Tree} (top : t.isKind .unknown = true) (inside : a ∈ all)
      (known : a.isKind .unknown = true)
  | kept (proper : ∀ a ∈ all, a.isKind .unknown = false) (same : SameSet t.alternatives all)

/-- A normal type gathers its own alternatives. -/
theorem Normal.gathers {t : Tree} (h : t.Normal) : Gathers t t.alternatives := by
  cases known : t.isKind .unknown with
  | true =>
      have inside : t ∈ t.alternatives := by simp [alternatives_of_unknown known]
      exact .absorbed known inside known
  | false =>
      refine .kept (fun a ha => ?_) (.of_mem_iff fun _ => .rfl)
      exact Bool.eq_false_iff.2 fun top =>
        Bool.eq_false_iff.1 known (h.isKind_unknown_of_mem ha top)

namespace Gathers

variable {t : Tree} {all : List Tree} (h : Gathers t all)

include h

theorem exists_unknown {a : Tree} (ha : a ∈ t.alternatives) (known : a.isKind .unknown = true) :
    ∃ b ∈ all, b.isKind .unknown = true := by
  cases h with
  | absorbed _ inside known => exact ⟨_, inside, known⟩
  | kept _ same => exact same.exists_isKind ha known

theorem kept_of_proper (proper : ∀ a ∈ t.alternatives, a.isKind .unknown = false) :
    (∀ a ∈ all, a.isKind .unknown = false) ∧ SameSet t.alternatives all := by
  cases h with
  | absorbed top =>
      have inside : t ∈ t.alternatives := by simp [alternatives_of_unknown top]
      rw [proper t inside] at top
      cases top
  | kept proper same => exact ⟨proper, same⟩

end Gathers

/-- A union of types gathers what they gather. -/
theorem gathers_union {ι : Type} {groups : List ι} {type : ι → Tree} {all : ι → List Tree}
    (parts : ∀ g ∈ groups, Gathers (type g) (all g)) {u : Tree}
    (h : (node (.ofKind .union) (groups.map type)).normalized = .ok u) :
    Gathers u (groups.flatMap all) := by
  have opened : (node (.ofKind .union) (groups.map type)).alternatives =
      groups.flatMap fun g => (type g).alternatives := by
    rw [alternatives_union, List.flatMap_map]
  rcases alternatives_of_normalized h with ⟨top, a, ha, known⟩ | ⟨proper, kept⟩
  · rw [opened] at ha
    obtain ⟨g, hg, ha⟩ := List.mem_flatMap.1 ha
    obtain ⟨b, hb, known⟩ := (parts g hg).exists_unknown ha known
    exact .absorbed top (List.mem_flatMap.2 ⟨g, hg, hb⟩) known
  · rw [opened] at proper kept
    have each : ∀ g ∈ groups, (∀ a ∈ all g, a.isKind .unknown = false) ∧
        SameSet (type g).alternatives (all g) := fun g hg =>
      (parts g hg).kept_of_proper fun a ha => proper a (List.mem_flatMap.2 ⟨g, hg, ha⟩)
    apply Gathers.kept
    · intro a ha
      obtain ⟨g, hg, ha⟩ := List.mem_flatMap.1 ha
      exact (each g hg).1 a ha
    · rw [kept]
      exact (SameSet.merged _).trans (.flatMap fun g hg => (each g hg).2)

/-- Normal types that gather the same set are equal. -/
theorem Gathers.equiv {t u : Tree} {ts us : List Tree} (left : Gathers t ts) (ht : t.Normal)
    (hu : u.Normal) (right : Gathers u us) (same : SameSet ts us) : t.equiv u = true := by
  -- If one side is absorbed, the other has an alternative that absorbs it as well.
  have apart {as bs : List Tree} (same : SameSet as bs) {a : Tree} (inside : a ∈ as)
      (known : a.isKind .unknown = true) : ¬ ∀ b ∈ bs, b.isKind .unknown = false := by
    intro proper
    obtain ⟨b, hb, known⟩ := same.exists_isKind inside known
    rw [proper b hb] at known
    cases known
  cases left with
  | absorbed top inside known =>
      cases right with
      | absorbed top' =>
          rw [ht.eq_ofKind rfl top, hu.eq_ofKind rfl top']
          exact equiv_refl _
      | kept proper => exact absurd proper (apart same inside known)
  | kept proper equal =>
      cases right with
      | absorbed _ inside known => exact absurd proper (apart same.symm inside known)
      | kept _ equal' => exact SameSet.equiv ht hu (equal.trans (same.trans equal'.symm))

end Sets

end Tree

namespace Descriptor

variable {cap : Nat}

/-- The alternatives of some operands, one operand after the other. -/
def alternatives (operands : List (Descriptor cap)) : List Tree :=
  operands.flatMap fun o => o.tree.alternatives

/-- What nested unions make of some operands. -/
inductive Joined : List (Descriptor cap) → Descriptor cap → Prop
  | operand (o : Descriptor cap) : Joined [o] o
  | union {groups : List (List (Descriptor cap) × Descriptor cap)} {d : Descriptor cap}
      (parts : ∀ g ∈ groups, Joined g.1 g.2) (made : union (groups.map Prod.snd) = .ok d) :
      Joined (groups.flatMap Prod.fst) d

namespace Joined

variable {operands : List (Descriptor cap)} {d : Descriptor cap}

/-- A single union has its operands as they are. -/
theorem of_union (made : Descriptor.union operands = .ok d) : Joined operands d := by
  have nested : Joined ((operands.map fun o => ([o], o)).flatMap Prod.fst) d := by
    refine .union ?_ (by rwa [List.map_map, Function.comp_def, List.map_id'])
    rw [List.forall_mem_map]
    exact fun o _ => .operand o
  rwa [List.flatMap_map, List.flatMap_singleton'] at nested

/-- A union of two parts. -/
theorem pair {as bs : List (Descriptor cap)} {a b : Descriptor cap} (left : Joined as a)
    (right : Joined bs b) (made : Descriptor.union [a, b] = .ok d) : Joined (as ++ bs) d := by
  have parts : ∀ g ∈ [(as, a), (bs, b)], Joined g.1 g.2 :=
    List.forall_mem_cons.2 ⟨left, List.forall_mem_singleton.2 right⟩
  have nested := Joined.union parts made
  rwa [List.flatMap_cons, List.flatMap_singleton] at nested

theorem normal (h : Joined operands d) (each : ∀ o ∈ operands, o.Normal) : d.Normal := by
  induction h with
  | operand o => exact each o List.mem_cons_self
  | union _ made ih =>
      refine normal_union (List.forall_mem_map.2 fun g hg => ih g hg fun o ho => ?_) made
      exact each o (List.mem_flatMap.2 ⟨g, hg, ho⟩)

/-- However the operands are grouped, their alternatives are gathered. -/
theorem gathers (h : Joined operands d) (each : ∀ o ∈ operands, o.Normal) :
    d.tree.Gathers (alternatives operands) := by
  induction h with
  | operand o =>
      rw [alternatives, List.flatMap_singleton]
      exact (each o List.mem_cons_self).type.gathers
  | @union groups d _ made ih =>
      have parts : ∀ g ∈ groups, Tree.Gathers g.2.tree (alternatives g.1) := fun g hg =>
        ih g hg fun o ho => each o (List.mem_flatMap.2 ⟨g, hg, ho⟩)
      have whole := tree_of_union made
      rw [List.map_map] at whole
      have gathered := Tree.gathers_union parts whole
      rwa [alternatives, List.flatMap_assoc]

/-- The set of the operands' alternatives determines the type. -/
theorem equiv {m n : Nat} {as : List (Descriptor m)} {bs : List (Descriptor n)}
    {d : Descriptor m} {e : Descriptor n} (ha : ∀ o ∈ as, o.Reachable) (hb : ∀ o ∈ bs, o.Reachable)
    (left : Joined as d) (right : Joined bs e)
    (same : Tree.SameSet (alternatives as) (alternatives bs)) : d.tree.equiv e.tree = true := by
  have normalA : ∀ o ∈ as, o.Normal := fun o ho => (ha o ho).normal
  have normalB : ∀ o ∈ bs, o.Normal := fun o ho => (hb o ho).normal
  exact (left.gathers normalA).equiv (left.normal normalA).type (right.normal normalB).type
    (right.gathers normalB) same

end Joined

section Laws

variable {d e : Descriptor cap}

/-- Operands that occur in both lists give the same alternatives. -/
theorem sameSet_of_mem_iff {as bs : List (Descriptor cap)} (h : ∀ o, o ∈ as ↔ o ∈ bs) :
    Tree.SameSet (alternatives as) (alternatives bs) := by
  apply Tree.SameSet.of_mem_iff
  intro t
  simp only [alternatives, List.mem_flatMap, h]

/-- Normalizing fails as it does on the type. -/
theorem normalized_eq_error {fault : Fault} (h : d.tree.normalized = .error fault) :
    d.normalized = .error fault := by
  rw [normalized, transform, h]
  rfl

/-- A type that is stored without sharing leaves room for its normal form. -/
theorem exists_normalized (unshared : d.arena.Unshared) {u : Tree}
    (h : d.tree.normalized = .ok u) : ∃ e, d.normalized = .ok e ∧ e.tree = u := by
  have small : u.size ≤ cap :=
    calc u.size
        ≤ d.tree.size := Tree.size_normalized_le h
      _ ≤ d.arena.size := unshared.size_tree_le d.inside
      _ ≤ cap := d.arena.bounded
  obtain ⟨e, made⟩ := (ofTree_total cap u).1 small
  refine ⟨e, ?_, tree_of_ofTree made⟩
  rw [normalized, transform, h]
  exact made

theorem normalized_of_normalized (h : d.normalized = .ok e) : e.normalized = .ok e := by
  obtain ⟨u, normalized, made⟩ := bind_eq_ok h
  rw [Descriptor.normalized, transform, tree_of_ofTree made, Tree.normalized_idempotent normalized]
  exact made

theorem Normal.normalized_eq (h : d.Normal) : d.normalized = .ok d := by
  rw [normalized, transform, h.type.normalized_eq]
  exact h.laidOut

/-- What holds of unions of sets holds of unions of types, as far as there is room for them. -/
structure SetLaws (a b c : Descriptor cap) : Prop where
  comm : ∀ d e, union [a, b] = .ok d → union [b, a] = .ok e → d.tree.equiv e.tree = true
  assoc : ∀ left right d e, union [a, b] = .ok left → union [b, c] = .ok right →
    union [left, c] = .ok d → union [a, right] = .ok e → d.tree.equiv e.tree = true
  idem : ∀ d, union [a, a] = .ok d → d.tree.equiv a.tree = true
  never : ∀ none d, ofKind cap .never = .ok none → union [a, none] = .ok d →
    d.tree.equiv a.tree = true

theorem Reachable.setLaws {a b c : Descriptor cap} (ha : a.Reachable) (hb : b.Reachable)
    (hc : c.Reachable) : SetLaws a b c where
  comm d e left right := by
    apply Joined.equiv _ _ (.of_union left) (.of_union right)
    · exact sameSet_of_mem_iff fun o => by simp [or_comm]
    · simp [ha, hb]
    · simp [ha, hb]
  assoc left right d e first second made made' := by
    have nestedLeft : Joined [a, b, c] d := .pair (.of_union first) (.operand c) made
    have nestedRight : Joined [a, b, c] e := .pair (.operand a) (.of_union second) made'
    have each : ∀ o ∈ [a, b, c], o.Reachable := by simp [ha, hb, hc]
    exact nestedLeft.equiv each each nestedRight (sameSet_of_mem_iff fun _ => .rfl)
  idem d made := by
    have each : ∀ o ∈ [a, a], o.Reachable := by simp [ha]
    apply Joined.equiv each _ (.of_union made) (.operand a)
    · exact sameSet_of_mem_iff fun o => by simp
    · exact List.forall_mem_singleton.2 ha
  never none d empty made := by
    have each : ∀ o ∈ [a, none], o.Reachable := by simp [ha, Reachable.ofKind rfl empty]
    apply Joined.equiv each (List.forall_mem_singleton.2 ha) (.of_union made) (.operand a)
    have nothing : none.tree.alternatives = [] := by
      rw [tree_of_ofTree empty]
      rfl
    have same : alternatives [a, none] = alternatives [a] := by simp [alternatives, nothing]
    rw [same]
    exact .of_mem_iff fun _ => .rfl

end Laws

/-- Normalizing a union means taking a set of leaves. A stored union, whatever its nodes are and as
long as none is shared, is normalized by keeping the first of each class of equal leaves below its
nested unions: more than 16 are a fault, and the only one; otherwise they make up the result. A
result is its own normal form, and so is every type that the operations build, node for node. Unions
that are nested in any way are equal when their operands have the same alternatives up to equality,
so that a union is commutative, associative and idempotent, with `never` as its unit. -/
theorem normalization_follows_leaves :
    (∀ {cap : Nat} (d : Descriptor cap), d.arena.Unshared →
      (16 < d.tree.leaves.length → d.normalized = .error .tooManyAlternatives) ∧
      (d.tree.leaves.length ≤ 16 →
        ∃ e, d.normalized = .ok e ∧ Tree.IsUnionOf d.tree.leaves e.tree)) ∧
    (∀ {cap : Nat} (d e : Descriptor cap), d.normalized = .ok e → e.normalized = .ok e) ∧
    (∀ {cap : Nat} (d : Descriptor cap), d.Reachable → d.normalized = .ok d) ∧
    (∀ {m n : Nat} (as : List (Descriptor m)) (bs : List (Descriptor n)) (d : Descriptor m)
      (e : Descriptor n), (∀ o ∈ as, o.Reachable) → (∀ o ∈ bs, o.Reachable) →
      Joined as d → Joined bs e → Tree.SameSet (alternatives as) (alternatives bs) →
      d.tree.equiv e.tree = true) ∧
    (∀ {cap : Nat} (a b c : Descriptor cap), a.Reachable → b.Reachable → c.Reachable →
      SetLaws a b c) := by
  refine ⟨fun d unshared => ?_, fun _ _ => normalized_of_normalized, fun d h => ?_, ?_, ?_⟩
  · obtain ⟨fits, full⟩ := d.tree.normalized_total
    refine ⟨fun many => normalized_eq_error (full many), fun few => ?_⟩
    obtain ⟨u, normalized, known⟩ := fits few
    obtain ⟨e, made, same⟩ := exists_normalized unshared normalized
    exact ⟨e, made, same ▸ known⟩
  · exact h.normal.normalized_eq
  · exact fun _ _ _ _ ha hb left right same => left.equiv ha hb right same
  · exact fun _ _ _ ha hb hc => ha.setLaws hb hc

/-- A nested union with `never` and a repeated leaf, as it is stored and as it is built. -/
theorem normalization_follows_leaves_nested :
    (∃ d : Descriptor 6,
      d.arena.nodes = #[⟨.ofKind .number, []⟩, ⟨.ofKind .never, []⟩, ⟨.ofKind .string, []⟩,
        ⟨.ofKind .union, [1, 2]⟩, ⟨.ofKind .number, []⟩, ⟨.ofKind .union, [0, 3, 4]⟩] ∧
      ∃ e, d.normalized = .ok e ∧ e.normalized = .ok e ∧
        e.tree = .node (.ofKind .union) [.ofKind .number, .ofKind .string]) ∧
    ∃ d : Descriptor 8, (do
      let text ← ofKind 8 .string
      union [text, ← ofKind 8 .number, text]) = .ok d ∧ d.normalized = .ok d ∧
      ∃ e : Descriptor 8, (do union [← ofKind 8 .number, ← ofKind 8 .string]) = .ok e ∧
        d.tree.equiv e.tree = true ∧ SetLaws d e d := by
  obtain ⟨stored, again, built, sets, laws⟩ := normalization_follows_leaves
  constructor
  · let d : Descriptor 6 := {
      arena := {
        nodes := #[⟨.ofKind .number, []⟩, ⟨.ofKind .never, []⟩, ⟨.ofKind .string, []⟩,
          ⟨.ofKind .union, [1, 2]⟩, ⟨.ofKind .number, []⟩, ⟨.ofKind .union, [0, 3, 4]⟩]
        bounded := by decide
        ordered := by decide }
      root := 5
      inside := by decide }
    have leaves : d.tree.leaves = [.ofKind .number, .ofKind .string] := by rfl
    have few : d.tree.leaves.length ≤ 16 := by
      rw [leaves]
      decide
    obtain ⟨e, made, known⟩ := (stored d (by decide)).2 few
    refine ⟨d, rfl, e, made, again d e made, ?_⟩
    rw [leaves] at known
    exact known.eq_ofAlternatives (by simp [Tree.ofKind])
  · apply exists_ok (by decide +kernel)
    intro d repeated
    obtain ⟨text, ht, repeated⟩ := bind_eq_ok repeated
    obtain ⟨number, hn, repeated⟩ := bind_eq_ok repeated
    have rt := Gives.holds ht (.kind rfl)
    have rn := Gives.holds hn (.kind rfl)
    have each : ∀ o ∈ [text, number, text], o.Reachable := by simp [rt, rn]
    have reachable : d.Reachable := .union each repeated
    refine ⟨built d reachable, ?_⟩
    apply exists_ok (by decide +kernel)
    intro e swapped
    rw [ht, hn] at swapped
    change union [number, text] = .ok e at swapped
    have each' : ∀ o ∈ [number, text], o.Reachable := by simp [rt, rn]
    refine ⟨?_, laws d e d reachable (.union each' swapped) reachable⟩
    apply sets _ _ d e each each' (.of_union repeated) (.of_union swapped)
    exact sameSet_of_mem_iff fun o => by simp [or_comm]

end Descriptor

end StructuralTypes
