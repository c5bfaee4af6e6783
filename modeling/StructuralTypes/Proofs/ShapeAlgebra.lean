import StructuralTypes.Proofs.KeyRows
import StructuralTypes.Proofs.KeySetAlgebra
import StructuralTypes.Proofs.MarksInPlace
import StructuralTypes.Proofs.ShapeOrder

/-!
# The algebra of transformations

A transformation follows a rule that says of each key whether its member is kept and what becomes of
its modifiers. One transformation after another follows the one rule after the other, and two rules
that do the same with the members of a shape make the same of it, node for node. So the laws of
picking, dropping, making optional and making mutable are laws of their rules. Only keys that the
shape does not have get in the way, and of those the first one is reported.
-/

namespace StructuralTypes

/-- What is done with a member, by its key: whether it is kept, and what becomes of its
modifiers. -/
structure MemberRule where
  keeps : Name → Bool
  marks : Name → Modifiers → Modifiers
  bits : ∀ key flags, (marks key flags).reserved = flags.reserved

namespace MemberRule

/-- Keep all members as they are. -/
def unchanged : MemberRule where
  keeps _ := true
  marks _ flags := flags
  bits _ _ := rfl

/-- Keep the members whose keys are in a set. -/
def pick (keys : KeySet) : MemberRule where
  keeps k := keys.contains k.text
  marks _ flags := flags
  bits _ _ := rfl

/-- Keep the members whose keys are not in a set. -/
def drop (keys : KeySet) : MemberRule where
  keeps k := !keys.contains k.text
  marks _ flags := flags
  bits _ _ := rfl

/-- Make the members optional whose keys are in a set. -/
def withOptional (keys : KeySet) : MemberRule where
  keeps _ := true
  marks k flags := if keys.contains k.text then { flags with optional := true } else flags
  bits k flags := by split <;> rfl

/-- Make all members mutable. -/
def mutable : MemberRule where
  keeps _ := true
  marks _ flags := { flags with readOnly := false }
  bits _ _ := rfl

/-- One rule and then another one. -/
def followedBy (r s : MemberRule) : MemberRule where
  keeps k := r.keeps k && s.keeps k
  marks k flags := s.marks k (r.marks k flags)
  bits k flags := (s.bits k _).trans (r.bits k flags)

/-- Two rules do the same with the members of some names. -/
def AgreeOn (names : List Name) (r s : MemberRule) : Prop :=
  ∀ k ∈ names, r.keeps k = s.keeps k ∧ (r.keeps k = true → r.marks k = s.marks k)

section Laws

variable {names : List Name} {a b : KeySet}

theorem pick_all (all : KeySet) : AgreeOn all.keys (pick all) unchanged :=
  fun _ hk => ⟨KeySet.contains_text.2 hk, fun _ => rfl⟩

theorem drop_eq_pick (all : KeySet) : AgreeOn all.keys (drop a) (pick (all.diff a)) := by
  intro k hk
  have inside : all.contains k.text = true := KeySet.contains_text.2 hk
  refine ⟨?_, fun _ => rfl⟩
  simp only [drop, pick, KeySet.contains_diff, inside, Bool.true_and]

theorem pick_pick (inside : ∀ k ∈ b.keys, k ∈ a.keys) :
    AgreeOn names ((pick a).followedBy (pick b)) (pick b) := by
  intro k _
  refine ⟨?_, fun _ => rfl⟩
  rw [Bool.eq_iff_iff, followedBy, Bool.and_eq_true]
  exact and_iff_right_of_imp fun hk =>
    KeySet.contains_text.2 (inside k (KeySet.contains_text.1 hk))

/-- Members become optional in two steps as they do in one. -/
theorem withOptional_withOptional {both : KeySet}
    (united : ∀ k, k ∈ both.keys ↔ k ∈ a.keys ∨ k ∈ b.keys) :
    AgreeOn names ((withOptional a).followedBy (withOptional b)) (withOptional both) := by
  intro k _
  have inside : both.contains k.text = (a.contains k.text || b.contains k.text) := by
    rw [Bool.eq_iff_iff, Bool.or_eq_true, KeySet.contains_text, KeySet.contains_text,
      KeySet.contains_text, united]
  refine ⟨rfl, fun _ => funext fun flags => ?_⟩
  simp only [followedBy, withOptional, inside]
  cases a.contains k.text <;> cases b.contains k.text <;> rfl

theorem mutable_mutable : AgreeOn names (mutable.followedBy mutable) mutable :=
  fun _ _ => ⟨rfl, fun _ => rfl⟩

theorem mutable_pick :
    AgreeOn names (mutable.followedBy (pick a)) ((pick a).followedBy mutable) :=
  fun k _ => ⟨Bool.and_comm true (a.contains k.text), fun _ => rfl⟩

/-- The two modifiers do not get in each other's way. -/
theorem mutable_withOptional :
    AgreeOn names (mutable.followedBy (withOptional a)) ((withOptional a).followedBy mutable) := by
  intro k _
  refine ⟨rfl, fun _ => funext fun flags => ?_⟩
  simp only [followedBy, withOptional, mutable]
  cases a.contains k.text <;> rfl

/-- Of the members that become optional only those matter that are picked. -/
theorem withOptional_pick :
    AgreeOn names ((withOptional a).followedBy (pick b))
      ((pick b).followedBy (withOptional (a.inter b))) := by
  intro k _
  refine ⟨Bool.and_comm true (b.contains k.text), fun kept => funext fun flags => ?_⟩
  have picked : b.contains k.text = true := kept
  simp only [followedBy, withOptional, pick, KeySet.contains_inter, picked, Bool.and_true]

end Laws

end MemberRule

open MemberRule (AgreeOn)

namespace Tree

variable {t : Tree} {r s : MemberRule}

/-- The revision of a shape that a rule makes. -/
def revise (t : Tree) (r : MemberRule) : Tree :=
  t.revised (fun m => r.keeps m.name) fun m => r.marks m.name m.modifiers

/-- Following one rule after another one comes down to one revision. -/
theorem revise_followedBy (t : Tree) (r s : MemberRule) :
    (t.revise r).revise s = t.revise (r.followedBy s) := by
  simp only [revise, revised, ofMembers, children_node, List.filter_map, List.filter_filter,
    List.map_map, Function.comp_def, name_withModifiers, modifiers_withModifiers,
    MemberRule.followedBy, Bool.and_comm]
  rfl

theorem revise_congr (agree : AgreeOn t.names r s) : t.revise r = t.revise s := by
  have each : ∀ m ∈ t.children, r.keeps m.name = s.keeps m.name ∧
      (r.keeps m.name = true → r.marks m.name = s.marks m.name) := fun m hm =>
    agree m.name (List.mem_map_of_mem hm)
  rw [revise, revise, revised, revised, ← List.filter_congr fun m hm => (each m hm).1]
  refine congrArg _ (List.map_congr_left fun m hm => ?_)
  obtain ⟨hm, kept⟩ := List.mem_filter.1 hm
  rw [(each m hm).2 kept]

theorem Normal.revise_unchanged (h : t.Normal) (object : t.isKind .object = true) :
    t.revise .unchanged = t :=
  h.revised_self object

theorem names_revise : (t.revise r).names = t.names.filter r.keeps := by
  rw [names, names, revise, revised, ofMembers, children_node, List.filter_map, List.map_map]
  rfl

end Tree

namespace Descriptor

variable {cap : Nat} {d : Descriptor cap} {r s : MemberRule}

/-- The revision of a stored shape that a rule makes. -/
def revise (d : Descriptor cap) (r : MemberRule) : Except Fault (Descriptor cap) :=
  ofTree cap (d.tree.revise r)

/-- Two computations succeed with the same descriptor. -/
def BothGive (x y : Except Fault (Descriptor cap)) : Prop := ∃ e, x = .ok e ∧ y = .ok e

/-- A shape has all keys of a set. -/
def HasAll (d : Descriptor cap) (keys : KeySet) : Prop :=
  ∀ k ∈ keys.keys, d.tree.hasKey k.text = .ok true

/-- A transformation of a shape by a set of keys fails only for a key that the shape does not have,
and reports the first one. In what order the keys are listed does not matter otherwise. -/
structure AsksForMembers (d : Descriptor cap) (operation : Operation)
    (run : KeySet → Except Fault (Descriptor cap)) : Prop where
  fails_iff : ∀ keys fault, run keys = .error fault ↔
    ∃ k, d.tree.firstMissing? keys = some k ∧ fault = d.tree.unknownKey operation k.text
  gives_iff : ∀ keys, (∃ e, run keys = .ok e) ↔ d.HasAll keys
  unordered : ∀ a b, d.HasAll a → a.same b = true → BothGive (run a) (run b)

namespace Normal

variable (h : d.Normal) (object : d.tree.isKind .object = true)

include h object

theorem exists_revise (r : MemberRule) :
    ∃ e, d.revise r = .ok e ∧ e.Normal ∧ e.tree = d.tree.revise r := by
  have normal : (d.tree.revise r).Normal :=
    h.type.revised object _ _ fun m _ => r.bits m.name m.modifiers
  have fits : (d.tree.revise r).size ≤ cap := (d.tree.size_revised_le _ _).trans h.size_le
  obtain ⟨e, made⟩ := (ofTree_total cap (d.tree.revise r)).1 fits
  exact ⟨e, made, normal_ofTree normal made, tree_of_ofTree made⟩

/-- What follows two rules one after the other follows the one rule after the other. -/
theorem bind_eq_revise {x : Except Fault (Descriptor cap)}
    {f : Descriptor cap → Except Fault (Descriptor cap)} (first : x = d.revise r)
    (second : ∀ e, e.Normal → e.tree = d.tree.revise r → f e = e.revise s) :
    x >>= f = d.revise (r.followedBy s) := by
  obtain ⟨e, made, normal, same⟩ := h.exists_revise object r
  calc x >>= f
      = f e := by rw [first, made]; rfl
    _ = ofTree cap (e.tree.revise s) := second e normal same
    _ = d.revise (r.followedBy s) := by rw [same, Tree.revise_followedBy, revise]

/-- Rules that do the same with the members make the same of a shape. -/
theorem bothGive {x y : Except Fault (Descriptor cap)} (left : x = d.revise r)
    (right : y = d.revise s) (agree : AgreeOn d.tree.names r s) : BothGive x y := by
  obtain ⟨e, made, -⟩ := h.exists_revise object r
  have same : d.revise s = d.revise r := by rw [revise, revise, Tree.revise_congr agree]
  exact ⟨e, left.trans made, (right.trans same).trans made⟩

/-- A transformation that asks for members and then follows a rule. -/
theorem asksForMembers {operation : Operation} {run : KeySet → Except Fault (Descriptor cap)}
    {g : KeySet → Tree → Tree} {rule : KeySet → MemberRule}
    (asks : ∀ keys, run keys = d.transform fun t => do
      t.requireMembers operation keys
      return g keys t)
    (follows : ∀ keys, d.HasAll keys → run keys = d.revise (rule keys))
    (respects : ∀ a b : KeySet, (∀ k : Name, a.contains k.text = b.contains k.text) →
      AgreeOn d.tree.names (rule a) (rule b)) :
    AsksForMembers d operation run := by
  have gives : ∀ keys, d.HasAll keys → ∃ e, run keys = .ok e := by
    intro keys known
    obtain ⟨e, made, -⟩ := h.exists_revise object (rule keys)
    exact ⟨e, (follows keys known).trans made⟩
  have fails : ∀ keys k, d.tree.firstMissing? keys = some k →
      run keys = .error (d.tree.unknownKey operation k.text) := by
    intro keys k missing
    rw [asks, transform, Tree.requireMembers_eq object, missing]
    rfl
  refine ⟨fun keys fault => ?_, fun keys => ⟨?_, gives keys⟩, fun a b known same => ?_⟩
  · cases missing : d.tree.firstMissing? keys with
    | none =>
        obtain ⟨e, made⟩ := gives keys ((Tree.firstMissing?_eq_none_iff object).1 missing)
        rw [made]
        constructor
        · intro failed
          cases failed
        · rintro ⟨_, none, -⟩
          cases none
    | some k =>
        rw [fails keys k missing]
        simp [eq_comm]
  · rintro ⟨e, made⟩
    apply (Tree.firstMissing?_eq_none_iff object).1
    by_contra missing
    obtain ⟨k, missing⟩ := Option.ne_none_iff_exists'.1 missing
    rw [fails keys k missing] at made
    cases made
  · have inside := KeySet.members_eq_iff.1 (KeySet.same_iff.1 same)
    have known' : d.HasAll b := fun k hk => known k ((inside k).2 hk)
    have contained : ∀ k : Name, a.contains k.text = b.contains k.text := fun k => by
      rw [Bool.eq_iff_iff, KeySet.contains_text, KeySet.contains_text, inside]
    exact h.bothGive object (follows a known) (follows b known') (respects a b contained)

section Rules

variable {keys : KeySet} (known : d.HasAll keys)

include known

theorem pick_eq_revise : d.pick keys = d.revise (.pick keys) := by
  rw [pick, transform, Tree.pick_eq_revised object (h.mem_names_of_mem_keys object known)]
  rfl

theorem drop_eq_revise : d.drop keys = d.revise (.drop keys) := by
  rw [drop, transform, Tree.drop_eq_revised object (h.mem_names_of_mem_keys object known)]
  rfl

theorem withOptional_eq_revise : d.withOptional keys = d.revise (.withOptional keys) := by
  rw [withOptional, transform,
    h.type.withOptional_eq_revised object (h.mem_names_of_mem_keys object known)]
  rfl

end Rules

theorem mutableProjection_eq_revise : d.mutableProjection = d.revise .mutable := by
  rw [mutableProjection, transform, h.type.mutableProjection_eq_revised object]
  rfl

end Normal

section Laws

/-- The laws of the transformations of a shape. What they give is the same node for node. -/
structure TransformationLaws (d : Descriptor cap) : Prop where
  picking : AsksForMembers d .pick d.pick
  dropping : AsksForMembers d .drop d.drop
  relaxing : AsksForMembers d .withOptional d.withOptional
  drop_eq_pick : ∀ a, d.HasAll a →
    ∃ all, d.tree.keys = .ok all ∧ BothGive (d.drop a) (d.pick (all.diff a))
  pick_all : ∃ all, d.tree.keys = .ok all ∧ d.pick all = .ok d
  pick_pick : ∀ a b : KeySet, d.HasAll a → (∀ k ∈ b.keys, k ∈ a.keys) →
    BothGive (do (← d.pick a).pick b) (d.pick b)
  relax_relax : ∀ a b, d.HasAll a → d.HasAll b → ∃ both, a.union b = .ok both ∧
    BothGive (do (← d.withOptional a).withOptional b) (d.withOptional both)
  mutable_twice : BothGive (do (← d.mutableProjection).mutableProjection) d.mutableProjection
  pick_mutable : ∀ a, d.HasAll a →
    BothGive (do (← d.mutableProjection).pick a) (do (← d.pick a).mutableProjection)
  relax_mutable : ∀ a, d.HasAll a → BothGive
    (do (← d.mutableProjection).withOptional a) (do (← d.withOptional a).mutableProjection)
  pick_relax : ∀ a b, d.HasAll a → d.HasAll b → BothGive
    (do (← d.withOptional a).pick b) (do (← d.pick b).withOptional (a.inter b))
  relaxed_in_place : ∀ a, d.HasAll a → ∃ e, d.withOptional a = .ok e ∧
    MarkedAs d e fun head => if a.contains head.name.text then
      { head.modifiers with optional := true } else head.modifiers
  mutable_in_place : ∃ e, d.mutableProjection = .ok e ∧
    MarkedAs d e fun head => { head.modifiers with readOnly := false }

theorem hasAll_iff (object : d.tree.isKind .object = true) {keys : KeySet} :
    d.HasAll keys ↔ ∀ k ∈ keys.keys, k ∈ d.tree.names := by
  simp only [HasAll, Tree.hasKey_iff_mem_names object]

section Revised

variable {e : Descriptor cap} (same : e.tree = d.tree.revise r)

include same

theorem isKind_of_revise : e.tree.isKind .object = true := by
  rw [same]
  rfl

/-- The keys of kept members can still be asked for. -/
theorem hasAll_of_revise (object : d.tree.isKind .object = true) {keys : KeySet}
    (known : d.HasAll keys) (kept : ∀ k ∈ keys.keys, r.keeps k = true) : e.HasAll keys := by
  rw [hasAll_iff (isKind_of_revise same), same, Tree.names_revise]
  exact fun k hk => List.mem_filter.2 ⟨(hasAll_iff object).1 known k hk, kept k hk⟩

end Revised

namespace Normal

variable (h : d.Normal) (object : d.tree.isKind .object = true)

include h object

section After

variable {x : Except Fault (Descriptor cap)} (first : x = d.revise r)

include first

theorem pick_after {keys : KeySet} (known : d.HasAll keys)
    (kept : ∀ k ∈ keys.keys, r.keeps k = true) :
    (do (← x).pick keys) = d.revise (r.followedBy (.pick keys)) :=
  h.bind_eq_revise object first fun _ he same =>
    he.pick_eq_revise (isKind_of_revise same) (hasAll_of_revise same object known kept)

theorem withOptional_after {keys : KeySet} (known : d.HasAll keys)
    (kept : ∀ k ∈ keys.keys, r.keeps k = true) :
    (do (← x).withOptional keys) = d.revise (r.followedBy (.withOptional keys)) :=
  h.bind_eq_revise object first fun _ he same =>
    he.withOptional_eq_revise (isKind_of_revise same) (hasAll_of_revise same object known kept)

theorem mutableProjection_after :
    (do (← x).mutableProjection) = d.revise (r.followedBy .mutable) :=
  h.bind_eq_revise object first fun _ he same =>
    he.mutableProjection_eq_revise (isKind_of_revise same)

end After

theorem drop_eq_pick_diff {a : KeySet} (ha : d.HasAll a) :
    ∃ all, d.tree.keys = .ok all ∧ BothGive (d.drop a) (d.pick (all.diff a)) := by
  obtain ⟨all, known, listed⟩ := h.type.exists_keys object
  have rest : d.HasAll (all.diff a) := by
    rw [hasAll_iff object, ← listed]
    exact fun k hk => List.mem_of_mem_filter hk
  exact ⟨all, known, h.bothGive object (h.drop_eq_revise object ha) (h.pick_eq_revise object rest)
    (listed ▸ MemberRule.drop_eq_pick all)⟩

theorem pick_all_eq : ∃ all, d.tree.keys = .ok all ∧ d.pick all = .ok d := by
  obtain ⟨all, known, listed⟩ := h.type.exists_keys object
  have every : d.HasAll all := by
    rw [hasAll_iff object, listed]
    exact fun _ hk => hk
  refine ⟨all, known, ?_⟩
  rw [h.pick_eq_revise object every, revise, Tree.revise_congr (listed ▸ MemberRule.pick_all all),
    h.type.revise_unchanged object, h.laidOut]

/-- A rule that keeps all members changes their nodes in place. -/
theorem exists_markedAs (keeps : ∀ k, r.keeps k = true) :
    ∃ e, d.revise r = .ok e ∧ MarkedAs d e fun head => r.marks head.name head.modifiers := by
  have same : d.tree.revise r =
      d.tree.mapModifiers fun m => r.marks m.head.name m.head.modifiers := by
    have all : (fun m : Tree => r.keeps m.name) = fun _ => true := funext fun m => keeps m.name
    rw [Tree.revise, all, h.type.mapModifiers_eq_revised object]
    rfl
  obtain ⟨e, made, -⟩ := h.exists_revise object r
  refine ⟨e, made, markedAs_of_ofTree _ h.laidOut ?_⟩
  rw [← same]
  exact made

/-- Making members optional twice makes those of both sets optional. -/
theorem exists_relax_relax {a b : KeySet} (ha : d.HasAll a) (hb : d.HasAll b) :
    ∃ both, a.union b = .ok both ∧
      BothGive (do (← d.withOptional a).withOptional b) (d.withOptional both) := by
  have left := (hasAll_iff object).1 ha
  have right := (hasAll_iff object).1 hb
  obtain ⟨both, united, inside⟩ :=
    KeySet.exists_union_of_subset (h.type.length_names_le object) left right
  have hu : d.HasAll both := (hasAll_iff object).2 fun k hk =>
    ((inside k).1 hk).elim (left k) (right k)
  have twice := h.withOptional_after object (h.withOptional_eq_revise object ha) hb fun _ _ => rfl
  exact ⟨both, united, h.bothGive object twice (h.withOptional_eq_revise object hu)
    (MemberRule.withOptional_withOptional inside)⟩

end Normal

/-- Every object satisfies the laws. -/
theorem Normal.transformationLaws (h : d.Normal) (object : d.tree.isKind .object = true) :
    TransformationLaws d where
  picking := h.asksForMembers object (fun _ => rfl) (fun _ => h.pick_eq_revise object)
    fun a b same k _ => ⟨same k, fun _ => rfl⟩
  dropping := h.asksForMembers object (fun _ => rfl) (fun _ => h.drop_eq_revise object)
    fun a b same k _ => ⟨congrArg not (same k), fun _ => rfl⟩
  relaxing := h.asksForMembers object (fun _ => rfl) (fun _ => h.withOptional_eq_revise object)
    fun a b same k _ => ⟨rfl, fun _ => by simp only [MemberRule.withOptional, same k]⟩
  drop_eq_pick a ha := h.drop_eq_pick_diff object ha
  pick_all := h.pick_all_eq object
  pick_pick a b ha inside := by
    have hb : d.HasAll b := fun k hk => ha k (inside k hk)
    have twice := h.pick_after object (h.pick_eq_revise object ha) hb fun k hk =>
      KeySet.contains_text.2 (inside k hk)
    exact h.bothGive object twice (h.pick_eq_revise object hb) (MemberRule.pick_pick inside)
  relax_relax _ _ ha hb := h.exists_relax_relax object ha hb
  mutable_twice := by
    have once := h.mutableProjection_eq_revise object
    exact h.bothGive object (h.mutableProjection_after object once) once
      MemberRule.mutable_mutable
  pick_mutable a ha := by
    have left := h.pick_after object (h.mutableProjection_eq_revise object) ha fun _ _ => rfl
    have right := h.mutableProjection_after object (h.pick_eq_revise object ha)
    exact h.bothGive object left right MemberRule.mutable_pick
  relax_mutable a ha := by
    have left := h.withOptional_after object (h.mutableProjection_eq_revise object) ha
      fun _ _ => rfl
    have right := h.mutableProjection_after object (h.withOptional_eq_revise object ha)
    exact h.bothGive object left right MemberRule.mutable_withOptional
  pick_relax a b ha hb := by
    have both : d.HasAll (a.inter b) := fun k hk => ha k (List.mem_of_mem_filter hk)
    have left := h.pick_after object (h.withOptional_eq_revise object ha) hb fun _ _ => rfl
    have right := h.withOptional_after object (h.pick_eq_revise object hb) both fun k hk =>
      (List.mem_filter.1 hk).2
    exact h.bothGive object left right MemberRule.withOptional_pick
  relaxed_in_place a ha := by
    obtain ⟨e, made, marked⟩ := h.exists_markedAs object (r := .withOptional a) fun _ => rfl
    exact ⟨e, (h.withOptional_eq_revise object ha).trans made, marked⟩
  mutable_in_place := by
    obtain ⟨e, made, marked⟩ := h.exists_markedAs object (r := .mutable) fun _ => rfl
    exact ⟨e, (h.mutableProjection_eq_revise object).trans made, marked⟩

end Laws

/-- Picking, dropping, making optional and making mutable satisfy their laws on every object. They
fail only for keys that the object does not have. -/
theorem transformations_follow_rules (h : d.Reachable) (object : d.tree.isKind .object = true) :
    TransformationLaws d :=
  h.normal.transformationLaws object

/-- Three members, stored without room to spare, and a set with two keys that they do not have. -/
theorem transformations_follow_rules_three :
    ∃ built : Descriptor 7 × KeySet × KeySet × KeySet, (do
      let a ← Member.make (.ofString "a") (← ofKind 7 .number) .none
      let b ← Member.make (.ofString "b") (← ofKind 7 .string) ⟨true, true, 0⟩
      let c ← Member.make (.ofString "c") (← ofKind 7 .boolean) ⟨true, false, 0⟩
      return (← object 7 [a, b, c], ← KeySet.ofList [.ofString "c", .ofString "a"],
        ← KeySet.ofList [.ofString "a"],
        ← KeySet.ofList [.ofString "b", .ofString "y", .ofString "x"])) = .ok built ∧
      let (d, s, t, missing) := built
      d.drop missing = .error (d.tree.unknownKey .drop (.ofString "y")) ∧
        BothGive (do (← d.pick s).pick t) (d.pick t) ∧
        (∃ both, s.union t = .ok both ∧
          BothGive (do (← d.withOptional s).withOptional t) (d.withOptional both)) ∧
        BothGive (do (← d.withOptional s).pick t) (do (← d.pick t).withOptional (s.inter t)) := by
  refine exists_ok_of_test (fun (d, s, t, missing) =>
    d.tree.isKind .object = true ∧ (∀ k ∈ s.keys, d.tree.hasKey k.text = .ok true) ∧
      (∀ k ∈ t.keys, k ∈ s.keys) ∧
      (d.tree.firstMissing? missing).map Name.text = some (.ofString "y"))
    (by decide +kernel) ?_
  rintro ⟨d, s, t, missing⟩ made known
  obtain ⟨object, hs, inside, first⟩ := of_decide_eq_true known
  have reachable : d.Reachable := by
    refine Gives.holds (P := (·.1.Reachable)) made (.member (.kind rfl) fun a ha => ?_)
    refine .member (.kind rfl) fun b hb => .member (.kind rfl) fun c hc => ?_
    refine .bind (.object (by simp [ha, hb, hc])) fun shape hs => ?_
    exact .after fun _ => .after fun _ => .after fun _ => .pure hs
  have laws := transformations_follow_rules reachable object
  have ht : d.HasAll t := fun k hk => hs k (inside k hk)
  refine ⟨?_, laws.pick_pick s t hs inside, laws.relax_relax s t hs ht, laws.pick_relax s t hs ht⟩
  obtain ⟨k, found, named⟩ := Option.map_eq_some_iff.1 first
  exact (laws.dropping.fails_iff missing _).2 ⟨k, found, by rw [named]⟩

end Descriptor

end StructuralTypes
