import StructuralTypes.Proofs.InPlaceAssignability
import StructuralTypes.Proofs.ShapeAnswers

/-!
# Relocated types

A stored type may be copied to an arena of any other capacity that has room for the tree below its
root. The copy has no shared nodes and none that are out of use, and still answers every question
like the original, because what is read off by index is what the tree says. For shapes this extends
to the questions that are answered by storing intermediate shapes at the same capacity.
-/

namespace StructuralTypes

namespace Arena

instance {cap : Nat} (a : Arena cap) : Decidable a.Complete :=
  decidable_of_iff ((∀ i < a.size, (a.node i).head.tag.readsFirst = true →
    (a.node i).children ≠ []) ∧ ∀ i < a.size, (a.node i).head.tag = .known .object →
      ∀ c ∈ (a.node i).children, (a.node c).children ≠ [])
    ⟨fun h => ⟨h.1, h.2⟩, fun h => ⟨h.first, h.members⟩⟩

end Arena

namespace Descriptor

section InPlace

variable {m n : Nat}

/-- An arena that is not empty any more has a last node. -/
theorem last_inside (b : { b : Arena n // (Arena.empty : Arena n).size < b.size }) :
    b.1.size - 1 < b.1.size :=
  Nat.sub_lt (Nat.lt_of_le_of_lt (Nat.zero_le _) b.2) Nat.one_pos

/-- Copy the type to an arena of another capacity, index by index. -/
def relocate (d : Descriptor m) (n : Nat) : Except Fault (Descriptor n) := do
  let b ← (Arena.empty : Arena n).copyFrom d.arena d.root
  return ⟨b.1, b.1.size - 1, last_inside b⟩

/-- Compare two stored types index by index. -/
def equalTo (d : Descriptor m) (e : Descriptor n) : Bool := d.arena.equalAt e.arena d.root e.root

/-- Decide assignability index by index. -/
def assignableTo (d : Descriptor m) (e : Descriptor n) : Option Bool :=
  d.arena.assignableAt e.arena d.root e.root

/-- Render the type index by index. -/
def rendered (d : Descriptor m) : Option (Buffer 256) := d.arena.renderAt d.root

/-- Copying index by index lays out the unfolded tree. -/
theorem relocate_eq_resize (d : Descriptor m) (n : Nat) : d.relocate n = d.resize n := by
  rw [relocate, Arena.copyFrom_eq_graft]
  rfl

/-- There is room for the copy when there is room for the tree below the root. -/
theorem exists_resize_iff (d : Descriptor m) (n : Nat) :
    (∃ e, d.resize n = .ok e) ↔ ∃ t, d.arena.Unfolds d.root t ∧ t.size ≤ n := by
  obtain ⟨fits, full⟩ := ofTree_total n d.tree
  constructor
  · rintro ⟨e, made⟩
    refine ⟨d.tree, (d.arena.unfolds_iff).2 ⟨d.inside, rfl⟩, ?_⟩
    by_contra large
    rw [resize, full (Nat.lt_of_not_le large)] at made
    cases made
  · rintro ⟨t, unfolds, small⟩
    obtain ⟨-, rfl⟩ := d.arena.unfolds_iff.1 unfolds
    exact fits small

end InPlace

section Shapes

variable {m n : Nat}

/-- Two shapes answer every question about their members with the same value or the same fault. -/
structure SameAnswers (d : Descriptor m) (e : Descriptor n) : Prop where
  modifiers : ∀ key, d.tree.memberModifiers key = e.tree.memberModifiers key
  writable : ∀ key, d.isWritable key = e.isWritable key
  readonly : ∀ key, d.isReadonly key = e.isReadonly key
  optional : ∀ key, d.isOptional key = e.isOptional key
  required : ∀ key, d.isRequired key = e.isRequired key
  functionValued : ∀ key, d.isFunctionValued key = e.isFunctionValued key
  category : ∀ key {k : Nat} (target : Descriptor k),
    d.matchesCategory key target = e.matchesCategory key target
  keys : d.tree.keys = e.tree.keys
  readonlyKeys : d.readonlyKeys = e.readonlyKeys
  writableKeys : d.writableKeys = e.writableKeys
  optionalKeys : d.optionalKeys = e.optionalKeys
  requiredKeys : d.requiredKeys = e.requiredKeys
  functionKeys : d.functionKeys = e.functionKeys
  nonFunctionKeys : d.nonFunctionKeys = e.nonFunctionKeys
  keysWithValueType : ∀ {k : Nat} (target : Descriptor k),
    d.keysWithValueType target = e.keysWithValueType target

variable {d : Descriptor m} {e : Descriptor n}

/-- The same questions about the same keys select the same keys. -/
theorem selectKeys_congr (same : d.tree = e.tree) {p q : Text → Except Fault Bool}
    (each : ∀ key, p key = q key) : d.selectKeys p = e.selectKeys q := by
  obtain rfl := funext each
  rw [selectKeys, selectKeys, same]

/-- One normal type stored twice: the intermediate shapes have room on either side. -/
theorem Normal.sameAnswers (hd : d.Normal) (he : e.Normal) (same : d.tree = e.tree) :
    SameAnswers d e := by
  have writable key : d.isWritable key = e.isWritable key := by
    rw [hd.isWritable_eq, he.isWritable_eq, same]
  have readonly key : d.isReadonly key = e.isReadonly key := by
    rw [isReadonly, isReadonly, writable]
  have optional key : d.isOptional key = e.isOptional key := by
    rw [hd.isOptional_eq, he.isOptional_eq, same]
  have required key : d.isRequired key = e.isRequired key := by
    rw [isRequired, isRequired, optional]
  have functionValued key : d.isFunctionValued key = e.isFunctionValued key := by
    rw [hd.isFunctionValued_eq, he.isFunctionValued_eq, same]
  have category key {k : Nat} (target : Descriptor k) :
      d.matchesCategory key target = e.matchesCategory key target := by
    rw [hd.matchesCategory_eq, he.matchesCategory_eq, same]
  exact {
    modifiers _ := by rw [same]
    writable, readonly, optional, required, functionValued, category
    keys := by rw [same]
    readonlyKeys := selectKeys_congr same readonly
    writableKeys := selectKeys_congr same writable
    optionalKeys := selectKeys_congr same optional
    requiredKeys := selectKeys_congr same required
    functionKeys := selectKeys_congr same functionValued
    nonFunctionKeys := selectKeys_congr same fun key => by rw [functionValued]
    keysWithValueType target := by
      rw [keysWithValueType, keysWithValueType, same,
        selectKeys_congr same fun key => category key target] }

end Shapes

variable {m : Nat}

/-- Capacity and layout do not influence an answer. A type whose nodes may be shared or out of use
can be moved wherever there is room for the tree below its root. What is read off by index then is
the same on both sides, and the same as for the tree: equality and assignability, from either side
to any other type of any capacity, and rendering. A shape that is made by the operations answers all
questions about members alike, and raises the same faults. -/
theorem resize_preserves_answers (d : Descriptor m) (complete : d.arena.Complete) (n : Nat) :
    d.relocate n = d.resize n ∧
    ((∃ e, d.resize n = .ok e) ↔ ∃ t, d.arena.Unfolds d.root t ∧ t.size ≤ n) ∧
    ∀ e, d.resize n = .ok e → e.tree = d.tree ∧
      (∀ {k : Nat} (o : Descriptor k),
        d.equalTo o = d.tree.equiv o.tree ∧ e.equalTo o = d.tree.equiv o.tree ∧
        o.equalTo d = o.tree.equiv d.tree ∧ o.equalTo e = o.tree.equiv d.tree) ∧
      (∀ {k : Nat} (o : Descriptor k), o.arena.Complete →
        d.assignableTo o = some (d.tree.assignable o.tree) ∧
        e.assignableTo o = some (d.tree.assignable o.tree) ∧
        o.assignableTo d = some (o.tree.assignable d.tree) ∧
        o.assignableTo e = some (o.tree.assignable d.tree)) ∧
      (d.rendered = some d.tree.render ∧ e.rendered = some d.tree.render) ∧
      (d.Reachable → SameAnswers d e) := by
  refine ⟨d.relocate_eq_resize n, d.exists_resize_iff n, fun e made => ?_⟩
  have same : e.tree = d.tree := tree_of_ofTree made
  have original : (d.arena.tree d.root).Complete := complete.tree d.root
  have copied : (e.arena.tree e.root).Complete := by
    change e.tree.Complete
    rw [same]
    exact original
  refine ⟨same, fun o => ?_, fun o known => ?_, ?_, fun h => ?_⟩
  · simp only [equalTo, Arena.equalAt_eq_equiv]
    change _ ∧ e.tree.equiv o.tree = _ ∧ _ ∧ o.tree.equiv e.tree = _
    rw [same]
    exact ⟨rfl, rfl, rfl, rfl⟩
  · have other : (o.arena.tree o.root).Complete := known.tree o.root
    refine ⟨Arena.assignableAt_eq_assignable original other, ?_,
      Arena.assignableAt_eq_assignable other original, ?_⟩
    · rw [← same]
      exact Arena.assignableAt_eq_assignable copied other
    · rw [← same]
      exact Arena.assignableAt_eq_assignable other copied
  · refine ⟨d.arena.renderAt_eq_render original, ?_⟩
    rw [← same]
    exact e.arena.renderAt_eq_render copied
  · exact h.normal.sameAnswers (normal_resize h.normal made) same.symm

/-- A function type whose result and parameters share one node, with a node out of use beside them:
three cells hold it, but a copy takes four. A shape can be moved to fewer cells than it was made
in. -/
theorem resize_preserves_answers_shared :
    (∃ d : Descriptor 3,
      d.arena.nodes = #[⟨.ofKind .number, []⟩, ⟨.ofKind .string, []⟩, ⟨.ofKind .fn, [0, 0, 0]⟩] ∧
      (¬ ∃ e : Descriptor 3, d.resize 3 = .ok e) ∧
      ∃ e : Descriptor 4, d.resize 4 = .ok e ∧ e.equalTo d = true ∧
        e.assignableTo d = some true ∧ e.rendered = d.rendered) ∧
    ∃ d : Descriptor 9, (do
      object 9 [← Member.make (.ofString "a") (← ofKind 9 .number) ⟨true, true, 0⟩]) = .ok d ∧
      ∃ e : Descriptor 3, d.resize 3 = .ok e ∧ SameAnswers d e := by
  constructor
  · let d : Descriptor 3 := {
      arena := {
        nodes := #[⟨.ofKind .number, []⟩, ⟨.ofKind .string, []⟩, ⟨.ofKind .fn, [0, 0, 0]⟩]
        bounded := by decide
        ordered := by decide }
      root := 2
      inside := by decide }
    have complete : d.arena.Complete := by decide
    have size : d.tree.size = 4 := by decide +kernel
    refine ⟨d, rfl, ?_, ?_⟩
    · rw [(resize_preserves_answers d complete 3).2.1]
      rintro ⟨t, unfolds, small⟩
      obtain ⟨-, rfl⟩ := d.arena.unfolds_iff.1 unfolds
      change d.tree.size ≤ 3 at small
      omega
    · obtain ⟨-, room, moved⟩ := resize_preserves_answers d complete 4
      obtain ⟨e, made⟩ := room.2 ⟨d.tree, d.arena.unfolds_iff.2 ⟨d.inside, rfl⟩, size.le⟩
      obtain ⟨-, equality, assignability, ⟨shown, shown'⟩, -⟩ := moved e made
      have itself : d.tree.assignable d.tree = true := by decide +kernel
      refine ⟨e, made, ?_, ?_, shown'.trans shown.symm⟩
      · rw [(equality d).2.1]
        exact Tree.equiv_refl _
      · rw [(assignability d complete).2.1, itself]
  · refine exists_ok_of_test (fun d => d.arena.Complete ∧ (d.resize 3).isOk) (by decide +kernel)
      fun d made known => ?_
    obtain ⟨complete, room⟩ := of_decide_eq_true known
    have reachable : d.Reachable := Gives.holds made (.single (.kind rfl))
    refine exists_ok room fun e moved => ?_
    obtain ⟨-, -, answers⟩ := resize_preserves_answers d complete 3
    exact (answers e moved).2.2.2.2 reachable

end Descriptor

end StructuralTypes
