import Mathlib.Data.List.Zip
import StructuralTypes.Proofs.InPlaceAssignability
import StructuralTypes.Proofs.RawEquality

/-!
# Assignability in raw storage

The rules follow two types at once and swap them for every parameter. What decides between the rules
is read off the nodes, so a rule that goes on to a first child has to find one there. For complete
types it does, and the rules come to their end in bounds, with the answer that is known for the
types.
-/

namespace StructuralTypes

namespace RawArena

/-- The index of the child of a name, or -1. -/
def findMember (s : RawArena) (n : RawNode) (key : Text) : Checked Int := do
  let found ← n.positions.findSomeM? fun k => do
    let c ← n.child k
    return if (← s.read c).head.name.text == key then some c else none
  return found.getD (-1)

mutual

/-- A value of the type at `i` may stand where one of the type at `j` is expected. -/
def assignable (s t : RawArena) (i j : Int) : Checked Bool := do
  let a ← s.read i
  let b ← t.read j
  if a.head.tag == .known .never then return true
  if b.head.tag == .known .unknown then return true
  if a.head.tag == .known .unknown then return false
  if a.head.tag == .known .union then
    a.positions.allM fun k => do s |>.assignable t (← a.child k) j
  else if b.head.tag == .known .union then
    b.positions.anyM fun k => do s |>.assignable t i (← b.child k)
  else
    if ← equal s t i j then return true
    if a.head.tag.widened == b.head.tag then return true
    if a.head.tag == .known .undefined && b.head.tag == .known .void then return true
    if b.head.tag == .known .function then
      return a.head.tag == .known .fn || a.head.tag == .known .ctor
    if a.head.tag == .known .fn && b.head.tag == .known .fn ||
        a.head.tag == .known .ctor && b.head.tag == .known .ctor then
      s |>.signatureAssignable t a b
    else if a.head.tag == .known .array && b.head.tag == .known .array then
      do s |>.assignable t (← a.child 0) (← b.child 0)
    else if a.head.tag == .known .object && b.head.tag == .known .object then
      s |>.objectAssignable t a b
    else if b.head.tag == .known .object && b.used == 0 then return !a.head.tag.isNullish
    else return false
partial_fixpoint

/-- Signatures: the parameters first, with the sides swapped, then the results. -/
def signatureAssignable (s t : RawArena) (a b : RawNode) : Checked Bool := do
  if b.used < a.used then return false
  if ← (a.positions.drop 1).allM fun k => do t |>.assignable s (← b.child k) (← a.child k) then
    if a.head.tag == .known .fn then
      if (← t.read (← b.child 0)).head.tag == .known .void then return true
    s |>.assignable t (← a.child 0) (← b.child 0)
  else return false
partial_fixpoint

/-- Every member of the target finds what it asks for. -/
def objectAssignable (s t : RawArena) (a b : RawNode) : Checked Bool :=
  b.positions.allM fun k => do
    let wanted ← t.read (← b.child k)
    let found ← findMember s a wanted.head.name.text
    if found < 0 then return wanted.head.modifiers.optional
    let member ← s.read found
    if wanted.head.modifiers.optional then
      s |>.assignableOrUndefined t (← member.child 0) (← wanted.child 0)
    else if ← s |>.assignable t (← member.child 0) (← wanted.child 0) then
      return !member.head.modifiers.optional
    else return false
partial_fixpoint

/-- Every alternative is `undefined` or assignable. -/
def assignableOrUndefined (s t : RawArena) (i j : Int) : Checked Bool := do
  let a ← s.read i
  if a.head.tag == .known .union then
    a.positions.allM fun k => do s |>.assignableOrUndefined t (← a.child k) j
  else if a.head.tag == .known .undefined then return true
  else s |>.assignable t i j
partial_fixpoint

end

end RawArena

namespace Arena

open Checked (Supports)

variable {m n : Nat} {a : Arena m} {b : Arena n} {i j : Nat}

/-- The slots in use hold the children, which are known where they come from. -/
theorem forall₂_attach (narrow : a.Narrow) (i : Nat) :
    List.Forall₂ (fun (k : Nat) (c : { c // c ∈ (a.node i).children }) =>
      (a.node i).raw.child k = pure (c.1 : Int)) (a.node i).raw.positions
      (a.node i).children.attach := by
  have slots := Node.forall₂_positions (narrow i)
  rw [← List.attach_map_subtype_val (a.node i).children, List.forall₂_map_right_iff] at slots
  exact slots.imp fun _ _ known => known.1

/-- A member is found in memory where it is found in the arena. -/
theorem findMember_raw (narrow : a.Narrow) (hi : i < a.size) (key : Text) :
    a.raw.findMember (a.node i).raw key =
      pure (((a.node i).children.attach.find? fun c =>
        (a.node c.1).head.name.text == key).elim (-1) fun c => (c.1 : Int)) := by
  have each : List.Forall₂ (fun (k : Nat) (c : { c // c ∈ (a.node i).children }) =>
      (do
        let c ← (a.node i).raw.child k
        return if (← a.raw.read c).head.name.text == key then some c else none) =
        (pure (if (a.node c.1).head.name.text == key then some (c.1 : Int) else none) :
          Checked (Option Int)))
      (a.node i).raw.positions (a.node i).children.attach := by
    refine (forall₂_attach narrow i).imp fun k c known => ?_
    rw [known, pure_bind, read_raw (lt_size_of_mem hi c.2), pure_bind]
    rfl
  rw [RawArena.findMember, findSomeM?_congr each, List.findSomeM?_pure, pure_bind,
    findSome?_ite]
  cases (a.node i).children.attach.find? fun c => (a.node c.1).head.name.text == key <;> rfl

/-- Pairs of smaller indices in all are decided in memory as they are in the arenas. -/
def SupportedBelow (k : Nat) : Prop :=
  ∀ {m n : Nat} {a : Arena m} {b : Arena n} {i j : Nat}, i + j < k → a.Narrow → b.Narrow →
    i < a.size → j < b.size → Supports (a.assignableAt b i j) (a.raw.assignable b.raw i j)

/-- The parameters that both signatures have. -/
theorem forall₂_parameters (ha : a.Narrow) (hb : b.Narrow)
    (enough : (a.node i).children.length ≤ (b.node j).children.length) :
    List.Forall₂ (fun (k : Nat) (p : { c // c ∈ (b.node j).children } ×
        { c // c ∈ (a.node i).children }) =>
      (b.node j).raw.child k = pure (p.1.1 : Int) ∧ (a.node i).raw.child k = pure (p.2.1 : Int))
      ((a.node i).raw.positions.drop 1)
      (((b.node j).children.attach.drop 1).zip ((a.node i).children.attach.drop 1)) := by
  have slots := List.forall₂_drop 1 (Node.forall₂_positions_zip (ha i) (hb j) enough)
  have sides : (a.node i).children.zip (b.node j).children =
      ((b.node j).children.attach.zip (a.node i).children.attach).map
        fun p => (p.2.1, p.1.1) := by
    rw [← congrArg₂ List.zip (List.attach_map_subtype_val (a.node i).children)
      (List.attach_map_subtype_val (b.node j).children), List.zip_map, ← List.zip_swap,
      List.map_map]
    rfl
  have tails : ((b.node j).children.attach.zip (a.node i).children.attach).drop 1 =
      ((b.node j).children.attach.drop 1).zip ((a.node i).children.attach.drop 1) :=
    List.drop_zipWith
  rw [sides, ← List.map_drop, List.forall₂_map_right_iff, tails] at slots
  exact slots.imp fun _ _ known => ⟨known.2.1, known.1⟩

section Rules

variable {k : Nat} (below : SupportedBelow k) (ha : a.Narrow) (hb : b.Narrow)

include below ha hb

theorem assignableOrUndefined_raw (smaller : i + j < k) (hi : i < a.size) (hj : j < b.size) :
    Supports (a.orUndefinedAt b i j) (a.raw.assignableOrUndefined b.raw i j) := by
  induction i using Nat.strongRecOn with
  | _ i ih =>
    rw [RawArena.assignableOrUndefined, orUndefinedAt, read_raw hi, pure_bind]
    change Supports _ (if (a.node i).head.tag == .known .union then _ else
      if (a.node i).head.tag == .known .undefined then _ else _)
    split
    · refine Supports.allM ((forall₂_attach ha i).imp fun k c known => ?_)
      have earlier := a.child_lt c.2
      rw [known, pure_bind]
      exact ih c.1 earlier (by omega) (by omega)
    split
    · exact Supports.pure true
    · exact below smaller ha hb hi hj

theorem signatureAssignable_raw (smaller : i + j ≤ k) (hi : i < a.size) (hj : j < b.size) :
    Supports (a.signatureAt b i j)
      (a.raw.signatureAssignable b.raw (a.node i).raw (b.node j).raw) := by
  rw [RawArena.signatureAssignable, signatureAt]
  refine .ite (fun _ => .pure false) fun enough => ?_
  have parameters := forall₂_parameters ha hb (Nat.not_lt.1 enough)
  refine .bind (.allM (parameters.imp fun k p known => ?_)) fun accepts => ?_
  · have := b.child_lt p.1.2
    have := a.child_lt p.2.2
    rw [known.1, pure_bind, known.2, pure_bind]
    exact below (by omega) hb ha (lt_size_of_mem hj p.1.2) (lt_size_of_mem hi p.2.2)
  cases accepts with
  | false => exact .pure false
  | true =>
      refine .bind_left fun expected slot => ?_
      have wanted := Node.child_zero_raw (hb j) slot
      have inside := lt_size_of_mem hj expected.2
      have results : Supports (do
            let result ← (a.node i).children.attach.head?
            a.assignableAt b result.1 expected.1) (do
            let given ← (a.node i).raw.child 0
            a.raw.assignable b.raw given expected.1) := by
        refine .bind_map (fun result value => Node.child_zero_raw (ha i) value) fun result _ => ?_
        have := b.child_lt expected.2
        have := a.child_lt result.2
        exact below (by omega) ha hb (lt_size_of_mem hi result.2) inside
      have caller : (a.node i).raw.head = (a.node i).head := rfl
      rw [if_pos rfl]
      simp only [caller, wanted, pure_bind, read_raw inside]
      cases (a.node i).head.tag == .known .fn with
      | false => exact results
      | true => exact .ite (fun _ => .pure true) fun _ => results

theorem objectAssignable_raw (smaller : i + j ≤ k) (hi : i < a.size) (hj : j < b.size) :
    Supports ((b.node j).children.attach.allM fun member => a.memberAt b i member.1)
      (a.raw.objectAssignable b.raw (a.node i).raw (b.node j).raw) := by
  rw [RawArena.objectAssignable]
  refine .allM ((forall₂_attach hb j).imp fun k member known => ?_)
  have := b.child_lt member.2
  have there := lt_size_of_mem hj member.2
  rw [known, pure_bind, read_raw there, pure_bind, memberAt]
  have key : (b.node member.1).raw.head.name.text = (b.node member.1).head.name.text := rfl
  have names : (fun c : { c // c ∈ (a.node i).children } =>
      (a.node c.1).head.name.text == (b.node member.1).head.name.text) =
        fun c => (a.node c.1).head.name == (b.node member.1).head.name := by
    funext c
    rw [Bool.eq_iff_iff, beq_iff_eq, beq_iff_eq, Name.ext_iff]
  rw [key, findMember_raw ha hi, pure_bind, names]
  cases (a.node i).children.attach.find? fun c =>
      (a.node c.1).head.name == (b.node member.1).head.name with
  | none => exact .pure _
  | some found =>
      have here := lt_size_of_mem hi found.2
      have := a.child_lt found.2
      refine .bind_left fun type value => .bind_left fun expected slot => ?_
      have given := Node.child_zero_raw (ha found) value
      have asked := Node.child_zero_raw (hb member) slot
      have := a.child_lt type.2
      have := b.child_lt expected.2
      have inside := lt_size_of_mem here type.2
      have inside' := lt_size_of_mem there expected.2
      change Supports _ (if (found.1 : Int) < 0 then _ else do
        let member ← a.raw.read found.1
        _)
      rw [if_neg (Int.not_lt.2 (Int.natCast_nonneg _)), read_raw here, pure_bind]
      simp only [given, asked, pure_bind]
      refine .ite (fun _ => ?_) fun _ => .bind ?_ fun fits => ?_
      · exact assignableOrUndefined_raw below ha hb (by omega) inside inside'
      · exact below (by omega) ha hb inside inside'
      · cases fits <;> exact .pure _

/-- Each rule goes on to smaller pairs, as far as it is followed in the arenas. -/
theorem assignable_raw_of_below (smaller : i + j ≤ k) (hi : i < a.size) (hj : j < b.size) :
    Supports (a.assignableAt b i j) (a.raw.assignable b.raw i j) := by
  have empty : (b.node j).children.isEmpty = ((b.node j).raw.used == 0) := by
    change _ = ((b.node j).children.length == 0)
    cases (b.node j).children <;> rfl
  rw [RawArena.assignable, assignableAt, read_raw hi, pure_bind, read_raw hj, pure_bind]
  refine .ite_or (.pure true) <| .ite (fun _ => .pure false) fun _ => .ite (fun _ => ?_) fun _ =>
    .ite (fun _ => ?_) fun _ => ?_
  · refine .allM ((forall₂_attach ha i).imp fun k c known => ?_)
    have := a.child_lt c.2
    rw [known, pure_bind]
    exact below (by omega) ha hb (lt_size_of_mem hi c.2) hj
  · refine .anyM ((forall₂_attach hb j).imp fun k c known => ?_)
    have := b.child_lt c.2
    rw [known, pure_bind]
    exact below (by omega) ha hb hi (lt_size_of_mem hj c.2)
  rw [equal_raw ha hb hi hj, pure_bind, structureAt, empty]
  refine .ite_or (.pure true) <| .ite (fun _ => .pure true) fun _ =>
    .ite (fun _ => .pure _) fun _ => .ite (fun _ => ?_) fun _ => .ite (fun _ => ?_) fun _ =>
    .ite (fun _ => ?_) fun _ => .ite (fun _ => .pure _) fun _ => .pure false
  · exact signatureAssignable_raw below ha hb smaller hi hj
  · refine .bind_left fun element value => .bind_left fun expected slot => ?_
    have := a.child_lt element.2
    have := b.child_lt expected.2
    rw [Node.child_zero_raw (ha i) value, pure_bind, Node.child_zero_raw (hb j) slot, pure_bind]
    exact below (by omega) ha hb (lt_size_of_mem hi element.2) (lt_size_of_mem hj expected.2)
  · exact objectAssignable_raw below ha hb smaller hi hj

end Rules

/-- The measure is the sum of the indices, which does not change when the sides are swapped. -/
theorem supportedBelow (k : Nat) : SupportedBelow k := by
  induction k with
  | zero => exact fun smaller => absurd smaller (Nat.not_lt_zero _)
  | succ k ih =>
      intro m n a b i j smaller ha hb hi hj
      exact assignable_raw_of_below ih ha hb (Nat.le_of_lt_succ smaller) hi hj

/-- Complete types in memory are compared as their trees are. -/
theorem assignable_raw (ha : a.Narrow) (hb : b.Narrow) (hi : i < a.size) (hj : j < b.size)
    (source : (a.tree i).Complete) (target : (b.tree j).Complete) :
    a.raw.assignable b.raw i j = pure ((a.tree i).assignable (b.tree j)) :=
  supportedBelow (i + j + 1) (Nat.lt_succ_self _) ha hb hi hj _
    (assignableAt_eq_assignable source target)

end Arena

end StructuralTypes
