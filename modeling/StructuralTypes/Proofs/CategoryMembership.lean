import StructuralTypes.Proofs.MemberModifiers
import StructuralTypes.Proofs.PropertyType

/-!
# Members in a category

A member is in a category when what reading it gives is assignable to the target. For an optional
member that is a normalized union; but it is enough to look at the declared type and at `undefined`
apart, whatever the union keeps of them. The keys in a category are those of such members, in order,
and it is a fault if there are none.
-/

namespace StructuralTypes

namespace Tree

/-- The declared type of a member is assignable to a target, and `undefined` is too if the member is
optional. -/
def inCategory (m target : Tree) : Bool :=
  m.first.assignable target && (!m.modifiers.optional || (ofKind .undefined).assignable target)

/-- The type of reading a member is assignable to a target when the member is in its category. -/
theorem Normal.propertyType_assignable {t m u : Tree} (h : t.Normal)
    (object : t.isKind .object = true) {key : Text} (found : t.find? key = some m)
    (read : t.propertyType key = .ok u) (target : Tree) :
    u.assignable target = m.inCategory target := by
  have type := (h.members object).normal m (mem_of_find? found)
  rw [propertyType_of_find? object found] at read
  rw [inCategory]
  cases optional : m.modifiers.optional with
  | false =>
      rw [if_neg (Bool.eq_false_iff.1 optional)] at read
      obtain rfl := Except.ok.inj read
      simp
  | true =>
      rw [if_pos optional] at read
      have both : ∀ s ∈ [m.first, ofKind .undefined], s.Normal :=
        List.forall_mem_cons.2 ⟨type, List.forall_mem_singleton.2 (.primitive rfl)⟩
      rw [Bool.eq_iff_iff, union_assignable_iff both read]
      simp

end Tree

namespace Descriptor

variable {m n : Nat} {d : Descriptor m}

namespace Normal

variable (h : d.Normal) (object : d.tree.isKind .object = true) (target : Descriptor n)

include h object

theorem matchesCategory_of_find? {found : Tree} {key : Text} (hf : d.tree.find? key = some found)
    (read : d.Readable key) :
    d.matchesCategory key target = .ok (found.inCategory target.tree) := by
  obtain ⟨u, read⟩ := read
  have reads := (h.propertyType_stores key).eq_ok read
  rw [← h.type.propertyType_assignable object hf reads, matchesCategory, read]
  rfl

/-- A category without `undefined` has no optional members. -/
theorem isOptional_of_matchesCategory {found : Tree} {key : Text}
    (hf : d.tree.find? key = some found) (read : d.Readable key)
    (excluded : (Tree.ofKind .undefined).assignable target.tree = false)
    (inside : d.matchesCategory key target = .ok true) : d.isOptional key = .ok false := by
  rw [h.matchesCategory_of_find? object target hf read, Tree.inCategory, excluded,
    Bool.or_false] at inside
  have required := (Bool.and_eq_true_iff.1 (Except.ok.inj inside)).2
  rw [h.isOptional_of_find? object hf]
  exact congrArg Except.ok (by simpa using required)

/-- A member that can be read is in a category when its declared type is, and `undefined` too if the
member is optional. -/
theorem exists_matchesCategory {found : Tree} {key : Text} (hf : d.tree.find? key = some found)
    (read : d.Readable key) :
    ∃ declared modifiers answer, d.declaredType key = .ok declared ∧
      d.tree.memberModifiers key = .ok modifiers ∧
      d.isOptional key = .ok modifiers.optional ∧ d.matchesCategory key target = .ok answer ∧
      (answer = true ↔ declared.tree.assignable target.tree = true ∧
        (modifiers.optional = true →
          (Tree.ofKind .undefined).assignable target.tree = true)) := by
  obtain ⟨declared, type, -, known⟩ := h.exists_declaredType object hf
  refine ⟨declared, found.modifiers, found.inCategory target.tree, type,
    Tree.memberModifiers_of_find? object hf, h.isOptional_of_find? object hf,
    h.matchesCategory_of_find? object target hf read, ?_⟩
  rw [Tree.inCategory, known]
  cases found.modifiers.optional <;> simp

section Selection

variable (readable : ∀ k ∈ d.tree.names, d.Readable k.text)

include readable

theorem matchesCategory_of_mem {c : Tree} (hc : c ∈ d.tree.children) :
    d.matchesCategory c.name.text target = .ok (c.inCategory target.tree) :=
  h.matchesCategory_of_find? object target (h.type.find?_name object hc)
    (readable _ (List.mem_map_of_mem hc))

/-- The keys in a category make up the answer, unless there are none. -/
theorem exists_keysWithValueType :
    ∃ found : KeySet,
      found.keys = (d.tree.names.filter fun k => d.matchesCategory k.text target = .ok true) ∧
      d.keysWithValueType target =
        if found.isEmpty then .error (.emptyCategory target.tree.text d.tree.text)
        else .ok found := by
  have each := fun c hc => h.matchesCategory_of_mem object target readable (c := c) hc
  obtain ⟨found, selected, listed⟩ := h.exists_selectKeys object
    (p := (d.matchesCategory · target)) (q := (·.inCategory target.tree)) each
  refine ⟨found, ?_, ?_⟩
  · rw [listed, Tree.names, List.filter_map]
    refine congrArg _ (List.filter_congr fun c hc => ?_)
    rw [Function.comp_apply, each c hc]
    cases c.inCategory target.tree <;> rfl
  · rw [keysWithValueType, selected]
    rfl

/-- It is a fault that no key is in a category. -/
theorem keysWithValueType_eq_error_iff {fault : Fault} :
    d.keysWithValueType target = .error fault ↔
      (∀ k ∈ d.tree.names, d.matchesCategory k.text target = .ok false) ∧
        fault = .emptyCategory target.tree.text d.tree.text := by
  obtain ⟨found, listed, result⟩ := h.exists_keysWithValueType object target readable
  have nothing : found.isEmpty = true ↔
      ∀ k ∈ d.tree.names, d.matchesCategory k.text target = .ok false := by
    rw [KeySet.isEmpty, List.isEmpty_iff, listed, List.filter_eq_nil_iff, Tree.names,
      List.forall_mem_map, List.forall_mem_map]
    refine forall_congr' fun c => forall_congr' fun hc => ?_
    rw [h.matchesCategory_of_mem object target readable hc]
    simp
  rw [result, ← nothing]
  split
  · next empty => simp [empty, eq_comm]
  · next some => simp [some]

/-- The keys in a category are given in order. -/
theorem keysWithValueType_eq_ok_iff {other : KeySet} :
    d.keysWithValueType target = .ok other ↔
      (∃ k ∈ d.tree.names, d.matchesCategory k.text target = .ok true) ∧
        other.keys = d.tree.names.filter fun k => d.matchesCategory k.text target = .ok true := by
  obtain ⟨found, listed, result⟩ := h.exists_keysWithValueType object target readable
  have something : found.isEmpty = false ↔
      ∃ k ∈ d.tree.names, d.matchesCategory k.text target = .ok true := by
    rw [KeySet.isEmpty, List.isEmpty_eq_false_iff_exists_mem, listed]
    simp only [List.mem_filter, decide_eq_true_eq]
  rw [result, ← something, ← listed]
  split
  · next empty => simp [empty]
  · next some => simp [some, KeySet.ext_iff, eq_comm]

/-- A category without `undefined` has the keys of required members alone. -/
theorem isOptional_of_keysWithValueType
    (excluded : (Tree.ofKind .undefined).assignable target.tree = false) {found : KeySet}
    (given : d.keysWithValueType target = .ok found) :
    ∀ k ∈ found.keys, d.isOptional k.text = .ok false := by
  intro k hk
  rw [((h.keysWithValueType_eq_ok_iff object target readable).1 given).2, List.mem_filter] at hk
  obtain ⟨c, hc, rfl⟩ := List.mem_map.1 hk.1
  exact h.isOptional_of_matchesCategory object target (h.type.find?_name object hc)
    (readable _ hk.1) excluded (of_decide_eq_true hk.2)

end Selection

end Normal

/-- A member that can be read is in a category exactly when its declared type is assignable to the
target and, if it is optional, `undefined` is too. If all members can be read, it is a fault that no
key is in a category, and otherwise the keys that are make up the answer, in order. So a category
without `undefined` has no optional members. -/
theorem categories_split_at_undefined :
    (∀ {m n : Nat} (d : Descriptor m) (target : Descriptor n) (key : Text), d.Reachable →
      d.tree.hasKey key = .ok true → d.Readable key →
      ∃ declared modifiers answer, d.declaredType key = .ok declared ∧
        d.tree.memberModifiers key = .ok modifiers ∧
        d.isOptional key = .ok modifiers.optional ∧ d.matchesCategory key target = .ok answer ∧
        (answer = true ↔ declared.tree.assignable target.tree = true ∧
          (modifiers.optional = true →
            (Tree.ofKind .undefined).assignable target.tree = true))) ∧
    (∀ {m n : Nat} (d : Descriptor m) (target : Descriptor n), d.Reachable →
      d.tree.isKind .object = true → (∀ k ∈ d.tree.names, d.Readable k.text) →
      ∃ all, d.tree.keys = .ok all ∧ all.keys = d.tree.names ∧
        (∀ fault, d.keysWithValueType target = .error fault ↔
          (∀ k ∈ all.keys, d.matchesCategory k.text target = .ok false) ∧
            fault = .emptyCategory target.tree.text d.tree.text) ∧
        (∀ found, d.keysWithValueType target = .ok found ↔
          (∃ k ∈ all.keys, d.matchesCategory k.text target = .ok true) ∧
            found.keys = all.keys.filter fun k => d.matchesCategory k.text target = .ok true) ∧
        ((Tree.ofKind .undefined).assignable target.tree = false →
          ∀ found, d.keysWithValueType target = .ok found →
            ∀ k ∈ found.keys, d.isOptional k.text = .ok false)) ∧
    ∀ {m n : Nat} (d : Descriptor m) (target : Descriptor n), d.Reachable →
      d.tree.memberCount = .ok 0 →
      d.keysWithValueType target = .error (.emptyCategory target.tree.text d.tree.text) := by
  refine ⟨?member, ?keys, ?empty⟩
  case member =>
    intro m n d target key h present readable
    obtain ⟨object, member, found⟩ := Tree.hasKey_iff.1 present
    exact h.normal.exists_matchesCategory object target found readable
  case keys =>
    intro m n d target h object readable
    obtain ⟨all, known, keys⟩ := h.normal.type.exists_keys object
    refine ⟨all, known, keys, ?_⟩
    rw [keys]
    exact ⟨fun _ => h.normal.keysWithValueType_eq_error_iff object target readable,
      fun _ => h.normal.keysWithValueType_eq_ok_iff object target readable,
      fun excluded _ => h.normal.isOptional_of_keysWithValueType object target readable excluded⟩
  case empty =>
    intro m n d target h none
    obtain ⟨_, object, count⟩ := bind_eq_ok none
    have object := Tree.requireObject_eq_ok_iff.1 object
    have names : d.tree.names = [] :=
      List.map_eq_nil_iff.2 (List.length_eq_zero_iff.1 (Except.ok.inj count))
    exact (h.normal.keysWithValueType_eq_error_iff object target (by simp [names])).2
      ⟨by simp [names], rfl⟩

/-- A required and an optional number: a union with `undefined` takes the optional one, a number
does not. Where there is no member, there is none in a category. -/
theorem categories_of_optional_number :
    ∃ built : Descriptor 5 × Descriptor 3 × Descriptor 1 × Descriptor 1, (do
      let a ← Member.make (.ofString "a") (← ofKind 5 .number) .none
      let b ← Member.make (.ofString "b") (← ofKind 5 .number) ⟨false, true, 0⟩
      let d ← object 5 [a, b]
      let either ← union [← ofKind 3 .number, ← ofKind 3 .undefined]
      return (d, either, ← ofKind 1 .number, ← object 1 [])) = .ok built ∧
      let (d, either, number, empty) := built
      d.matchesCategory (.ofString "b") either = .ok true ∧
        d.matchesCategory (.ofString "b") number = .ok false ∧
        (∃ found, d.keysWithValueType number = .ok found ∧
          ∀ k ∈ found.keys, d.isOptional k.text = .ok false) ∧
        empty.keysWithValueType number =
          .error (.emptyCategory number.tree.text empty.tree.text) := by
  obtain ⟨member, selection, vacuous⟩ := categories_split_at_undefined
  refine exists_ok_of_test (fun (d, either, number, empty) =>
    d.tree.hasKey (.ofString "b") = .ok true ∧
      d.tree.memberModifiers (.ofString "b") = .ok ⟨false, true, 0⟩ ∧
      (d.declaredType (.ofString "b")).map (·.tree.assignable either.tree) = .ok true ∧
      (Tree.ofKind .undefined).assignable either.tree = true ∧
      (Tree.ofKind .undefined).assignable number.tree = false ∧
      d.Readable (.ofString "b") ∧ (∀ k ∈ d.tree.names, d.Readable k.text) ∧
      (d.keysWithValueType number).isOk = true ∧ empty.tree.memberCount = .ok 0)
    (by decide +kernel) ?_
  rintro ⟨d, either, number, empty⟩ made known
  obtain ⟨present, marked, taken, undefined, undefined', read, readable, some, none⟩ :=
    of_decide_eq_true known
  obtain ⟨reachable, bare⟩ : d.Reachable ∧ empty.Reachable := by
    refine Gives.holds (P := fun (d, _, _, empty) => d.Reachable ∧ empty.Reachable) made
      (.member (.kind rfl) fun a ha => .member (.kind rfl) fun b hb => ?_)
    refine .bind (.object (by simp [ha, hb])) fun shape hs => .after fun _ => .after fun _ => ?_
    exact .after fun _ => .after fun _ => .bind (.object (by simp)) fun _ he => .pure ⟨hs, he⟩
  refine ⟨?inside, ?outside, ?certain, vacuous empty number bare none⟩
  case inside =>
    obtain ⟨declared, modifiers, answer, type, -, -, answered, split⟩ :=
      member d either _ reachable present read
    rw [type] at taken
    rw [answered, split.2 ⟨Except.ok.inj taken, fun _ => undefined⟩]
  case outside =>
    obtain ⟨declared, modifiers, answer, -, flags, -, answered, split⟩ :=
      member d number _ reachable present read
    cases marked.symm.trans flags
    refine answered.trans (congrArg _ (Bool.eq_false_iff.2 fun inside => ?_))
    rw [(split.1 inside).2 rfl] at undefined'
    cases undefined'
  case certain =>
    obtain ⟨all, -, -, -, -, certain⟩ :=
      selection d number reachable (Tree.hasKey_iff.1 present).1 readable
    exact exists_ok some (certain undefined')

end Descriptor

end StructuralTypes
