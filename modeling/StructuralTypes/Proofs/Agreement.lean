import Mathlib.Data.List.Perm.Basic
import StructuralTypes.KeySet
import StructuralTypes.Proofs.Outcomes

/-!
# Computations that agree

Two computations agree when both fail, or both succeed with related results. Agreement passes
through the steps of a computation, so that functions of related arguments are compared step by
step. The faults are not compared: they carry renderings, which show the order of members.
-/

namespace StructuralTypes

/-- Both computations fail, or both succeed with related results. -/
inductive Agree {α β : Type} (R : α → β → Prop) : Except Fault α → Except Fault β → Prop
  | ok {a : α} {b : β} (related : R a b) : Agree R (.ok a) (.ok b)
  | error {e f : Fault} : Agree R (.error e) (.error f)

namespace Agree

variable {α β γ δ : Type} {R : α → β → Prop} {S : γ → δ → Prop} {x : Except Fault α}
  {y : Except Fault β}

theorem bind (h : Agree R x y) {f : α → Except Fault γ} {g : β → Except Fault δ}
    (next : ∀ a b, R a b → Agree S (f a) (g b)) : Agree S (x >>= f) (y >>= g) := by
  cases h with
  | ok related => exact next _ _ related
  | error => exact .error

theorem map (h : Agree R x y) {f : α → γ} {g : β → δ} (related : ∀ a b, R a b → S (f a) (g b)) :
    Agree S (f <$> x) (g <$> y) := by
  cases h with
  | ok h => exact .ok (related _ _ h)
  | error => exact .error

theorem mono {R' : α → β → Prop} (h : Agree R x y) (weaken : ∀ a b, R a b → R' a b) :
    Agree R' x y := by
  cases h with
  | ok related => exact .ok (weaken _ _ related)
  | error => exact .error

/-- What the results satisfy on their own may be used along with their relation. -/
theorem strengthen (h : Agree R x y) {P : α → Prop} {Q : β → Prop} (left : ∀ a, x = .ok a → P a)
    (right : ∀ b, y = .ok b → Q b) : Agree (fun a b => R a b ∧ P a ∧ Q b) x y := by
  cases h with
  | ok related => exact .ok ⟨related, left _ rfl, right _ rfl⟩
  | error => exact .error

theorem negate {x y : Except Fault Bool} (h : Agree (· = ·) x y) :
    Agree (· = ·) (do return !(← x)) (do return !(← y)) :=
  h.bind fun _ _ same => .ok (congrArg _ same)

end Agree

section Filtering

variable {α : Type} {p p' : α → Except Fault Bool}

/-- Predicates that agree pick the same, whatever the order. -/
theorem filterM_agree {xs ys : List α} (order : xs.Perm ys)
    (each : ∀ x, Agree (· = ·) (p x) (p' x)) :
    Agree (fun a b => a.Perm b ∧ a.Sublist xs ∧ b.Sublist ys) (xs.filterM p) (ys.filterM p') := by
  by_cases total : ∀ x ∈ xs, ∃ v, p x = .ok v
  · have chosen : ∀ x ∈ xs, p x = .ok ((p x).toOption.getD false) := by
      intro x hx
      obtain ⟨v, hv⟩ := total x hx
      rw [hv]
      rfl
    have chosen' : ∀ y ∈ ys, p' y = .ok ((p y).toOption.getD false) := by
      intro y hy
      obtain ⟨v, hv⟩ := total y (order.mem_iff.2 hy)
      have := each y
      rw [hv] at this ⊢
      cases h : p' y with
      | error e => rw [h] at this; cases this
      | ok w => rw [h] at this; cases this with | ok same => rw [same]; rfl
    rw [filterM_eq_ok chosen, filterM_eq_ok chosen']
    exact .ok ⟨order.filter _, List.filter_sublist, List.filter_sublist⟩
  · simp only [not_forall, not_exists] at total
    obtain ⟨x, hx, fails⟩ := total
    have both := each x
    cases left : p x with
    | ok v => exact absurd left (fails v)
    | error e =>
        rw [left] at both
        cases right : p' x with
        | ok v => rw [right] at both; cases both
        | error f =>
            obtain ⟨e', he⟩ := exists_filterM_eq_error hx left
            obtain ⟨f', hf⟩ := exists_filterM_eq_error (order.mem_iff.1 hx) right
            rw [he, hf]
            exact .error

end Filtering

namespace KeySet

theorem exists_insert {s : KeySet} {k : Name} (absent : k ∉ s.keys) (room : s.keys.length < 16) :
    ∃ s', s.insert k.text = .ok s' ∧ s'.keys = s.keys ++ [k] := by
  have missing : s.contains k.text = false := Bool.eq_false_iff.2 (contains_text.not.2 absent)
  rw [insert, dif_pos missing, dif_pos room, dif_pos k.fits]
  exact ⟨_, rfl, rfl⟩

/-- New keys are inserted in order behind the others, as long as there are at most 16 in all. -/
theorem exists_foldlM_insert {names : List Name} {s : KeySet} (distinct : (s.keys ++ names).Nodup)
    (bounded : (s.keys ++ names).length ≤ 16) :
    ∃ s', (names.map Name.text).foldlM insert s = .ok s' ∧ s'.keys = s.keys ++ names := by
  induction names generalizing s with
  | nil => exact ⟨s, rfl, (List.append_nil _).symm⟩
  | cons k ks ih =>
      rw [List.append_cons] at distinct bounded ⊢
      have absent : k ∉ s.keys := by
        have := (List.nodup_append.1 (List.nodup_append.1 distinct).1).2.2
        exact fun hk => this k hk k (List.mem_singleton.2 rfl) rfl
      have room : s.keys.length < 16 := by
        simp only [List.length_append, List.length_singleton] at bounded
        omega
      obtain ⟨s', inserted, keys⟩ := exists_insert absent room
      rw [← keys] at distinct bounded ⊢
      obtain ⟨all, rest, keys'⟩ := ih distinct bounded
      refine ⟨all, ?_, keys'⟩
      rw [List.map_cons, List.foldlM_cons, inserted]
      exact rest

theorem exists_ofList {names : List Name} (distinct : names.Nodup) (bounded : names.length ≤ 16) :
    ∃ s, ofList (names.map Name.text) = .ok s ∧ s.keys = names :=
  exists_foldlM_insert (s := empty) distinct bounded

theorem same_of_perm {a b : KeySet} (order : a.keys.Perm b.keys) : a.same b = true := by
  rw [same, Bool.and_eq_true, beq_iff_eq, List.all_eq_true]
  exact ⟨order.length_eq, fun k hk => contains_text.2 (order.mem_iff.1 hk)⟩

end KeySet

end StructuralTypes
