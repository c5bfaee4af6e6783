import Mathlib.Data.List.Forall2
import StructuralTypes.Fault

/-!
# Outcomes of computations

A computation may fail, and one that follows indices may have no answer. That it gives a result is
found by running it. What holds of the result is found step by step, whether or not there is one. A
list is computed from its elements in order, and what holds of it is found element by element.
-/

namespace StructuralTypes

section Results

variable {α β : Type} {x : Except Fault α}

/-- A mapped computation succeeds when the computation does. -/
theorem map_eq_ok {f : α → β} {b : β} (h : f <$> x = .ok b) : ∃ a, x = .ok a ∧ f a = b := by
  cases x with
  | error e => cases h
  | ok a =>
      cases h
      exact ⟨a, rfl, rfl⟩

/-- A computation followed by a function fails as the computation does. -/
theorem bind_pure_eq_error_iff {f : α → β} {fault : Fault} :
    (do return f (← x)) = .error fault ↔ x = .error fault := by
  cases x with
  | error e =>
      exact ⟨fun h => congrArg _ (Except.error.inj h), fun h => congrArg _ (Except.error.inj h)⟩
  | ok a => exact ⟨nofun, nofun⟩

theorem exists_of_isOk (ok : x.isOk = true) : ∃ a, x = .ok a := by
  cases x with
  | error e => cases ok
  | ok a => exact ⟨a, rfl⟩

/-- A computation that succeeds gives something, of which everything holds that holds of any result
it may give. -/
theorem exists_ok {motive : α → Prop} (ok : x.isOk = true)
    (h : ∀ a, x = .ok a → motive a) : ∃ a, x = .ok a ∧ motive a := by
  obtain ⟨a, given⟩ := exists_of_isOk ok
  exact ⟨a, given, h a given⟩

/-- A computation that succeeds with something that passes a test. -/
theorem exists_ok_of_test {motive : α → Prop} (test : α → Bool)
    (passes : x.map test = .ok true) (h : ∀ a, x = .ok a → test a = true → motive a) :
    ∃ a, x = .ok a ∧ motive a := by
  cases x with
  | error e => cases passes
  | ok a => exact ⟨a, rfl, h a rfl (Except.ok.inj passes)⟩

/-- Whatever the computation gives has the property. -/
def Gives (x : Except Fault α) (P : α → Prop) : Prop := ∀ a, x = .ok a → P a

namespace Gives

variable {P : α → Prop} {Q : β → Prop}

theorem pure {a : α} (h : P a) : Gives (Pure.pure a) P := by
  intro b given
  cases given
  exact h

/-- A step may rely on what holds of the result of the step before. -/
theorem bind (first : Gives x P) {f : α → Except Fault β} (next : ∀ a, P a → Gives (f a) Q) :
    Gives (x >>= f) Q := by
  intro b given
  obtain ⟨a, ha, given⟩ := bind_eq_ok given
  exact next a (first a ha) b given

/-- Of a step about which nothing else is said, the result may be named. -/
theorem self : Gives x (x = .ok ·) := fun _ given => given

/-- A step that matters for nothing may be passed over. -/
theorem after {f : α → Except Fault β} (next : ∀ a, Gives (f a) Q) : Gives (x >>= f) Q :=
  bind self fun a _ => next a

/-- What a computation is known to have given has the property. The computation comes first: its
steps are then known where the property is followed through them. -/
theorem holds {a : α} (given : x = .ok a) (gives : Gives x P) : P a := gives a given

end Gives

end Results

section Lists

variable {α β : Type}

/-- A list is computed when each element is, in order. -/
theorem mapM_eq_ok_iff {f : α → Except Fault β} {as : List α} {bs : List β} :
    as.mapM f = .ok bs ↔ List.Forall₂ (f · = .ok ·) as bs := by
  induction as generalizing bs with
  | nil =>
      rw [List.mapM_nil, List.forall₂_nil_left_iff]
      exact ⟨fun h => (Except.ok.inj h).symm, fun h => congrArg _ h.symm⟩
  | cons a as ih =>
      rw [List.mapM_cons, List.forall₂_cons_left_iff]
      constructor
      · intro given
        obtain ⟨b, first, given⟩ := bind_eq_ok given
        obtain ⟨rest, others, given⟩ := bind_eq_ok given
        cases given
        exact ⟨b, rest, first, ih.1 others, rfl⟩
      · rintro ⟨b, rest, first, others, rfl⟩
        rw [first, ih.2 others]
        rfl

/-- What is paired with an element stands in the other list. -/
theorem exists_mem_of_forall₂ {R : α → β → Prop} {as : List α} {bs : List β}
    (pairs : List.Forall₂ R as bs) {a : α} (ha : a ∈ as) : ∃ b ∈ bs, R a b := by
  obtain ⟨i, hi, rfl⟩ := List.mem_iff_getElem.1 ha
  have inside : i < bs.length := pairs.length_eq ▸ hi
  exact ⟨bs[i], List.getElem_mem inside, pairs.get hi inside⟩

/-- What every single computation gives has the property, and so has what they give together. -/
theorem Gives.mapM {f : α → Except Fault β} {P : β → Prop} {as : List α}
    (each : ∀ a ∈ as, Gives (f a) P) : Gives (as.mapM f) fun bs => ∀ b ∈ bs, P b := by
  induction as with
  | nil =>
      rw [List.mapM_nil]
      exact .pure (by simp)
  | cons a as ih =>
      obtain ⟨head, tail⟩ := List.forall_mem_cons.1 each
      rw [List.mapM_cons]
      exact .bind head fun b hb => .bind (ih tail) fun bs hbs =>
        .pure (List.forall_mem_cons.2 ⟨hb, hbs⟩)

/-- A computation that gives each element back from what is read of it gives the whole list back. -/
theorem mapM_map_eq_ok {f : α → Except Fault β} {g : β → α} {bs : List β}
    (each : ∀ b ∈ bs, f (g b) = .ok b) : (bs.map g).mapM f = .ok bs := by
  rw [mapM_eq_ok_iff, List.forall₂_map_left_iff, List.forall₂_same]
  exact each

/-- Where the predicate never fails, filtering does not. -/
theorem filterM_eq_ok {p : α → Except Fault Bool} {q : α → Bool} {xs : List α}
    (h : ∀ x ∈ xs, p x = .ok (q x)) : xs.filterM p = .ok (xs.filter q) := by
  have aux : ∀ kept, xs.filterAuxM p kept = .ok ((xs.filter q).reverse ++ kept) := by
    induction xs with
    | nil => exact fun _ => rfl
    | cons x xs ih =>
        intro kept
        rw [List.filterAuxM, h x List.mem_cons_self]
        have rest := ih (fun y hy => h y (List.mem_cons_of_mem _ hy)) (cond (q x) (x :: kept) kept)
        refine rest.trans ?_
        cases keep : q x <;> simp [keep]
  rw [List.filterM, aux]
  simp [bind, Except.bind, pure, Except.pure]

/-- Filtering fails where the predicate fails. -/
theorem exists_filterM_eq_error {p : α → Except Fault Bool} {xs : List α} {x : α} {e : Fault}
    (hx : x ∈ xs) (h : p x = .error e) : ∃ f, xs.filterM p = .error f := by
  have aux : ∀ kept, ∃ f, xs.filterAuxM p kept = .error f := by
    induction xs with
    | nil => cases hx
    | cons y ys ih =>
        intro kept
        rw [List.filterAuxM]
        cases first : p y with
        | error f => exact ⟨f, rfl⟩
        | ok keep =>
            rcases List.mem_cons.1 hx with rfl | hx
            · rw [h] at first
              cases first
            · exact ih hx _
  obtain ⟨f, failed⟩ := aux []
  exact ⟨f, by rw [List.filterM, failed]; rfl⟩

/-- A computation that answers for every element answers for the list. -/
theorem mapM_eq_some {f : α → Option β} {g : α → β} {xs : List α}
    (each : ∀ x ∈ xs, f x = some (g x)) : xs.mapM f = some (xs.map g) := by
  induction xs with
  | nil => rfl
  | cons x xs ih =>
      obtain ⟨first, rest⟩ := List.forall_mem_cons.1 each
      rw [List.mapM_cons, first, ih rest]
      rfl

theorem allM_eq_some {f : α → Option Bool} {g : α → Bool} {xs : List α}
    (each : ∀ x ∈ xs, f x = some (g x)) : xs.allM f = some (xs.all g) := by
  induction xs with
  | nil => rfl
  | cons x xs ih =>
      obtain ⟨first, rest⟩ := List.forall_mem_cons.1 each
      rw [List.allM, first, ih rest, List.all_cons]
      cases g x <;> rfl

theorem anyM_eq_some {f : α → Option Bool} {g : α → Bool} {xs : List α}
    (each : ∀ x ∈ xs, f x = some (g x)) : xs.anyM f = some (xs.any g) := by
  induction xs with
  | nil => rfl
  | cons x xs ih =>
      obtain ⟨first, rest⟩ := List.forall_mem_cons.1 each
      rw [List.anyM, first, ih rest, List.any_cons]
      cases g x <;> rfl

end Lists

end StructuralTypes
