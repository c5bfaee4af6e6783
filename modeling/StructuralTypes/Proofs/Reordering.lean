import Mathlib.Data.List.Perm.Subperm
import StructuralTypes.Descriptor
import StructuralTypes.Proofs.Unfolding

/-!
# Equality is equality up to rearranging

The children of objects and unions form sets, so two trees mean the same when one of them becomes
the other by rearranging such children at any depth. The comparison matches them greedily and never
revises a match. It misses no matching, because the trees that equal a given one form a class: any
member of the class on the right is as good a partner as any other.
-/

namespace StructuralTypes

section RemoveFirst

variable {α : Type} {p : α → Bool}

/-- What is removed satisfies the predicate, and nothing else is lost. -/
theorem perm_of_removeFirst? {xs rest : List α} (h : removeFirst? p xs = some rest) :
    ∃ x, p x = true ∧ xs.Perm (x :: rest) := by
  induction xs generalizing rest with
  | nil => cases h
  | cons x xs ih =>
      rw [removeFirst?] at h
      split at h
      · next hx =>
        cases h
        exact ⟨x, hx, .refl _⟩
      · obtain ⟨kept, hk, rfl⟩ := Option.map_eq_some_iff.1 h
        obtain ⟨y, hy, order⟩ := ih hk
        exact ⟨y, hy, (order.cons x).trans (.swap y x kept)⟩

theorem forall_of_removeFirst?_eq_none {xs : List α} (h : removeFirst? p xs = none) :
    ∀ x ∈ xs, p x = false := by
  induction xs with
  | nil => simp
  | cons x xs ih =>
      rw [removeFirst?] at h
      split at h
      · cases h
      · next hx =>
        have rest := ih (Option.map_eq_none_iff.1 h)
        intro y hy
        rcases List.mem_cons.1 hy with rfl | hy
        · exact Bool.eq_false_iff.2 hx
        · exact rest y hy

end RemoveFirst

namespace Tree

/-- What holds of a node when it holds of all its children holds of every tree. -/
@[elab_as_elim]
theorem nodeInduction {motive : Tree → Prop}
    (node : ∀ head children, (∀ c ∈ children, motive c) → motive (.node head children))
    (t : Tree) : motive t := by
  cases t with
  | node head children => exact node head children fun c _ => nodeInduction node c

/-- The second tree is the first one with the children of objects and unions rearranged, at every
depth. Tags, names, modifiers and the order of all other children stay. -/
inductive Reordering : Tree → Tree → Prop
  | inPlace {head : Head} {as bs : List Tree} (positional : head.tag.unordered = false)
      (children : List.Forall₂ Reordering as bs) : Reordering (node head as) (node head bs)
  | rearranged {head : Head} {as cs bs : List Tree} (free : head.tag.unordered = true)
      (order : as.Perm cs) (children : List.Forall₂ Reordering cs bs) :
      Reordering (node head as) (node head bs)

namespace Reordering

/-- The children after any rearrangement that the head allows. -/
theorem node_iff {a b : Head} {as bs : List Tree} :
    Reordering (node a as) (node b bs) ↔
      a = b ∧ if a.tag.unordered then Relation.Comp List.Perm (List.Forall₂ Reordering) as bs
        else List.Forall₂ Reordering as bs := by
  constructor
  · intro h
    cases h with
    | inPlace positional children => simpa [positional] using children
    | rearranged free order children =>
        refine ⟨rfl, ?_⟩
        rw [if_pos free]
        exact ⟨_, order, children⟩
  · rintro ⟨rfl, h⟩
    split at h
    · next free =>
      obtain ⟨cs, order, children⟩ := h
      exact .rearranged free order children
    · next positional => exact .inPlace (Bool.eq_false_iff.2 positional) h

theorem refl (t : Tree) : Reordering t t := by
  induction t using nodeInduction with
  | node head children ih =>
      have same : List.Forall₂ Reordering children children := List.forall₂_same.2 ih
      cases positional : head.tag.unordered with
      | false => exact .inPlace positional same
      | true => exact .rearranged positional (.refl _) same

private theorem forall₂_symm {as bs : List Tree}
    (ih : ∀ a ∈ as, ∀ b, Reordering a b → Reordering b a) (h : List.Forall₂ Reordering as bs) :
    List.Forall₂ Reordering bs as := by
  induction h with
  | nil => exact .nil
  | cons head tail rest =>
      exact .cons (ih _ List.mem_cons_self _ head)
        (rest fun a ha => ih a (List.mem_cons_of_mem _ ha))

theorem symm {t u : Tree} (h : Reordering t u) : Reordering u t := by
  induction t using nodeInduction generalizing u with
  | node head children ih =>
      replace ih : ∀ a ∈ children, ∀ b, Reordering a b → Reordering b a := fun a ha b => ih a ha
      cases h with
      | inPlace positional below => exact .inPlace positional (forall₂_symm ih below)
      | rearranged free order below =>
          have back := forall₂_symm (fun a ha => ih a (order.mem_iff.2 ha)) below
          have moved : Relation.Comp (List.Forall₂ Reordering) List.Perm _ children :=
            ⟨_, back, order.symm⟩
          rw [List.forall₂_comp_perm_eq_perm_comp_forall₂] at moved
          obtain ⟨ds, order, below⟩ := moved
          exact .rearranged free order below

private theorem forall₂_trans {as bs cs : List Tree}
    (ih : ∀ a ∈ as, ∀ b c, Reordering a b → Reordering b c → Reordering a c)
    (h : List.Forall₂ Reordering as bs) (k : List.Forall₂ Reordering bs cs) :
    List.Forall₂ Reordering as cs := by
  induction h generalizing cs with
  | nil => exact k
  | cons head tail rest =>
      cases k with
      | cons head' tail' =>
          exact .cons (ih _ List.mem_cons_self _ _ head head')
            (rest (fun a ha => ih a (List.mem_cons_of_mem _ ha)) tail')

theorem trans {t u v : Tree} (h : Reordering t u) (k : Reordering u v) : Reordering t v := by
  induction t using nodeInduction generalizing u v with
  | node head children ih =>
      replace ih : ∀ a ∈ children, ∀ b c, Reordering a b → Reordering b c → Reordering a c :=
        fun a ha b c => ih a ha
      cases h with
      | inPlace positional below =>
          cases k with
          | inPlace _ below' => exact .inPlace positional (forall₂_trans ih below below')
          | rearranged free _ _ => rw [positional] at free; cases free
      | rearranged free order below =>
          cases k with
          | inPlace positional _ => rw [positional] at free; cases free
          | rearranged _ order' below' =>
              -- The second rearrangement is carried out before the children of the first change.
              have moved : Relation.Comp (List.Forall₂ Reordering) List.Perm _ _ :=
                ⟨_, below, order'⟩
              rw [List.forall₂_comp_perm_eq_perm_comp_forall₂] at moved
              obtain ⟨ds, order'', below''⟩ := moved
              have whole := order.trans order''
              exact .rearranged free whole
                (forall₂_trans (fun a ha => ih a (whole.mem_iff.2 ha)) below'' below')

/-- Trees that are reorderings of one another. -/
instance setoid : Setoid Tree := ⟨Reordering, refl, symm, trans⟩

/-- The class of the reorderings of a tree. -/
def classOf (t : Tree) : Quotient setoid := Quotient.mk setoid t

theorem classOf_eq_iff {t u : Tree} : classOf t = classOf u ↔ Reordering t u :=
  ⟨Quotient.exact, fun h => Quotient.sound h⟩

theorem map_classOf_eq_iff {as bs : List Tree} :
    as.map classOf = bs.map classOf ↔ List.Forall₂ Reordering as bs := by
  rw [← List.forall₂_eq_eq_eq, List.forall₂_map_left_iff, List.forall₂_map_right_iff]
  simp only [classOf_eq_iff]

/-- A one-to-one matching exists exactly when both sides have the same classes, counted with
repetitions. -/
theorem matching_iff {as bs : List Tree} :
    Relation.Comp List.Perm (List.Forall₂ Reordering) as bs ↔
      (as.map classOf).Perm (bs.map classOf) := by
  have split := congrFun (congrFun (List.eq_map_comp_perm classOf) (as.map classOf)) bs
  rw [← List.forall₂_comp_perm_eq_perm_comp_forall₂, ← split]
  simp only [Relation.Comp, map_classOf_eq_iff]

end Reordering

section Greedy

variable {as bs : List Tree}

/-- The comparison of a tree with any other decides whether they are reorderings. -/
def DecidesReordering (t : Tree) : Prop := ∀ u, t.equiv u = true ↔ Reordering t u

/-- Position by position. -/
theorem equivAll_iff (ih : ∀ a ∈ as, DecidesReordering a) (same : as.length = bs.length) :
    equivAll as bs = true ↔ List.Forall₂ Reordering as bs := by
  induction as generalizing bs with
  | nil =>
      obtain rfl := List.length_eq_zero_iff.1 same.symm
      simp [equivAll]
  | cons a as rest =>
      cases bs with
      | nil => cases same
      | cons b bs =>
          have tail := rest (fun x hx => ih x (List.mem_cons_of_mem _ hx)) (Nat.succ.inj same)
          rw [equivAll, Bool.and_eq_true, ih a List.mem_cons_self b, tail, List.forall₂_cons]

/-- The greedy pass succeeds exactly when the classes on the left, counted with repetitions, are
among those on the right. -/
theorem matchAll_iff_subperm (ih : ∀ a ∈ as, DecidesReordering a) :
    matchAll as bs = true ↔
      (as.map Reordering.classOf).Subperm (bs.map Reordering.classOf) := by
  induction as generalizing bs with
  | nil => simp [matchAll]
  | cons a as rest =>
      have decides := ih a List.mem_cons_self
      replace ih : ∀ x ∈ as, DecidesReordering x := fun x hx => ih x (List.mem_cons_of_mem _ hx)
      rw [matchAll, List.map_cons]
      cases found : removeFirst? (fun b => a.equiv b) bs with
      | none =>
          -- The class of `a` does not occur on the right at all.
          have absent := forall_of_removeFirst?_eq_none found
          simp only [Bool.false_eq_true, false_iff]
          intro h
          obtain ⟨b, hb, same⟩ := List.mem_map.1 (h.subset List.mem_cons_self)
          have := (decides b).2 (Reordering.classOf_eq_iff.1 same.symm)
          simp [absent b hb] at this
      | some free =>
          -- Whichever partner was taken, it is of the class of `a`.
          obtain ⟨b, hb, order⟩ := perm_of_removeFirst? found
          have same := Reordering.classOf_eq_iff.2 ((decides b).1 hb)
          have classes := order.map Reordering.classOf
          rw [List.map_cons, ← same] at classes
          rw [rest ih, classes.subperm_left, List.subperm_cons]

/-- Lists of one length are matched one to one. -/
theorem matchAll_iff (ih : ∀ a ∈ as, DecidesReordering a) (same : as.length = bs.length) :
    matchAll as bs = true ↔ Relation.Comp List.Perm (List.Forall₂ Reordering) as bs := by
  rw [matchAll_iff_subperm ih, Reordering.matching_iff]
  exact ⟨fun h => h.perm_of_length_le (by simp [same]), List.Perm.subperm⟩

end Greedy

/-- The comparison decides whether two trees are reorderings of one another. -/
theorem equiv_iff_reordering (t u : Tree) : t.equiv u = true ↔ Reordering t u := by
  suffices h : DecidesReordering t from h u
  induction t using nodeInduction with
  | node a as ih =>
      rintro ⟨b, bs⟩
      rw [equiv, Reordering.node_iff, Bool.and_eq_true, Bool.and_eq_true, beq_iff_eq, beq_iff_eq,
        and_assoc]
      refine and_congr_right fun _ => ?_
      split
      · constructor
        · rintro ⟨same, h⟩
          exact (matchAll_iff ih same).1 h
        · rintro ⟨cs, order, below⟩
          have same : as.length = bs.length := order.length_eq.trans below.length_eq
          exact ⟨same, (matchAll_iff ih same).2 ⟨cs, order, below⟩⟩
      · constructor
        · rintro ⟨same, h⟩
          exact (equivAll_iff ih same).1 h
        · intro h
          exact ⟨h.length_eq, (equivAll_iff ih h.length_eq).2 h⟩

@[simp] theorem equiv_refl (t : Tree) : t.equiv t = true :=
  (equiv_iff_reordering t t).2 (.refl t)

theorem equiv_symm {t u : Tree} (h : t.equiv u = true) : u.equiv t = true :=
  (equiv_iff_reordering u t).2 ((equiv_iff_reordering t u).1 h).symm

theorem equiv_trans {t u v : Tree} (h : t.equiv u = true) (k : u.equiv v = true) :
    t.equiv v = true :=
  (equiv_iff_reordering t v).2
    (((equiv_iff_reordering t u).1 h).trans ((equiv_iff_reordering u v).1 k))

/-- Nodes without children are equal when their heads are. -/
theorem equiv_leaf (a b : Head) : (node a []).equiv (node b []) = (a == b) := by
  simp [equiv, equivAll, matchAll]

/-- The greedy pass succeeds exactly when it can be given different partners on the right for all
trees on the left. -/
theorem matchAll_iff_partners (as bs : List Tree) :
    matchAll as bs = true ↔
      ∃ partners : List Tree, partners.Subperm bs ∧
        List.Forall₂ (fun a b => a.equiv b = true) as partners := by
  rw [matchAll_iff_subperm fun a _ => equiv_iff_reordering a]
  simp only [equiv_iff_reordering]
  constructor
  · rintro ⟨classes, order, taken⟩
    obtain ⟨chosen, inside, rfl⟩ := List.sublist_map_iff.1 taken
    have matched := Reordering.matching_iff.2 order.symm
    rw [← List.forall₂_comp_perm_eq_perm_comp_forall₂] at matched
    obtain ⟨partners, pairs, order⟩ := matched
    exact ⟨partners, ⟨chosen, order.symm, inside⟩, pairs⟩
  · rintro ⟨partners, ⟨chosen, order, inside⟩, pairs⟩
    rw [Reordering.map_classOf_eq_iff.2 pairs]
    exact ⟨chosen.map Reordering.classOf, order.map _, inside.map _⟩

end Tree

/-- Stored types compare equal exactly when the trees that their roots unfold to are reorderings of
one another. Shared nodes, repeated keys and repeated alternatives make no difference: the greedy
pass finds partners whenever there are any, and the comparison is an equivalence across all
capacities. -/
theorem Descriptor.equiv_decides_reordering :
    (∀ {m n : Nat} (d : Descriptor m) (e : Descriptor n),
      d.tree.equiv e.tree = true ↔
        ∃ t u, d.arena.Unfolds d.root t ∧ e.arena.Unfolds e.root u ∧ Tree.Reordering t u) ∧
    (∀ as bs : List Tree, Tree.matchAll as bs = true ↔
      ∃ partners : List Tree, partners.Subperm bs ∧
        List.Forall₂ (fun a b => a.equiv b = true) as partners) ∧
    (∀ {m : Nat} (d : Descriptor m), d.tree.equiv d.tree = true) ∧
    (∀ {m n : Nat} (d : Descriptor m) (e : Descriptor n),
      d.tree.equiv e.tree = true → e.tree.equiv d.tree = true) ∧
    (∀ {m n k : Nat} (d : Descriptor m) (e : Descriptor n) (f : Descriptor k),
      d.tree.equiv e.tree = true → e.tree.equiv f.tree = true → d.tree.equiv f.tree = true) := by
  refine ⟨fun d e => ?_, Tree.matchAll_iff_partners, fun d => d.tree.equiv_refl,
    fun _ _ => Tree.equiv_symm, fun _ _ _ => Tree.equiv_trans⟩
  rw [Tree.equiv_iff_reordering]
  constructor
  · intro h
    exact ⟨_, _, d.arena.unfolds_iff.2 ⟨d.inside, rfl⟩, e.arena.unfolds_iff.2 ⟨e.inside, rfl⟩, h⟩
  · rintro ⟨t, u, ht, hu, h⟩
    obtain ⟨-, rfl⟩ := d.arena.unfolds_iff.1 ht
    obtain ⟨-, rfl⟩ := e.arena.unfolds_iff.1 hu
    exact h

end StructuralTypes
