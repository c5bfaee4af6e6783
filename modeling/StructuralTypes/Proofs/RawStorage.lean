import Mathlib.Data.List.Forall2
import StructuralTypes.Descriptor
import StructuralTypes.Proofs.InPlace

/-!
# Raw storage

A node in memory has sixteen slots for the indices of its children, of which it uses the first; the
others hold -1. Nothing about a slot says whether it is in use, and nothing about an index says
whether it is in bounds. Here every access asks: what is read or written outside of a row, of the
nodes in use or of the slots in use gives no answer at all. There is no answer either for a
recursion that goes on without end, so a computation that has one has stayed in bounds and come to
its end.
-/

namespace StructuralTypes

/-- A computation on raw storage, which may fail, or have no answer. -/
abbrev Checked := ExceptT Fault Option

namespace Checked

variable {α β : Type}

/-- The answer of a computation that comes to its end in bounds. -/
def answer (x : Except Fault α) : Checked α := ExceptT.mk (some x)

/-- An access out of bounds. -/
def outside : Checked α := ExceptT.mk none

/-- An access to something that may not be there. -/
def within (x : Option α) : Checked α := ExceptT.mk (x.map .ok)

theorem answer_ok (a : α) : answer (.ok a) = pure a := rfl

theorem within_some (a : α) : within (some a) = pure a := rfl

/-- What follows a computation with an answer has to have an answer for its value alone. -/
theorem answer_bind {x : Except Fault α} {f : α → Checked β} {g : α → Except Fault β}
    (next : ∀ a, x = .ok a → f a = answer (g a)) : answer x >>= f = answer (x >>= g) := by
  cases x with
  | error e => rfl
  | ok a => exact next a rfl

/-- A raw value stands for a proper one through the whole computation. -/
theorem answer_map_bind {γ : Type} {x : Except Fault α} {φ : α → γ} {f : γ → Checked β}
    {g : α → Except Fault β} (next : ∀ a, x = .ok a → f (φ a) = answer (g a)) :
    answer (φ <$> x) >>= f = answer (x >>= g) := by
  cases x with
  | error e => rfl
  | ok a => exact next a rfl

section Lists

variable {σ : Type}

/-- A loop whose steps have answers has one. -/
theorem answer_foldlM (f : σ → α → Except Fault σ) (xs : List α) (s : σ) :
    xs.foldlM (fun s x => answer (f s x)) s = answer (xs.foldlM f s) := by
  induction xs generalizing s with
  | nil => rfl
  | cons x xs ih =>
      rw [List.foldlM_cons, List.foldlM_cons]
      exact answer_bind fun s _ => ih s

theorem answer_forM {f : α → Checked PUnit} {g : α → Except Fault PUnit}
    (each : ∀ x, f x = answer (g x)) (xs : List α) : xs.forM f = answer (xs.forM g) := by
  induction xs with
  | nil => rfl
  | cons x xs ih =>
      rw [List.forM, List.forM, each]
      exact answer_bind fun _ _ => ih

theorem answer_filterM {p : α → Checked Bool} {q : α → Except Fault Bool}
    (each : ∀ x, p x = answer (q x)) (xs : List α) : xs.filterM p = answer (xs.filterM q) := by
  have go (xs kept : List α) : xs.filterAuxM p kept = answer (xs.filterAuxM q kept) := by
    induction xs generalizing kept with
    | nil => rfl
    | cons x xs ih =>
        rw [List.filterAuxM, List.filterAuxM, each]
        exact answer_bind fun _ _ => ih _
  rw [List.filterM, List.filterM, go]
  exact answer_bind fun _ _ => rfl

end Lists

/-- The checked computation has the answer of the other one, if that has any. -/
def Supports (x : Option α) (y : Checked α) : Prop := ∀ a, x = some a → y = pure a

namespace Supports

variable {x : Option α} {y : Checked α}

theorem pure (a : α) : Supports (some a) (Pure.pure a) := by
  rintro _ ⟨⟩
  rfl

theorem bind_map {γ : Type} {y : Checked γ} {φ : α → γ} (h : ∀ a, x = some a → y = Pure.pure (φ a))
    {f : α → Option β} {g : γ → Checked β} (next : ∀ a, x = some a → Supports (f a) (g (φ a))) :
    Supports (x >>= f) (y >>= g) := by
  intro b given
  obtain ⟨a, known, given⟩ := Option.bind_eq_some_iff.1 given
  rw [h a known, pure_bind]
  exact next a known b given

theorem bind (h : Supports x y) {f : α → Option β} {g : α → Checked β}
    (next : ∀ a, Supports (f a) (g a)) : Supports (x >>= f) (y >>= g) :=
  bind_map (φ := id) h fun a _ => next a

/-- The other computation may look something up that the checked one does not need. -/
theorem bind_left {f : α → Option β} {z : Checked β}
    (next : ∀ a, x = some a → Supports (f a) z) : Supports (x >>= f) z := by
  intro b given
  obtain ⟨a, known, given⟩ := Option.bind_eq_some_iff.1 given
  exact next a known b given

theorem ite {c : Prop} [Decidable c] {x' : Option α} {y' : Checked α} (pos : c → Supports x y)
    (neg : ¬c → Supports x' y') : Supports (if c then x else x') (if c then y else y') := by
  split
  · next h => exact pos h
  · next h => exact neg h

/-- One test after the other instead of both at once. -/
theorem ite_or {p q : Bool} {x' : Option α} {y' : Checked α} (pos : Supports x y)
    (neg : Supports x' y') :
    Supports (if p || q then x else x') (if p then y else if q then y else y') := by
  cases p with
  | true => exact pos
  | false => exact .ite (fun _ => pos) fun _ => neg

theorem allM {f : α → Option Bool} {g : β → Checked Bool} {xs : List α} {ys : List β}
    (each : List.Forall₂ (fun y x => Supports (f x) (g y)) ys xs) :
    Supports (xs.allM f) (ys.allM g) := by
  induction each with
  | nil => exact pure true
  | cons first _ ih =>
      refine first.bind fun passes => ?_
      cases passes with
      | true => exact ih
      | false => exact pure false

theorem anyM {f : α → Option Bool} {g : β → Checked Bool} {xs : List α} {ys : List β}
    (each : List.Forall₂ (fun y x => Supports (f x) (g y)) ys xs) :
    Supports (xs.anyM f) (ys.anyM g) := by
  induction each with
  | nil => exact pure false
  | cons first _ ih =>
      refine first.bind fun passes => ?_
      cases passes with
      | true => exact pure true
      | false => exact ih

end Supports

end Checked

section Loops

variable {α β σ τ : Type} {R : α → β → Prop} {xs : List α} {ys : List β}

theorem allM_congr {f : α → Checked Bool} {g : β → Checked Bool}
    (related : List.Forall₂ (fun x y => f x = g y) xs ys) : xs.allM f = ys.allM g := by
  induction related with
  | nil => rfl
  | cons first _ ih => rw [List.allM, List.allM, first, ih]

theorem anyM_congr {f : α → Checked Bool} {g : β → Checked Bool}
    (related : List.Forall₂ (fun x y => f x = g y) xs ys) : xs.anyM f = ys.anyM g := by
  induction related with
  | nil => rfl
  | cons first _ ih => rw [List.anyM, List.anyM, first, ih]

theorem findSomeM?_congr {γ : Type} {f : α → Checked (Option γ)} {g : β → Checked (Option γ)}
    (related : List.Forall₂ (fun x y => f x = g y) xs ys) : xs.findSomeM? f = ys.findSomeM? g := by
  induction related with
  | nil => rfl
  | cons first _ ih => rw [List.findSomeM?, List.findSomeM?, first, ih]

theorem findSome?_ite (p : α → Bool) (f : α → β) (xs : List α) :
    xs.findSome? (fun x => if p x then some (f x) else none) = (xs.find? p).map f := by
  induction xs with
  | nil => rfl
  | cons x xs ih =>
      rw [List.findSome?_cons, List.find?_cons]
      cases p x with
      | true => rfl
      | false => exact ih

theorem foldlM_congr {f : σ → α → Checked σ} {g : σ → β → Checked σ}
    (related : List.Forall₂ (fun x y => ∀ s, f s x = g s y) xs ys) (s : σ) :
    xs.foldlM f s = ys.foldlM g s := by
  induction related generalizing s with
  | nil => rfl
  | cons first _ ih =>
      rw [List.foldlM_cons, List.foldlM_cons, first s]
      exact congrArg _ (funext ih)

end Loops

/-- Sixteen slots of memory. -/
abbrev Row (α : Type) := Vector α 16

namespace Row

variable {α : Type}

/-- Read a slot. -/
def read (r : Row α) (k : Nat) : Checked α := .within r[k]?

/-- Write to a slot. -/
def write (r : Row α) (k : Nat) (x : α) : Checked (Row α) :=
  if h : k < 16 then pure (r.set k x) else .outside

/-- A value in the first slot, and how many there are. -/
def single (rest x : α) : Checked (Row α × Nat) := do return (← write (.replicate 16 rest) 0 x, 1)

/-- The row with some values written from a slot on. -/
def overlay (r : Row α) (k : Nat) (xs : List α) : Row α :=
  .ofFn fun j => if k ≤ j.val then xs[j.val - k]?.getD r[j] else r[j]

/-- The row that begins with some values and has the same value everywhere else. -/
def filled (rest : α) (xs : List α) : Row α := overlay (.replicate 16 rest) 0 xs

theorem write_eq {r : Row α} {k : Nat} (h : k < 16) (x : α) : r.write k x = pure (r.set k x) :=
  dif_pos h

theorem getElem_overlay (r : Row α) (k : Nat) (xs : List α) {j : Nat} (h : j < 16) :
    (r.overlay k xs)[j] = if k ≤ j then xs[j - k]?.getD r[j] else r[j] := by
  rw [overlay, Vector.getElem_ofFn]
  rfl

theorem overlay_nil (r : Row α) (k : Nat) : r.overlay k [] = r := by
  ext j h
  rw [getElem_overlay]
  simp

/-- Writing the first value leaves the others to be written behind it. -/
theorem overlay_cons (r : Row α) {k : Nat} (h : k < 16) (x : α) (xs : List α) :
    r.overlay k (x :: xs) = overlay (r.set k x) (k + 1) xs := by
  ext j hj
  rw [getElem_overlay, getElem_overlay, Vector.getElem_set]
  rcases Nat.lt_trichotomy k j with below | rfl | above
  · have next : j - k = j - (k + 1) + 1 := by omega
    rw [if_pos (Nat.le_of_lt below), if_pos (Nat.succ_le_of_lt below),
      if_neg (Nat.ne_of_lt below), next, List.getElem?_cons_succ]
  · rw [if_pos (Nat.le_refl k), if_neg (Nat.not_succ_le_self k), if_pos rfl, Nat.sub_self]
    rfl
  · rw [if_neg (by omega), if_neg (by omega), if_neg (Nat.ne_of_gt above)]

theorem read_overlay (r : Row α) {xs : List α} {k : Nat} (h : k < xs.length)
    (few : xs.length ≤ 16) : (r.overlay 0 xs).read k = pure xs[k] := by
  have inside : k < 16 := by omega
  rw [read, Vector.getElem?_eq_getElem inside, getElem_overlay]
  simp [h, Checked.within_some]

theorem overlay_overlay {r : Row α} {k : Nat} {xs ys : List α} (h : xs.length ≤ ys.length) :
    (r.overlay k xs).overlay k ys = r.overlay k ys := by
  ext j hj
  rw [getElem_overlay, getElem_overlay, getElem_overlay]
  split
  · rcases Nat.lt_or_ge (j - k) ys.length with inside | outside
    · rw [List.getElem?_eq_getElem inside, Option.getD_some, Option.getD_some]
    · rw [List.getElem?_eq_none outside, List.getElem?_eq_none (Nat.le_trans h outside)]
      rfl
  · rfl

/-- Values that are at hand are written one after the other. -/
theorem foldlM_write {f : Nat → Checked α} (xs : List α) (k : Nat)
    (few : k + xs.length ≤ 16) (each : ∀ l (h : l < xs.length), f (k + l) = pure xs[l])
    (r : Row α) :
    (List.range' k xs.length).foldlM (fun (r : Row α) k => do r.write k (← f k)) r =
      pure (r.overlay k xs) := by
  induction xs generalizing k r with
  | nil => exact congrArg pure (overlay_nil r k).symm
  | cons x xs ih =>
      rw [List.length_cons] at few
      have first : f k = pure x := each 0 (Nat.zero_lt_succ _)
      have rest l (h : l < xs.length) : f (k + 1 + l) = pure xs[l] := by
        rw [Nat.succ_add_eq_add_succ]
        exact each (l + 1) (Nat.succ_lt_succ h)
      rw [List.length_cons, List.range'_succ, List.foldlM_cons, first, pure_bind,
        write_eq (by omega), pure_bind, ih (k + 1) (by omega) rest, overlay_cons r (by omega)]

/-- A value is added behind those that were filled in. -/
theorem write_filled (rest x : α) {xs : List α} (h : xs.length < 16) :
    (filled rest xs).write xs.length x = pure (filled rest (xs ++ [x])) := by
  rw [write_eq h]
  refine congrArg pure (Vector.ext fun j hj => ?_)
  rw [Vector.getElem_set, filled, filled, getElem_overlay, getElem_overlay]
  grind

end Row

/-- A node in memory. -/
structure RawNode where
  head : Head
  slots : Row Int
  used : Nat

namespace RawNode

/-- The index in a slot, which has to be in use. -/
def child (n : RawNode) (k : Nat) : Checked Int := if k < n.used then n.slots.read k else .outside

/-- The slots in use, in order. -/
def positions (n : RawNode) : List Nat := List.range n.used

end RawNode

/-- The memory of a type: so many nodes at most, those in use coming first. -/
structure RawArena where
  capacity : Nat
  nodes : Array RawNode

namespace RawArena

/-- The node at an index, which has to be in use. -/
def read (s : RawArena) (i : Int) : Checked RawNode :=
  if 0 ≤ i then .within s.nodes[i.toNat]? else .outside

/-- Put a node behind the others, if there is room for it. -/
def add (s : RawArena) (n : RawNode) : Checked (RawArena × Int) :=
  if s.capacity ≤ s.nodes.size then throw .storageFull
  else return ({ s with nodes := s.nodes.push n }, s.nodes.size)

/-- Change the modifiers of a node in place, to what its head calls for. -/
def modify (s : RawArena) (i : Int) (f : Head → Modifiers) : Checked RawArena := do
  let n ← s.read i
  let changed := { n with head := { n.head with modifiers := f n.head } }
  return { s with nodes := s.nodes.setIfInBounds i.toNat changed }

/-- The memory without nodes. -/
def empty (capacity : Nat) : RawArena := ⟨capacity, #[]⟩

end RawArena

/-- A type in memory. -/
structure RawDescriptor where
  arena : RawArena
  root : Int

section Images

/-- The node as it is in memory. -/
def Node.raw (n : Node) : RawNode where
  head := n.head
  slots := .filled (-1) (n.children.map Int.ofNat)
  used := n.children.length

/-- The nodes as they are in memory. -/
def Arena.raw {cap : Nat} (a : Arena cap) : RawArena := ⟨cap, a.nodes.map Node.raw⟩

/-- The descriptor as it is in memory. -/
def Descriptor.raw {cap : Nat} (d : Descriptor cap) : RawDescriptor := ⟨d.arena.raw, d.root⟩

end Images

namespace Node

variable {n m : Node}

theorem child_raw {k : Nat} (few : n.children.length ≤ 16) (h : k < n.children.length) :
    n.raw.child k = pure (n.children[k] : Int) := by
  have length : (n.children.map Int.ofNat).length = n.children.length := List.length_map ..
  have slot := Row.read_overlay (.replicate 16 (-1)) (length.symm ▸ h) (length.symm ▸ few)
  rw [List.getElem_map] at slot
  rw [RawNode.child]
  exact (if_pos h).trans slot

theorem getElem_positions {k : Nat} (h : k < n.raw.positions.length) : n.raw.positions[k] = k := by
  simp [RawNode.positions]

theorem length_positions (n : Node) : n.raw.positions.length = n.children.length := by
  simp [RawNode.positions, raw]

/-- The slots in use hold the children. -/
theorem forall₂_positions (few : n.children.length ≤ 16) :
    List.Forall₂ (fun (k c : Nat) => n.raw.child k = pure (c : Int) ∧ c ∈ n.children)
      n.raw.positions n.children := by
  rw [List.forall₂_iff_get]
  refine ⟨n.length_positions, fun k h h' => ?_⟩
  rw [List.get_eq_getElem, List.get_eq_getElem, getElem_positions]
  exact ⟨child_raw few h', List.getElem_mem h'⟩

/-- The slots in use hold the children, which are numbered by them. -/
theorem forall₂_positions_zipIdx (few : n.children.length ≤ 16) :
    List.Forall₂ (fun (k : Nat) (p : Nat × Nat) =>
        k = p.2 ∧ n.raw.child k = pure (p.1 : Int) ∧ p.1 ∈ n.children)
      n.raw.positions n.children.zipIdx := by
  rw [List.forall₂_iff_get]
  refine ⟨by rw [length_positions, List.length_zipIdx], fun k h h' => ?_⟩
  have inside : k < n.children.length := by rwa [List.length_zipIdx] at h'
  rw [List.get_eq_getElem, List.get_eq_getElem, getElem_positions, List.getElem_zipIdx,
    Nat.zero_add]
  exact ⟨rfl, child_raw few inside, List.getElem_mem inside⟩

/-- The slots in use of one node hold its children, and those of another one are in use there. -/
theorem forall₂_positions_zip (few : n.children.length ≤ 16) (other : m.children.length ≤ 16)
    (enough : n.children.length ≤ m.children.length) :
    List.Forall₂ (fun (k : Nat) (p : Nat × Nat) =>
        n.raw.child k = pure (p.1 : Int) ∧ m.raw.child k = pure (p.2 : Int) ∧
          p ∈ n.children.zip m.children)
      n.raw.positions (n.children.zip m.children) := by
  rw [List.forall₂_iff_get]
  refine ⟨?_, fun k h h' => ?_⟩
  · rw [length_positions, List.length_zip, Nat.min_eq_left enough]
  · have inside := h'
    rw [List.length_zip, Nat.min_eq_left enough] at inside
    rw [List.get_eq_getElem, List.get_eq_getElem, getElem_positions]
    refine ⟨?_, ?_, List.getElem_mem h'⟩
    · rw [List.getElem_zip]
      exact child_raw few inside
    · rw [List.getElem_zip]
      exact child_raw other (Nat.lt_of_lt_of_le inside enough)

/-- The first slot holds the first child. -/
theorem child_zero_raw (few : n.children.length ≤ 16) {c : { c // c ∈ n.children }}
    (first : n.children.attach.head? = some c) : n.raw.child 0 = pure (c.1 : Int) := by
  obtain ⟨rest, cells⟩ := List.head?_eq_some_iff.1 first
  have children := List.attach_map_subtype_val n.children
  rw [cells, List.map_cons] at children
  have given : 0 < n.children.length := List.length_pos_of_mem c.2
  rw [child_raw few given, List.getElem_of_eq children.symm given]
  rfl

/-- Going through the slots in use is going through the children. -/
theorem foldlM_raw {σ : Type} (few : n.children.length ≤ 16) (f : σ → Int → Checked σ) (s : σ) :
    n.raw.positions.foldlM (fun s k => do f s (← n.raw.child k)) s =
      n.children.foldlM (fun s (c : Nat) => f s c) s :=
  foldlM_congr ((forall₂_positions few).imp fun _ _ known _ => by rw [known.1, pure_bind]) s

end Node

namespace Arena

variable {cap : Nat} {a : Arena cap}

/-- No node has more children than there are slots for. -/
def Narrow (a : Arena cap) : Prop := ∀ i, (a.node i).children.length ≤ 16

theorem lt_size_of_mem {i c : Nat} (hi : i < a.size) (hc : c ∈ (a.node i).children) : c < a.size :=
  Nat.lt_trans (a.child_lt hc) hi

theorem size_nodes_raw (a : Arena cap) : a.raw.nodes.size = a.size := Array.size_map ..

theorem read_raw {i : Nat} (h : i < a.size) : a.raw.read i = pure (a.node i).raw := by
  rw [RawArena.read, if_pos (Int.natCast_nonneg i), Int.toNat_natCast, raw, Array.getElem?_map,
    Array.getElem?_eq_getElem h, a.node_eq h]
  rfl

end Arena

end StructuralTypes
