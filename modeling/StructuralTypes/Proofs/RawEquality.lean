import StructuralTypes.Proofs.RawStorage

/-!
# Equality in raw storage

Two nodes are compared by their heads, the numbers of their children and the children. Where the
children form a set, those on the right that have found a partner are marked, in a row of sixteen
marks. The comparison comes to its end in bounds, with the answer that is known for the types.
-/

namespace StructuralTypes

namespace RawArena

/-- Compare two nodes and what is below them. -/
def equal (s t : RawArena) (i j : Int) : Checked Bool := do
  let a ← s.read i
  let b ← t.read j
  if a.head ≠ b.head then return false
  if a.used ≠ b.used then return false
  if a.head.tag.unordered then
    -- A child without a partner ends the search, as the missing row says.
    let marks ← a.positions.foldlM (fun (marks : Option (Row Bool)) k =>
      match marks with
      | none => return none
      | some used => do
        match ← b.positions.findM? fun l => do
            if ← used.read l then return false else s |>.equal t (← a.child k) (← b.child l) with
        | none => return none
        | some l => some <$> used.write l true) (some (.replicate 16 false))
    return marks.isSome
  else a.positions.allM fun k => do s |>.equal t (← a.child k) (← b.child k)
partial_fixpoint

end RawArena

namespace Arena

section Matching

/-- The elements that are not marked as used, when the first one has position `k`. -/
def unmarked (used : Nat → Bool) (k : Nat) : List Nat → List Nat
  | [] => []
  | d :: ds => if used k then unmarked used (k + 1) ds else d :: unmarked used (k + 1) ds

theorem unmarked_congr {used used' : Nat → Bool} {k : Nat} {ds : List Nat}
    (same : ∀ l, k ≤ l → used l = used' l) : unmarked used k ds = unmarked used' k ds := by
  induction ds generalizing k with
  | nil => rfl
  | cons d ds ih =>
      rw [unmarked, unmarked, same k (Nat.le_refl k), ih fun l h => same l (Nat.le_of_succ_le h)]

/-- Going through the unmarked elements finds the one that is removed from their list. -/
theorem exists_findM?_eq {used : Nat → Bool} {p : Nat → Bool} {f : Nat → Checked Bool}
    (ds : List Nat) (k : Nat)
    (each : ∀ l (h : l < ds.length), f (k + l) = pure (!used (k + l) && p ds[l])) :
    ∃ found, (List.range' k ds.length).findM? f = pure found ∧
      (∀ l ∈ found, k ≤ l ∧ l < k + ds.length) ∧
      removeFirst? p (unmarked used k ds) =
        found.map fun l => unmarked (fun m => m == l || used m) k ds := by
  induction ds generalizing k with
  | nil => exact ⟨none, rfl, nofun, rfl⟩
  | cons d ds ih =>
      have first : f k = pure (!used k && p d) := each 0 (Nat.zero_lt_succ _)
      obtain ⟨found, search, within, removed⟩ := ih (k + 1) fun l h => by
        rw [Nat.succ_add_eq_add_succ]
        exact each (l + 1) (Nat.succ_lt_succ h)
      have later : ∀ l ∈ found, k ≤ l ∧ l < k + (d :: ds).length := fun l hl => by
        have := within l hl
        rw [List.length_cons]
        omega
      rw [List.length_cons, List.range'_succ, List.findM?, first, pure_bind, unmarked]
      cases taken : used k with
      | true =>
          refine ⟨found, search, later, ?_⟩
          rw [if_pos rfl, removed]
          refine congrArg (Option.map · found) (funext fun l => ?_)
          rw [unmarked, taken, Bool.or_true, if_pos rfl]
      | false =>
          rw [if_neg Bool.false_ne_true, removeFirst?]
          cases matched : p d with
          | true =>
              refine ⟨some k, rfl, ?_, ?_⟩
              · rintro _ ⟨⟩
                exact ⟨Nat.le_refl k, Nat.lt_add_of_pos_right (Nat.zero_lt_succ _)⟩
              · rw [if_pos rfl, Option.map_some, unmarked, beq_self_eq_true, Bool.true_or,
                  if_pos rfl]
                refine congrArg some (unmarked_congr fun l after => ?_)
                rw [beq_false_of_ne (Nat.ne_of_gt after), Bool.false_or]
          | false =>
              refine ⟨found, search, later, ?_⟩
              rw [if_neg Bool.false_ne_true, removed]
              cases found with
              | none => rfl
              | some l =>
                  have after : k ≠ l := Nat.ne_of_lt (within l rfl).1
                  rw [Option.map_some, Option.map_some, Option.map_some, unmarked,
                    beq_false_of_ne after, taken, Bool.false_or, if_neg Bool.false_ne_true]

end Matching

section Equality

variable {m n : Nat} {a : Arena m} {b : Arena n}

/-- The marks of the row. Behind its end everything counts as used. -/
def marks (row : Row Bool) (l : Nat) : Bool := row[l]?.getD true

/-- Look for a partner of the child in slot `k`, and mark it. -/
def mark (positions : List Nat) (f : Nat → Nat → Checked Bool) (row : Option (Row Bool)) (k : Nat) :
    Checked (Option (Row Bool)) :=
  match row with
  | none => return none
  | some used => do
    match ← positions.findM? fun l => do if ← used.read l then return false else f k l with
    | none => return none
    | some l => some <$> used.write l true

/-- What is left when the marks are taken into account. -/
def left (ds : List Nat) (row : Row Bool) : List Nat := unmarked (marks row) 0 ds

/-- Marking a partner takes it off the list of those that are left. -/
theorem mark_eq {ds : List Nat} (few : ds.length ≤ 16) {f : Nat → Nat → Checked Bool} {k : Nat}
    {p : Nat → Bool} (each : ∀ l (h : l < ds.length), f k l = pure (p ds[l]))
    (row : Option (Row Bool)) :
    ∃ next, mark (List.range ds.length) f row k = pure next ∧
      next.map (left ds) = (row.map (left ds)).bind (removeFirst? p) := by
  cases row with
  | none => exact ⟨none, rfl, rfl⟩
  | some used =>
      let test l := used.read l >>= fun taken => if taken then pure false else f k l
      have tests l (h : l < ds.length) :
          test (0 + l) = pure (!marks used (0 + l) && p ds[l]) := by
        have inside : l < 16 := Nat.lt_of_lt_of_le h few
        simp only [test]
        rw [Nat.zero_add, Row.read, marks, Vector.getElem?_eq_getElem inside, Checked.within_some,
          pure_bind, Option.getD_some, each l h]
        cases used[l] <;> rfl
      obtain ⟨found, search, within, removed⟩ := exists_findM?_eq (f := test) ds 0 tests
      rw [mark, List.range_eq_range', search, pure_bind, Option.map_some, Option.bind_some, left,
        removed]
      cases found with
      | none => exact ⟨none, rfl, rfl⟩
      | some l =>
          have inside : l < 16 := by
            have := (within l rfl).2
            omega
          refine ⟨some (used.set l true), congrArg (some <$> ·) (Row.write_eq inside true), ?_⟩
          rw [Option.map_some, Option.map_some, left]
          refine congrArg some (unmarked_congr fun m _ => ?_)
          rw [marks, marks, Vector.getElem?_set]
          rcases eq_or_ne l m with rfl | other
          · simp [inside]
          · simp [other, other.symm]

/-- The children of one node find partners in the row of marks as they do on the list of those that
are left. -/
theorem foldlM_mark_eq {ds : List Nat} (few : ds.length ≤ 16) {f : Nat → Nat → Checked Bool}
    {g : Nat → Nat → Bool} {ks cs : List Nat}
    (each : List.Forall₂ (fun k c => ∀ l (h : l < ds.length), f k l = pure (g c ds[l])) ks cs)
    (row : Option (Row Bool)) :
    ∃ last, ks.foldlM (mark (List.range ds.length) f) row = pure last ∧
      last.map (left ds) = (row.map (left ds)).bind fun free =>
        cs.foldlM (fun free c => removeFirst? (g c) free) free := by
  induction each generalizing row with
  | nil => exact ⟨row, rfl, by simp [List.foldlM_nil]⟩
  | cons first _ ih =>
      obtain ⟨next, step, removed⟩ := mark_eq few first row
      obtain ⟨last, rest, free⟩ := ih next
      refine ⟨last, by rw [List.foldlM_cons, step, pure_bind, rest], ?_⟩
      rw [free, removed, Option.bind_assoc]
      rfl

theorem left_unmarked {ds : List Nat} (few : ds.length ≤ 16) :
    left ds (.replicate 16 false) = ds := by
  suffices all : ∀ k, k + ds.length ≤ 16 →
      unmarked (marks (.replicate 16 false)) k ds = ds from all 0 (by omega)
  clear few
  induction ds with
  | nil => exact fun _ _ => rfl
  | cons d ds ih =>
      intro k few
      rw [List.length_cons] at few
      have free : marks (.replicate 16 false) k = false := by
        rw [marks, Vector.getElem?_replicate, if_pos (by omega), Option.getD_some]
      rw [unmarked, free, if_neg Bool.false_ne_true, ih (k + 1) (by omega)]

/-- Where the children come from does not matter for what is compared. -/
theorem equalAt_eq (i j : Nat) :
    a.equalAt b i j = ((a.node i).head == (b.node j).head &&
      (a.node i).children.length == (b.node j).children.length &&
        if (a.node i).head.tag.unordered then
          ((a.node i).children.foldlM (fun rest c => removeFirst? (a.equalAt b c) rest)
            (b.node j).children).isSome
        else ((a.node i).children.zip (b.node j).children).all fun p => a.equalAt b p.1 p.2) := by
  have search : ((a.node i).children.attach.map Subtype.val).foldlM
      (fun rest c => removeFirst? (a.equalAt b c) rest) (b.node j).children =
        (a.node i).children.attach.foldlM (fun rest c => removeFirst? (a.equalAt b c.1) rest)
          (b.node j).children := List.foldlM_map
  have pairs : ((a.node i).children.attach.map Subtype.val).zip (b.node j).children =
      ((a.node i).children.attach.zip (b.node j).children).map (Prod.map Subtype.val id) :=
    List.zip_map_left
  rw [List.attach_map_subtype_val] at search pairs
  rw [equalAt, search, pairs, List.all_map]
  rfl

section Children

variable {i j : Nat} (ha : a.Narrow) (hb : b.Narrow)
  (child : ∀ c ∈ (a.node i).children, ∀ d ∈ (b.node j).children,
    a.raw.equal b.raw c d = pure (a.equalAt b c d))

include ha hb child

/-- In any order, each child finds a partner in the row of marks as it does on the list. -/
theorem equal_unordered_raw :
    (do
      let marks ← (a.node i).raw.positions.foldlM (mark (b.node j).raw.positions fun k l => do
        a.raw.equal b.raw (← (a.node i).raw.child k) (← (b.node j).raw.child l))
        (some (.replicate 16 false))
      return marks.isSome) =
      (pure ((a.node i).children.foldlM (fun rest c => removeFirst? (a.equalAt b c) rest)
        (b.node j).children).isSome : Checked Bool) := by
  have partners : List.Forall₂ (fun k c => ∀ l (h : l < (b.node j).children.length),
      (do a.raw.equal b.raw (← (a.node i).raw.child k) (← (b.node j).raw.child l)) =
        (pure (a.equalAt b c (b.node j).children[l]) : Checked Bool))
      (a.node i).raw.positions (a.node i).children := by
    refine (Node.forall₂_positions (ha i)).imp fun k c known l h => ?_
    rw [known.1, pure_bind, Node.child_raw (hb j) h, pure_bind]
    exact child c known.2 _ (List.getElem_mem h)
  obtain ⟨last, search, free⟩ := foldlM_mark_eq (hb j) partners (some (.replicate 16 false))
  have answer : last.isSome =
      ((a.node i).children.foldlM (fun rest c => removeFirst? (a.equalAt b c) rest)
        (b.node j).children).isSome := by
    rw [← Option.isSome_map, free, Option.map_some, Option.bind_some, left_unmarked (hb j)]
  exact (congrArg (fun run => run >>= fun marks => pure marks.isSome) search).trans
    (congrArg pure answer)

/-- In order, each child is compared with the one in the same slot. -/
theorem equal_ordered_raw
    (enough : (a.node i).children.length ≤ (b.node j).children.length) :
    ((a.node i).raw.positions.allM fun k => do
      a.raw.equal b.raw (← (a.node i).raw.child k) (← (b.node j).raw.child k)) =
      (pure (((a.node i).children.zip (b.node j).children).all fun p => a.equalAt b p.1 p.2) :
        Checked Bool) := by
  have pairs : List.Forall₂ (fun (k : Nat) (p : Nat × Nat) =>
      (do a.raw.equal b.raw (← (a.node i).raw.child k) (← (b.node j).raw.child k)) =
        (pure (a.equalAt b p.1 p.2) : Checked Bool))
      (a.node i).raw.positions ((a.node i).children.zip (b.node j).children) := by
    refine (Node.forall₂_positions_zip (ha i) (hb j) enough).imp fun k p known => ?_
    rw [known.1, pure_bind, known.2.1, pure_bind]
    exact child _ (List.of_mem_zip known.2.2).1 _ (List.of_mem_zip known.2.2).2
  rw [allM_congr pairs, List.allM_pure]

end Children

/-- Two nodes in memory are compared as they are in the arena. -/
theorem equal_raw (ha : a.Narrow) (hb : b.Narrow) {i j : Nat} (hi : i < a.size) (hj : j < b.size) :
    a.raw.equal b.raw i j = pure (a.equalAt b i j) := by
  induction i using Nat.strongRecOn generalizing j with
  | _ i ih =>
    have child : ∀ c ∈ (a.node i).children, ∀ d ∈ (b.node j).children,
        a.raw.equal b.raw c d = pure (a.equalAt b c d) := by
      intro c hc d hd
      have earlier := a.child_lt hc
      have earlier' := b.child_lt hd
      exact ih c earlier (by omega) (by omega)
    rw [RawArena.equal, equalAt_eq, read_raw hi, read_raw hj, pure_bind, pure_bind]
    change (if (a.node i).head ≠ (b.node j).head then pure false
      else if (a.node i).children.length ≠ (b.node j).children.length then pure false
      else if (a.node i).head.tag.unordered then _ else _) = _
    split
    · next different =>
      rw [beq_false_of_ne different]
      rfl
    split
    · next different =>
      rw [beq_false_of_ne different, Bool.and_false]
      rfl
    next heads lengths =>
    rw [beq_iff_eq.2 (not_not.1 heads), beq_iff_eq.2 (not_not.1 lengths), Bool.true_and,
      Bool.true_and]
    split
    · exact equal_unordered_raw ha hb child
    · exact equal_ordered_raw ha hb child (Nat.le_of_eq (not_not.1 lengths))

end Equality

end Arena

end StructuralTypes
