import Mathlib.Data.Finset.Card
import StructuralTypes.Descriptor.Shape
import StructuralTypes.Proofs.KeySetAlgebra
import StructuralTypes.Proofs.ShapeNormalForm

/-!
# Key sets as finite sets

A key set is filled like a row: keys come in from the left, one by one, and only the check before
each of them keeps the row short and free of repetitions. The rows that the operations leave behind
are exactly those of key sets, and the operations on key sets do what the rows do. Seen as finite
sets of texts, key sets have the union, the intersection and the difference that sets have, as long
as at most 16 keys come together.
-/

namespace StructuralTypes

/-- Keys in a row. A row as such promises nothing about them. -/
abbrev KeyRow := List Text

namespace KeyRow

/-- Put a key behind the others, unless it is there. -/
def insert (row : KeyRow) (key : Text) : Except Fault KeyRow :=
  if key ∈ row then .ok row
  else if 16 ≤ row.length then .error .keySetFull
  else if 32 ≤ key.length then .error .keyTooLong
  else .ok (row ++ [key])

/-- Put in some keys, one after the other. -/
def insertAll (row : KeyRow) (keys : List Text) : Except Fault KeyRow := keys.foldlM insert row

/-- Put the keys that pass a test into a row of their own. -/
def select (row : KeyRow) (test : Text → Except Fault Bool) : Except Fault KeyRow :=
  row.foldlM (fun found key => do if ← test key then found.insert key else return found) []

/-- The rows that finitely many operations leave behind, from the empty one on. -/
inductive Reachable : KeyRow → Prop
  | empty : Reachable []
  | insert {row row' : KeyRow} {key : Text} (h : Reachable row)
      (made : row.insert key = .ok row') : Reachable row'
  | ofList {row : KeyRow} {keys : List Text} (made : insertAll [] keys = .ok row) : Reachable row
  | union {a b row : KeyRow} (left : Reachable a) (right : Reachable b)
      (made : a.insertAll b = .ok row) : Reachable row
  | inter {a b row : KeyRow} (left : Reachable a) (right : Reachable b)
      (made : a.select (fun key => .ok (key ∈ b)) = .ok row) : Reachable row
  | diff {a b row : KeyRow} (left : Reachable a) (right : Reachable b)
      (made : a.select (fun key => .ok (key ∉ b)) = .ok row) : Reachable row
  | keys {t : Tree} {row : KeyRow} (object : t.isKind .object = true)
      (made : insertAll [] (t.names.map Name.text) = .ok row) : Reachable row
  | classified {row found : KeyRow} {test : Text → Except Fault Bool} (h : Reachable row)
      (made : row.select test = .ok found) : Reachable found

end KeyRow

namespace KeySet

/-- The row of the keys. -/
def row (s : KeySet) : KeyRow := s.keys.map Name.text

/-- The finite set that the key set stands for. -/
def members (s : KeySet) : Finset Text := s.row.toFinset

section Rows

variable {s a b : KeySet}

theorem text_injective : Function.Injective Name.text := fun _ _ => Name.ext

theorem mem_row {k : Name} : k.text ∈ s.row ↔ k ∈ s.keys :=
  List.mem_map_of_injective text_injective

theorem mem_row_iff {key : Text} : key ∈ s.row ↔ s.contains key = true := by
  rw [contains_iff, row, List.mem_map]

theorem decide_mem_row (key : Text) : decide (key ∈ s.row) = s.contains key := by
  rw [Bool.eq_iff_iff, decide_eq_true_iff, mem_row_iff]

theorem length_row : s.row.length = s.size := List.length_map _

theorem nodup_row : s.row.Nodup := s.distinct.map text_injective

theorem length_row_le : s.row.length ≤ 16 := length_row.trans_le s.bounded

theorem length_le_of_mem_row {key : Text} (h : key ∈ s.row) : key.length ≤ 31 := by
  obtain ⟨k, -, rfl⟩ := List.mem_map.1 h
  exact Nat.le_of_lt_succ k.fits

@[simp] theorem mem_members {key : Text} : key ∈ s.members ↔ key ∈ s.row := List.mem_toFinset

theorem card_members : s.members.card = s.size := by
  rw [members, List.toFinset_card_of_nodup nodup_row, length_row]

/-- A key set is the set of the keys of its row. -/
theorem ofList_row : ofList s.row = .ok s := by
  obtain ⟨s', inserted, keys⟩ := exists_ofList s.distinct s.bounded
  rw [row, inserted, KeySet.ext keys]

end Rows

section Operations

variable {s a b : KeySet}

theorem insert_of_mem_row {key : Text} (present : key ∈ a.row) : a.insert key = .ok a := by
  obtain ⟨k, hk, rfl⟩ := List.mem_map.1 present
  exact insert_of_mem hk

/-- What inserting a key does: a key that is there changes nothing, and a new one is put behind the
others if there is room for it, first in the set and then in a name. -/
theorem insert_cases (s : KeySet) (key : Text) :
    key ∈ s.row ∧ s.insert key = .ok s ∨
    key ∉ s.row ∧ s.size = 16 ∧ s.insert key = .error .keySetFull ∨
    key ∉ s.row ∧ s.size < 16 ∧ 31 < key.length ∧ s.insert key = .error .keyTooLong ∨
    key ∉ s.row ∧ s.size < 16 ∧ key.length ≤ 31 ∧
      ∃ s', s.insert key = .ok s' ∧ s'.row = s.row ++ [key] := by
  by_cases present : key ∈ s.row
  · exact .inl ⟨present, insert_of_mem_row present⟩
  · have missing : s.contains key = false := Bool.eq_false_iff.2 (mem_row_iff.not.1 present)
    have few : s.size ≤ 16 := s.bounded
    simp only [present, false_and, not_false_eq_true, true_and, false_or, insert, dif_pos missing]
    by_cases room : s.keys.length < 16
    · rw [dif_pos room]
      by_cases short : key.length < 32
      · rw [dif_pos short]
        exact .inr (.inr ⟨room, Nat.le_of_lt_succ short, _, rfl, List.map_append⟩)
      · rw [dif_neg short]
        exact .inr (.inl ⟨room, Nat.not_lt.1 short, rfl⟩)
    · rw [dif_neg room]
      exact .inl ⟨few.antisymm (Nat.not_lt.1 room), rfl⟩

/-- Inserting into a key set is inserting into its row. -/
theorem insert_row (key : Text) : s.row.insert key = row <$> s.insert key := by
  rw [KeyRow.insert, length_row]
  rcases insert_cases s key with ⟨present, kept⟩ | ⟨absent, full, failed⟩ |
    ⟨absent, room, long, failed⟩ | ⟨absent, room, short, s', added, keys⟩
  · rw [if_pos present, kept]
    rfl
  · rw [if_neg absent, if_pos full.ge, failed]
    rfl
  · rw [if_neg absent, if_neg (Nat.not_le.2 room), if_pos (Nat.succ_le_of_lt long), failed]
    rfl
  · rw [if_neg absent, if_neg (Nat.not_le.2 room), if_neg (by omega), added, ← keys]
    rfl

/-- Inserting some keys into a key set is inserting them into its row. -/
theorem insertAll_row (keys : List Text) :
    s.row.insertAll keys = row <$> keys.foldlM KeySet.insert s := by
  induction keys generalizing s with
  | nil => rfl
  | cons key keys ih =>
      rw [KeyRow.insertAll, List.foldlM_cons, List.foldlM_cons, insert_row]
      cases s.insert key with
      | error fault => rfl
      | ok s' => exact ih

theorem union_row : a.row.insertAll b.row = row <$> a.union b := insertAll_row b.row

/-- Selecting goes on from the keys that were kept before, which are the row so far, in reverse. -/
theorem foldlM_select (test : Text → Except Fault Bool) (rest kept : List Name) (found : KeySet)
    (keys : found.keys = kept.reverse) (distinct : (kept.reverse ++ rest).Nodup)
    (few : (kept.reverse ++ rest).length ≤ 16) :
    (rest.map Name.text).foldlM (fun (found : KeyRow) key => do
        if ← test key then found.insert key else return found) found.row =
      row <$> (do
        ofList ((← rest.filterAuxM (fun k => test k.text) kept).reverse.map Name.text)) := by
  induction rest generalizing kept found with
  | nil =>
      change Except.ok found.row = row <$> ofList (kept.reverse.map Name.text)
      rw [← keys]
      exact (congrArg (row <$> ·) ofList_row).symm
  | cons k rest ih =>
      rw [List.map_cons, List.foldlM_cons, List.filterAuxM]
      cases test k.text with
      | error fault => rfl
      | ok pass =>
          cases pass with
          | false =>
              have fewer : (kept.reverse ++ rest).Sublist (kept.reverse ++ k :: rest) :=
                (List.sublist_cons_self k rest).append_left _
              exact ih _ _ keys (distinct.sublist fewer) (fewer.length_le.trans few)
          | true =>
              have absent : k ∉ found.keys := fun known =>
                (List.nodup_append.1 distinct).2.2 k (keys ▸ known) k List.mem_cons_self rfl
              have room : found.keys.length < 16 := by
                rw [keys]
                simp only [List.length_append, List.length_cons] at few
                omega
              obtain ⟨found', inserted, keys'⟩ := exists_insert absent room
              rw [List.append_cons, ← List.reverse_cons] at distinct few
              have next : found'.keys = (k :: kept).reverse := by
                rw [keys', keys, List.reverse_cons]
              change (found.row.insert k.text >>= _) = _
              rw [insert_row, inserted]
              exact ih _ _ next distinct few

/-- Selecting keys one by one from a row without repetitions never meets a key that is there, or a
row that is full. So it is selecting them first and making a set of them. -/
theorem select_row (test : Text → Except Fault Bool) :
    s.row.select test =
      row <$> (do ofList ((← s.keys.filterM fun k => test k.text).map Name.text)) := by
  have whole := foldlM_select test s.keys [] empty rfl s.distinct s.bounded
  rw [List.filterM, bind_assoc]
  exact whole

/-- A test that always answers selects a part of the row. -/
theorem select_row_eq_ok {test : Text → Except Fault Bool} {p : Name → Bool}
    (answers : ∀ k ∈ s.keys, test k.text = .ok (p k)) :
    s.row.select test = .ok (s.filter p).row := by
  rw [select_row, filterM_eq_ok answers]
  exact congrArg (row <$> ·) (ofList_row (s := s.filter p))

theorem inter_row : a.row.select (fun key => .ok (key ∈ b.row)) = .ok (a.inter b).row :=
  select_row_eq_ok fun k _ => by rw [decide_mem_row]

theorem diff_row : a.row.select (fun key => .ok (key ∉ b.row)) = .ok (a.diff b).row :=
  select_row_eq_ok fun k _ => by rw [decide_not, decide_mem_row]

end Operations

section Specifications

variable {a b all : KeySet}

theorem row_of_insert {s : KeySet} {key : Text} (made : a.insert key = .ok s)
    (absent : key ∉ a.row) : s.row = a.row ++ [key] := by
  rcases insert_cases a key with ⟨present, -⟩ | ⟨-, -, failed⟩ | ⟨-, -, -, failed⟩ |
    ⟨-, -, -, s', added, keys⟩
  · exact absurd present absent
  · cases made.symm.trans failed
  · cases made.symm.trans failed
  · obtain rfl := Except.ok.inj (made.symm.trans added)
    exact keys

/-- A key is refused when it is new and there is no room for it. -/
theorem insert_eq_error_iff {key : Text} {fault : Fault} :
    a.insert key = .error fault ↔
      key ∉ a.row ∧ (a.size = 16 ∧ fault = .keySetFull ∨
        a.size < 16 ∧ 31 < key.length ∧ fault = .keyTooLong) := by
  rcases insert_cases a key with ⟨present, kept⟩ | ⟨absent, full, failed⟩ |
    ⟨absent, room, long, failed⟩ | ⟨absent, room, short, s, added, -⟩
  · simp [present, kept]
  · simp [absent, full, failed, eq_comm]
  · simp [absent, room, room.ne, long, failed, eq_comm]
  · simp [absent, room, room.ne, short, added]

theorem row_filter_new : (b.keys.filter (· ∉ a.keys)).map Name.text = b.row.filter (· ∉ a.row) := by
  rw [row.eq_def b, List.filter_map]
  refine congrArg _ (List.filter_congr fun k _ => ?_)
  rw [Function.comp_apply, decide_eq_decide, mem_row]

/-- The keys that come together in a union. -/
theorem card_union :
    (a.members ∪ b.members).card = (a.keys ++ b.keys.filter (· ∉ a.keys)).length := by
  have distinct : (a.keys ++ b.keys.filter (· ∉ a.keys)).Nodup := by
    refine List.nodup_append.2 ⟨a.distinct, b.distinct.filter _, ?_⟩
    rintro k hk _ hb rfl
    exact absurd hk (by simpa using (List.mem_filter.1 hb).2)
  have listed : a.members ∪ b.members =
      ((a.keys ++ b.keys.filter (· ∉ a.keys)).map Name.text).toFinset := by
    ext key
    rw [List.map_append, row_filter_new]
    simp only [Finset.mem_union, mem_members, List.mem_toFinset, List.mem_append, List.mem_filter,
      decide_eq_true_eq]
    change _ ↔ key ∈ a.row ∨ _
    tauto
  rw [listed, List.toFinset_card_of_nodup (distinct.map text_injective), List.length_map]

theorem row_of_union {u : KeySet} (made : a.union b = .ok u) :
    u.row = a.row ++ b.row.filter (· ∉ a.row) := by
  rcases Nat.lt_or_ge 16 (a.keys ++ b.keys.filter (· ∉ a.keys)).length with many | room
  · rw [union, foldlM_insert_full b.distinct many] at made
    cases made
  · obtain ⟨u', made', keys⟩ := exists_union room
    obtain rfl := Except.ok.inj (made.symm.trans made')
    rw [row, keys, List.map_append, row_filter_new]
    rfl

theorem union_eq_error_iff {fault : Fault} :
    a.union b = .error fault ↔ 16 < (a.members ∪ b.members).card ∧ fault = .keySetFull := by
  rw [card_union]
  rcases Nat.lt_or_ge 16 (a.keys ++ b.keys.filter (· ∉ a.keys)).length with many | room
  · rw [union, foldlM_insert_full b.distinct many, and_iff_right many, Except.error.injEq, eq_comm]
  · obtain ⟨u, made, -⟩ := exists_union room
    rw [made]
    exact ⟨nofun, fun failed => absurd failed.1 (Nat.not_lt.2 room)⟩

theorem members_union {u : KeySet} (made : a.union b = .ok u) :
    u.members = a.members ∪ b.members := by
  ext key
  rw [mem_members, row_of_union made]
  simp only [Finset.mem_union, mem_members, List.mem_append, List.mem_filter, decide_eq_true_eq]
  tauto

theorem row_filter {p : Name → Bool} {q : Text → Bool} (same : ∀ k ∈ a.keys, p k = q k.text) :
    (a.filter p).row = a.row.filter q := by
  rw [row, filter, row, List.filter_map]
  exact congrArg _ (List.filter_congr same)

theorem row_inter : (a.inter b).row = a.row.filter (· ∈ b.row) :=
  row_filter fun k _ => (decide_mem_row k.text).symm

theorem row_diff : (a.diff b).row = a.row.filter (· ∉ b.row) :=
  row_filter fun k _ => by rw [decide_not, decide_mem_row]

theorem members_eq_iff : a.members = b.members ↔ ∀ k, k ∈ a.keys ↔ k ∈ b.keys := by
  constructor
  · intro same k
    rw [← mem_row, ← mem_row, ← mem_members, ← mem_members, same]
  · intro same
    ext key
    simp only [mem_members, row, List.mem_map, same]

/-- Comparing the numbers of keys and one inclusion is enough where no key is repeated. -/
theorem same_iff : a.same b = true ↔ a.members = b.members := by
  constructor
  · intro same
    rw [KeySet.same, Bool.and_eq_true, beq_iff_eq, List.all_eq_true] at same
    obtain ⟨sizes, inside⟩ := same
    apply Finset.eq_of_subset_of_card_le
    · intro key hkey
      obtain ⟨k, hk, rfl⟩ := List.mem_map.1 (mem_members.1 hkey)
      exact mem_members.2 (mem_row_iff.2 (inside k hk))
    · rw [card_members, card_members, sizes]
  · exact fun same => same_of_mem_iff (members_eq_iff.1 same)

theorem disjoint_iff : a.disjoint b = true ↔ Disjoint a.members b.members := by
  rw [disjoint, isEmpty, List.isEmpty_iff, inter, filter, List.filter_eq_nil_iff,
    Finset.disjoint_left]
  constructor
  · intro apart key left right
    obtain ⟨k, hk, rfl⟩ := List.mem_map.1 (mem_members.1 left)
    exact apart k hk (mem_row_iff.1 (mem_members.1 right))
  · intro apart k hk shared
    exact apart (mem_members.2 (mem_row.2 hk)) (mem_members.2 (mem_row_iff.2 shared))

theorem partitions_eq_error_iff {fault : Fault} :
    all.partitions a b = .error fault ↔
      Disjoint a.members b.members ∧ 16 < a.members.card + b.members.card ∧
        fault = .keySetFull := by
  rw [partitions, ← disjoint_iff]
  split
  · next apart =>
    have cards := Finset.card_union_of_disjoint (disjoint_iff.1 apart)
    rw [and_iff_right apart, ← cards, ← union_eq_error_iff]
    cases a.union b <;> simp
  · next shared => simp [shared]

theorem partitions_iff {answer : Bool} (made : all.partitions a b = .ok answer) :
    answer = true ↔ Disjoint a.members b.members ∧ all.members = a.members ∪ b.members := by
  rw [partitions] at made
  split at made
  · next apart =>
    obtain ⟨u, united, rfl⟩ := map_eq_ok made
    rw [same_iff, members_union united, and_iff_right (disjoint_iff.1 apart), eq_comm]
  · next shared =>
    cases made
    exact ⟨nofun, fun split => absurd (disjoint_iff.2 split.1) shared⟩

end Specifications

end KeySet

namespace KeyRow

/-- Every row that the operations leave behind is the row of a key set. -/
theorem Reachable.exists_keySet {row : KeyRow} (h : Reachable row) : ∃ s : KeySet, s.row = row := by
  induction h with
  | empty => exact ⟨.empty, rfl⟩
  | insert _ made ih =>
      obtain ⟨s, rfl⟩ := ih
      obtain ⟨s', -, same⟩ := map_eq_ok ((KeySet.insert_row _).symm.trans made)
      exact ⟨s', same⟩
  | ofList made | keys _ made =>
      obtain ⟨s, -, same⟩ := map_eq_ok ((KeySet.insertAll_row (s := .empty) _).symm.trans made)
      exact ⟨s, same⟩
  | union _ _ made left right =>
      obtain ⟨a, rfl⟩ := left
      obtain ⟨b, rfl⟩ := right
      obtain ⟨s, -, same⟩ := map_eq_ok (KeySet.union_row.symm.trans made)
      exact ⟨s, same⟩
  | inter _ _ made left _ | diff _ _ made left _ | classified _ made left =>
      obtain ⟨a, rfl⟩ := left
      obtain ⟨s, -, same⟩ := map_eq_ok ((KeySet.select_row _).symm.trans made)
      exact ⟨s, same⟩

/-- The row of a key set is left behind when its keys are put into the empty row. -/
theorem reachable_row (s : KeySet) : Reachable s.row := by
  have made : insertAll [] s.row = .ok s.row :=
    (KeySet.insertAll_row (s := .empty) s.row).trans (congrArg _ KeySet.ofList_row)
  exact .ofList made

end KeyRow

/-- The extractors go through the keys of a shape and put those that pass into a row. -/
theorem Descriptor.row_selectKeys {cap : Nat} (d : Descriptor cap)
    (test : Text → Except Fault Bool) :
    KeySet.row <$> d.selectKeys test = (do (← KeySet.row <$> d.tree.keys).select test) := by
  rw [selectKeys]
  cases d.tree.keys with
  | error fault => rfl
  | ok all => exact (KeySet.select_row test).symm

namespace KeySet

/-- Inserting is adding an element to a finite set that has room for it. -/
structure InsertsInto (a : KeySet) (key : Text) : Prop where
  filled : a.row.insert key = row <$> a.insert key
  present : key ∈ a.members → a.insert key = .ok a
  refused : ∀ fault, a.insert key = .error fault ↔
    key ∉ a.members ∧ (a.members.card = 16 ∧ fault = .keySetFull ∨
      a.members.card < 16 ∧ 31 < key.length ∧ fault = .keyTooLong)
  added : ∀ s, a.insert key = .ok s → key ∉ a.members → s.row = a.row ++ [key]

/-- Two key sets are combined and compared as finite sets are, and the keys keep their order. -/
structure CombinesWith (a b : KeySet) : Prop where
  united : a.row.insertAll b.row = row <$> a.union b
  refused : ∀ fault, a.union b = .error fault ↔
    16 < (a.members ∪ b.members).card ∧ fault = .keySetFull
  listed : ∀ u, a.union b = .ok u → u.row = a.row ++ b.row.filter (· ∉ a.row)
  shared : a.row.select (fun key => .ok (key ∈ b.row)) = .ok (a.inter b).row
  inter : (a.inter b).row = a.row.filter (· ∈ b.row)
  left : a.row.select (fun key => .ok (key ∉ b.row)) = .ok (a.diff b).row
  diff : (a.diff b).row = a.row.filter (· ∉ b.row)
  same : a.same b = true ↔ a.members = b.members
  disjoint : a.disjoint b = true ↔ Disjoint a.members b.members
  undivided : ∀ (all : KeySet) (fault : Fault), all.partitions a b = .error fault ↔
    Disjoint a.members b.members ∧ 16 < a.members.card + b.members.card ∧ fault = .keySetFull
  partitions : ∀ (all : KeySet) (answer : Bool), all.partitions a b = .ok answer →
    (answer = true ↔ Disjoint a.members b.members ∧ all.members = a.members ∪ b.members)

theorem insertsInto (a : KeySet) (key : Text) : a.InsertsInto key where
  filled := insert_row key
  present known := insert_of_mem_row (mem_members.1 known)
  refused fault := by rw [mem_members, card_members, insert_eq_error_iff]
  added s made absent := row_of_insert made (mem_members.not.1 absent)

theorem combinesWith (a b : KeySet) : a.CombinesWith b where
  united := union_row
  refused _ := union_eq_error_iff
  listed _ := row_of_union
  shared := inter_row
  inter := row_inter
  left := diff_row
  diff := row_diff
  same := same_iff
  disjoint := disjoint_iff
  undivided _ _ := partitions_eq_error_iff
  partitions _ _ := partitions_iff

/-- Key sets are finite sets of texts. What the operations leave behind are rows of at most 16
distinct keys of at most 31 bytes, and these are the rows of key sets. Making a set of some keys and
going through the keys of a shape fill a row key by key; and any two sets are filled, combined and
compared as finite sets are, as long as there is room. -/
theorem keySet_refines_finite_set :
    (∀ row, KeyRow.Reachable row ↔ ∃ s : KeySet, s.row = row) ∧
    (∀ row, KeyRow.Reachable row →
      row.length ≤ 16 ∧ row.Nodup ∧ ∀ key ∈ row, key.length ≤ 31) ∧
    (∀ keys, KeyRow.insertAll [] keys = row <$> ofList keys) ∧
    (∀ {cap : Nat} (d : Descriptor cap) (test : Text → Except Fault Bool),
      row <$> d.selectKeys test = (do (← row <$> d.tree.keys).select test)) ∧
    (∀ (a : KeySet) (key : Text), a.InsertsInto key) ∧
    ∀ a b : KeySet, a.CombinesWith b := by
  refine ⟨fun row => ⟨fun h => h.exists_keySet, ?_⟩, fun row h => ?_,
    insertAll_row (s := .empty), Descriptor.row_selectKeys, insertsInto, combinesWith⟩
  · rintro ⟨s, rfl⟩
    exact KeyRow.reachable_row s
  · obtain ⟨s, rfl⟩ := h.exists_keySet
    exact ⟨length_row_le, nodup_row, fun key => length_le_of_mem_row⟩

/-- Two sets of nine letters that share one of them: there is no room for their union. -/
theorem keySet_refines_seventeen_letters :
    ∃ a b : KeySet, a.row = (Text.ofString "abcdefghi").map (fun c => [c]) ∧
      b.row = (Text.ofString "ijklmnopq").map (fun c => [c]) ∧
      KeyRow.Reachable a.row ∧ a.row.Nodup ∧
      .ofString "i" ∈ a.members ∧ a.insert (.ofString "i") = .ok a ∧
      a.union b = .error .keySetFull := by
  let letters (s : String) : List Name := (Text.ofString s).map fun c => ⟨[c], by simp⟩
  let a : KeySet := ⟨letters "abcdefghi", by decide, by decide⟩
  let b : KeySet := ⟨letters "ijklmnopq", by decide, by decide⟩
  obtain ⟨reachable, bounds, -, -, inserts, combines⟩ := keySet_refines_finite_set
  have known : .ofString "i" ∈ a.members := by decide
  have left : KeyRow.Reachable a.row := (reachable a.row).2 ⟨a, rfl⟩
  exact ⟨a, b, rfl, rfl, left, (bounds a.row left).2.1, known, (inserts a _).present known,
    ((combines a b).refused _).2 ⟨by decide, rfl⟩⟩

end KeySet

end StructuralTypes
