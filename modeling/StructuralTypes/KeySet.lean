import StructuralTypes.Name

/-!
# Key sets

A key set is a finite set of member keys that remembers the order of insertion. It has at most 16
keys, so insertion and union can fail; intersection and difference cannot.
-/

namespace StructuralTypes

/-- At most 16 distinct keys in order of insertion. -/
structure KeySet where
  keys : List Name
  distinct : keys.Nodup
  bounded : keys.length ≤ 16
deriving DecidableEq

namespace KeySet

@[ext] theorem ext {a b : KeySet} (h : a.keys = b.keys) : a = b := by
  cases a; cases b; cases h; rfl

/-- The set without keys. -/
def empty : KeySet := ⟨[], .nil, by decide⟩

instance : Inhabited KeySet := ⟨empty⟩

/-- The number of keys. -/
def size (s : KeySet) : Nat := s.keys.length

/-- The set has no keys. -/
def isEmpty (s : KeySet) : Bool := s.keys.isEmpty

/-- A text is one of the keys. -/
def contains (s : KeySet) (key : Text) : Bool := s.keys.any (·.text == key)

theorem contains_iff {s : KeySet} {key : Text} :
    s.contains key = true ↔ ∃ k ∈ s.keys, k.text = key := by
  simp [contains]

@[simp] theorem contains_text {s : KeySet} {k : Name} :
    s.contains k.text = true ↔ k ∈ s.keys := by
  simp [contains, ← Name.ext_iff]

theorem nodup_append {s : KeySet} {k : Name} (absent : s.contains k.text = false) :
    (s.keys ++ [k]).Nodup := by
  refine List.nodup_append.2 ⟨s.distinct, by simp, fun a ha b hb => ?_⟩
  rintro rfl
  rw [List.mem_singleton.1 hb, ← contains_text] at ha
  simp [absent] at ha

theorem length_append_le {s : KeySet} {k : Name} (room : s.keys.length < 16) :
    (s.keys ++ [k]).length ≤ 16 := by
  rw [List.length_append]
  exact room

/-- Add a key behind the others, unless it is present. A full set is reported before a long key. -/
def insert (s : KeySet) (key : Text) : Except Fault KeySet :=
  if absent : s.contains key = false then
    if room : s.keys.length < 16 then
      if short : key.length < 32 then
        .ok ⟨s.keys ++ [⟨key, short⟩], nodup_append absent, length_append_le room⟩
      else .error .keyTooLong
    else .error .keySetFull
  else .ok s

/-- The set of some keys, inserted in order. -/
def ofList (keys : List Text) : Except Fault KeySet := keys.foldlM insert empty

/-- The keys that satisfy a predicate, in order. -/
def filter (s : KeySet) (p : Name → Bool) : KeySet where
  keys := s.keys.filter p
  distinct := s.distinct.filter p
  bounded := Nat.le_trans (List.length_filter_le ..) s.bounded

/-- The keys of `a`, then the new keys of `b`. -/
def union (a b : KeySet) : Except Fault KeySet := (b.keys.map Name.text).foldlM insert a

/-- The keys of `a` that are keys of `b`. -/
def inter (a b : KeySet) : KeySet := a.filter fun k => b.contains k.text

/-- The keys of `a` that are no keys of `b`. -/
def diff (a b : KeySet) : KeySet := a.filter fun k => !b.contains k.text

/-- The same keys in any order. -/
def same (a b : KeySet) : Bool := a.size == b.size && a.keys.all fun k => b.contains k.text

/-- No key in common. -/
def disjoint (a b : KeySet) : Bool := (a.inter b).isEmpty

/-- `a` and `b` split `all` without overlap and without omission. Only disjoint sets are united. -/
def partitions (all a b : KeySet) : Except Fault Bool :=
  if a.disjoint b then (·.same all) <$> a.union b else .ok false

/-- The rendered set. -/
def render (s : KeySet) : Buffer 256 := Name.braced s.keys

end KeySet

end StructuralTypes
