import StructuralTypes.Proofs.ByteCells
import StructuralTypes.Proofs.FullRendering
import StructuralTypes.Report

/-!
# Texts put together within a row

A builder is a row of bytes that keeps the last of them for the end of its text. All of its loops
write byte by byte and ask for room before every byte, however the bytes come: from a text up to the
zero byte behind it, from another builder up to its count, or from the digits of an integer, last
digit first. What does not fit is dropped, so only the beginning of what an unbounded builder would
hold is left. Messages are cut no other way.
-/

namespace StructuralTypes

/-- Where a loop takes its bytes from: whether there is one more at a position, and which. -/
structure ByteSource where
  more : Nat → Option Bool
  byte : Nat → Option UInt8

/-- The bytes of a text in memory up to the zero byte that ends it. -/
def Text.source (t : Text) : ByteSource := ⟨fun i => do return (← t.stored i) != 0, t.stored⟩

/-- The type of the integers that are appended to texts. -/
def IntegerType.int : IntegerType := ⟨true, .bits32⟩

namespace Cells

variable {size width : Nat}

/-- The bytes in use. -/
def source (c : Cells size) : ByteSource := ⟨fun i => some (i < c.used), c.read⟩

/-- Write a byte behind those in use unless only the last of the row is left. -/
def push (c : Cells size) (b : UInt8) : Option (Cells size) :=
  if c.used < size - 1 then c.put b else some c

/-- Write the bytes of a source from a position on, as long as there is room. -/
def pour (c : Cells size) (s : ByteSource) (i : Nat) : Option (Cells size) := do
  if (← s.more i) && c.used < size - 1 then
    let written ← c.put (← s.byte i)
    written |>.pour s (i + 1)
  else return c
partial_fixpoint

/-- Append a text. -/
def append (c : Cells size) (t : Text) : Option (Cells size) := c.pour t.source 0

/-- Append what another builder holds. -/
def appendCells (c : Cells size) (other : Cells width) : Option (Cells size) :=
  c.pour other.source 0

/-- Append the digits of an integer, which go into a row of their own first. -/
def appendDigits (c : Cells size) (v : Int) : Option (Cells size) := do
  if v = 0 then c.push (Text.byte '0')
  else
    let digits ← IntegerType.int.takeDigits v (.blank : Cells 12)
    digits.drain push c

/-- Append an integer. Its negation has to be a value of the type if it is below zero. -/
def appendInt (c : Cells size) (v : Int) : Option (Cells size) := do
  if v < 0 then
    let signed ← c.push (Text.byte '-')
    signed.appendDigits (← IntegerType.int.hold (-v))
  else c.appendDigits v

/-- The builder after an edit. -/
def apply (c : Cells size) : Buffer.Edit → Option (Cells size)
  | .restart t => append .blank t
  | .append t => c.append t
  | .push b => c.push b
  | .appendInt v => c.appendInt v
  | .appendClipped width t => do c.appendCells (← append (.blank : Cells width) t)
  | .double => c.appendCells c

/-- The builder after a sequence of edits. -/
def run (size : Nat) (edits : List Buffer.Edit) : Option (Cells size) :=
  edits.foldlM apply .blank

/-- Whether the builder holds a text: every byte in use is compared with the byte there, and the
text has to end behind them. -/
def equals (c : Cells size) (t : Text) : Option Bool := do
  let same ← (List.range' 0 c.used).allM fun i => do return (← c.read i) == (← t.stored i)
  if same then return (← t.stored c.used) == 0 else return false

end Cells

namespace Report

/-- The message that is raised: what stands at the beginning of a row when all parts are written. -/
def raised (size : Nat) (r : Report) : Option Text := do
  (← Cells.run size (r.parts.map .append)).text

/-- The whole message. -/
def full (r : Report) : Text := r.parts.flatten

/-- The texts that a report is about. -/
def operands : Report → List Text
  | note category context => [category, context]
  | mismatch category expected actual context => [category, expected, actual, context]
  | lookup category key operation keys shape => [category, key, operation, keys, shape]

end Report

namespace Buffer.Edit

/-- What an unbounded builder holds after an edit. -/
def assemble (held : Text) : Edit → Text
  | restart t => t
  | append t => held ++ t
  | push b => held ++ [b]
  | appendInt v => held ++ Text.ofInt v
  | appendClipped width t => held ++ t.clip width
  | double => held ++ held

/-- What an unbounded builder holds after a sequence of edits. -/
def assembled (edits : List Edit) : Text := edits.foldl assemble []

/-- The edits that can be made in memory: no zero byte is appended, and neither is the least
integer. -/
def Proper : Edit → Prop
  | restart t | append t | appendClipped _ t => 0 ∉ t
  | push b => b ≠ 0
  | appendInt v => IntegerType.int.min < v ∧ v ≤ IntegerType.int.max
  | double => True

instance : DecidablePred Proper
  | restart t | append t | appendClipped _ t => inferInstanceAs (Decidable (0 ∉ t))
  | push b => inferInstanceAs (Decidable (b ≠ 0))
  | appendInt _ => inferInstanceAs (Decidable (_ ∧ _))
  | double => inferInstanceAs (Decidable True)

end Buffer.Edit

section Cuts

namespace Text

variable {size : Nat} {t u : Text}

theorem clip_append_clip (t u : Text) : (t.clip size ++ u).clip size = (t ++ u).clip size :=
  (agreeTo_take t).append (.refl u)

theorem clip_append_self (t : Text) : (t.clip size ++ t.clip size).clip size = (t ++ t).clip size :=
  take_append_take t t

theorem zero_notMem_clip (clean : 0 ∉ t) : 0 ∉ t.clip size := mt List.mem_of_mem_take clean

/-- A text that fills the row keeps nothing of what comes behind it. -/
theorem clip_append_of_full (full : t.length = size - 1) (u : Text) : (t ++ u).clip size = t := by
  rw [clip, ← full, List.take_left]

theorem stored_eq {i : Nat} (h : i < t.length) : t.stored i = some t[i] := by
  rw [stored, List.getElem?_append_left h, List.getElem?_eq_getElem h]

theorem stored_length (t : Text) : t.stored t.length = some 0 := List.getElem?_concat_length

end Text

end Cuts

namespace ByteSource

/-- From a position on, the source has the bytes of a text, and then no more. -/
structure Supplies (s : ByteSource) (i : Nat) (t : Text) : Prop where
  more : ∀ l < t.length, s.more (i + l) = some true
  byte : ∀ l (h : l < t.length), s.byte (i + l) = some t[l]
  ended : s.more (i + t.length) = some false

theorem Supplies.tail {s : ByteSource} {i : Nat} {b : UInt8} {t : Text}
    (h : s.Supplies i (b :: t)) : s.Supplies (i + 1) t where
  more l hl := by
    rw [Nat.succ_add_eq_add_succ]
    exact h.more (l + 1) (Nat.succ_lt_succ hl)
  byte l hl := by
    rw [Nat.succ_add_eq_add_succ]
    exact h.byte (l + 1) (Nat.succ_lt_succ hl)
  ended := by
    rw [Nat.succ_add_eq_add_succ]
    exact h.ended

theorem supplies_text {t : Text} (clean : 0 ∉ t) : t.source.Supplies 0 t where
  more l hl := by
    have nonzero : t[l] ≠ 0 := fun zero => clean (zero ▸ List.getElem_mem hl)
    have stored : t.source.more l = some (t[l] != 0) := by
      simp [Text.source, Text.stored_eq hl]
    rw [Nat.zero_add, stored]
    exact congrArg some (bne_iff_ne.2 nonzero)
  byte l hl := by
    rw [Nat.zero_add]
    exact Text.stored_eq hl
  ended := by
    rw [Nat.zero_add]
    simp [Text.source, Text.stored_length]

theorem supplies_holding {width : Nat} {t : Text} (fits : t.length ≤ width) :
    (Cells.holding t : Cells width).source.Supplies 0 t where
  more l hl := by
    rw [Nat.zero_add]
    exact congrArg some (decide_eq_true hl)
  byte l hl := by
    rw [Nat.zero_add]
    exact Cells.read_holding fits hl
  ended := by
    rw [Nat.zero_add]
    exact congrArg some (decide_eq_false (Nat.lt_irrefl _))

end ByteSource

namespace Cells

variable {size width : Nat} {t u : Text}

section Writing

theorem push_holding (few : t.length ≤ size - 1) (b : UInt8) :
    (holding t : Cells size).push b = some (holding ((t ++ [b]).clip size)) := by
  rw [push]
  split
  · next room =>
    change t.length < size - 1 at room
    rw [put_holding (by omega), Text.clip_of_le (by rw [List.length_append]; exact room)]
  · next full =>
    rw [Text.clip_append_of_full (Nat.le_antisymm few (Nat.not_lt.1 full))]

theorem foldlM_push (few : t.length ≤ size - 1) (u : Text) :
    u.foldlM push (holding t : Cells size) = some (holding ((t ++ u).clip size)) := by
  induction u generalizing t with
  | nil => rw [List.append_nil, Text.clip_of_le few]; rfl
  | cons b u ih =>
      rw [List.foldlM_cons, push_holding few]
      refine (ih (Text.length_clip_le ..)).trans ?_
      rw [Text.clip_append_clip, List.append_assoc, List.singleton_append]

/-- Of the bytes that a source has, the row takes those for which there is room. -/
theorem pour_holding (few : t.length ≤ size - 1) {s : ByteSource} {i : Nat}
    (supplies : s.Supplies i u) :
    (holding t : Cells size).pour s i = some (holding ((t ++ u).clip size)) := by
  induction u generalizing t i with
  | nil =>
      have ended : s.more i = some false := supplies.ended
      rw [pour, ended, List.append_nil, Text.clip_of_le few]
      rfl
  | cons b u ih =>
      have more : s.more i = some true := supplies.more 0 (Nat.zero_lt_succ _)
      have byte : s.byte i = some b := supplies.byte 0 (Nat.zero_lt_succ _)
      rw [pour, more, byte]
      -- Without room the loop stops here, and everything that the source still has is dropped.
      by_cases room : t.length < size - 1
      · have rest := ih (t := t ++ [b]) (by rw [List.length_append]; exact room) supplies.tail
        rw [List.append_assoc, List.singleton_append] at rest
        have written : (holding t : Cells size).put b = some (holding (t ++ [b])) :=
          put_holding (by omega) b
        simp only [Option.bind_eq_bind, Option.bind_some, Bool.true_and, written, used_holding,
          room, decide_true, if_true, rest]
      · have full := Text.clip_append_of_full (Nat.le_antisymm few (Nat.not_lt.1 room)) (b :: u)
        simp only [Option.bind_eq_bind, Option.bind_some, Bool.true_and, used_holding, room,
          decide_false, Bool.false_eq_true, if_false, full]
        rfl

theorem append_holding (few : t.length ≤ size - 1) (clean : 0 ∉ u) :
    (holding t : Cells size).append u = some (holding ((t ++ u).clip size)) :=
  pour_holding few (ByteSource.supplies_text clean)

theorem append_blank (clean : 0 ∉ u) :
    (blank : Cells size).append u = some (holding (u.clip size)) := by
  rw [blank_eq]
  exact append_holding (Nat.zero_le _) clean

theorem appendCells_holding (few : t.length ≤ size - 1) (fits : u.length ≤ width - 1) :
    (holding t : Cells size).appendCells (holding u : Cells width) =
      some (holding ((t ++ u).clip size)) :=
  pour_holding few (ByteSource.supplies_holding (by omega))

/-- The digits of an integer are cut midway if there is no room for all of them. -/
theorem appendDigits_holding (few : t.length ≤ size - 1) {v : Int} (h : IntegerType.int.Contains v)
    (positive : 0 ≤ v) :
    (holding t : Cells size).appendDigits v =
      some (holding ((t ++ Text.ofNat v.natAbs).clip size)) := by
  rw [appendDigits]
  split
  · next zero =>
    rw [zero]
    exact push_holding few _
  · next nonzero =>
    have digits : Digit.trailing v.natAbs = (Text.ofNat v.natAbs).reverse :=
      if_neg (Int.natAbs_ne_zero.2 nonzero)
    have count : (Text.ofNat v.natAbs).length ≤ 10 := by
      refine Text.length_ofNat_le (by decide) ?_
      have := h.2
      simp only [IntegerType.int, IntegerType.max, Width.half] at this
      omega
    have taken : IntegerType.int.takeDigits v (blank : Cells 12) =
        some (holding (Text.ofNat v.natAbs).reverse) := by
      rw [blank_eq, IntegerType.takeDigits_holding h, digits]
      · rfl
      · rw [digits, List.length_reverse, List.length_nil]
        omega
    rw [taken]
    refine (drain_holding (by rw [List.length_reverse]; omega) _ _).trans ?_
    rw [List.reverse_reverse, foldlM_push few]

theorem appendInt_holding (few : t.length ≤ size - 1) {v : Int}
    (h : IntegerType.int.min < v ∧ v ≤ IntegerType.int.max) :
    (holding t : Cells size).appendInt v = some (holding ((t ++ Text.ofInt v).clip size)) := by
  have bounds := h
  simp only [IntegerType.int, IntegerType.min, IntegerType.max, Width.half] at bounds
  rw [appendInt, Text.ofInt_eq]
  split
  · next negative =>
    have opposite : IntegerType.int.Contains (-v) := by
      simp only [IntegerType.Contains, IntegerType.int, IntegerType.min, IntegerType.max,
        Width.half]
      omega
    rw [push_holding few, opposite.hold]
    -- The minus may have been dropped; then there is no room for any digit.
    refine (appendDigits_holding (Text.length_clip_le ..) opposite (by omega)).trans ?_
    rw [Int.natAbs_neg, Text.clip_append_clip, List.append_assoc]
  · next positive =>
    exact appendDigits_holding few ⟨Int.le_of_lt h.1, h.2⟩ (Int.not_lt.1 positive)

end Writing

section Comparing

/-- Comparing stops at the first difference, so it never goes behind the end of a text. -/
theorem allM_eq {p q : Text} (clean : 0 ∉ p) {x y : Nat → Option UInt8} {i : Nat}
    (left : ∀ l (h : l < p.length), x (i + l) = some p[l])
    (right : ∀ l ≤ q.length, y (i + l) = q.stored l) :
    ((List.range' i p.length).allM fun j => do return (← x j) == (← y j)) =
      some (decide (p <+: q)) := by
  induction p generalizing q i with
  | nil => simp
  | cons b p ih =>
      obtain ⟨nonzero, clean⟩ := not_or.1 (mt List.mem_cons.2 clean)
      have first : x i = some b := left 0 (Nat.zero_lt_succ _)
      have second : y i = q.stored 0 := right 0 (Nat.zero_le _)
      rw [List.length_cons, List.range'_succ, List.allM, first, second]
      cases q with
      -- The other text ends here, and the zero byte behind it is no byte of the builder.
      | nil =>
          have differs : (b == 0) = false := beq_eq_false_iff_ne.2 (Ne.symm nonzero)
          simp [Text.stored, differs]
      | cons d q =>
          have rest := ih (q := q) (i := i + 1) clean
            (fun l hl => by
              rw [Nat.succ_add_eq_add_succ]
              exact left (l + 1) (Nat.succ_lt_succ hl))
            (fun l hl => by
              rw [Nat.succ_add_eq_add_succ]
              exact right (l + 1) (Nat.succ_le_succ hl))
          by_cases same : b = d
          · subst same
            simpa [Text.stored, List.cons_prefix_cons] using rest
          · have differs : (b == d) = false := beq_eq_false_iff_ne.2 same
            simp [Text.stored, differs, same, List.cons_prefix_cons]

theorem equals_holding (fits : t.length ≤ size) (clean : 0 ∉ t) (other : 0 ∉ u) :
    (holding t : Cells size).equals u = some (decide (u = t)) := by
  have compared := allM_eq (i := 0) clean
    (x := (holding t : Cells size).read) (y := u.stored) (q := u)
    (fun l hl => by rw [Nat.zero_add]; exact read_holding fits hl) (fun l _ => by rw [Nat.zero_add])
  rw [equals, used_holding, compared]
  by_cases begins : t <+: u
  · obtain ⟨rest, rfl⟩ := begins
    cases rest with
    | nil => simp [Text.stored_length]
    | cons b rest =>
        have nonzero : b ≠ 0 := by
          rintro rfl
          simp at other
        simp [Text.stored, nonzero]
  · have different : u ≠ t := by
      rintro rfl
      exact begins (List.prefix_refl _)
    simp [begins, different]

end Comparing

end Cells

namespace Buffer

section Steps

variable {cells : Nat} {t : Text} {e : Edit}

open Cells

/-- One edit in memory does what it does to an unbounded text, up to the cut. -/
theorem Edit.Proper.apply_holding (h : e.Proper) (t : Text) :
    (holding (t.clip cells) : Cells cells).apply e =
      some (holding ((e.assemble t).clip cells)) := by
  have few := Text.length_clip_le cells t
  match e with
  | .restart u => exact append_blank h
  | .append u =>
    rw [Cells.apply, append_holding few h, Text.clip_append_clip]
    rfl
  | .push b =>
    rw [Cells.apply, push_holding few, Text.clip_append_clip]
    rfl
  | .appendInt v =>
    rw [Cells.apply, appendInt_holding few h, Text.clip_append_clip]
    rfl
  | .appendClipped width u =>
    rw [Cells.apply, append_blank h]
    refine (appendCells_holding few (Text.length_clip_le _ u)).trans ?_
    rw [Text.clip_append_clip]
    rfl
  | .double =>
    rw [Cells.apply, appendCells_holding few few, Text.clip_append_self]
    rfl

/-- One edit of a buffer does what it does to an unbounded text, up to the cut. -/
theorem content_apply {b : Buffer cells} (h : b.content = t.clip cells) (e : Edit) :
    (b.apply e).content = (e.assemble t).clip cells := by
  match e with
  | .restart u => exact content_ofText u
  | .append u => exact (content_append b u).trans (h ▸ Text.clip_append_clip t u)
  | .push c => exact (content_append b [c]).trans (h ▸ Text.clip_append_clip t [c])
  | .appendInt v => exact (content_append b _).trans (h ▸ Text.clip_append_clip t _)
  | .appendClipped width u =>
    rw [Edit.assemble, ← content_ofText u, ← Text.clip_append_clip t, ← h]
    exact content_append b _
  | .double => exact (content_append b _).trans (h ▸ Text.clip_append_self t)

theorem Edit.Proper.zero_notMem (h : e.Proper) (clean : 0 ∉ t) : 0 ∉ e.assemble t := by
  match e with
  | .restart u => exact h
  | .append u => exact List.not_mem_append clean h
  | .push b => exact List.not_mem_append clean (mt List.mem_singleton.1 (Ne.symm h))
  | .appendInt v => exact List.not_mem_append clean (Text.zero_notMem_ofInt v)
  | .appendClipped width u => exact List.not_mem_append clean (Text.zero_notMem_clip h)
  | .double => exact List.not_mem_append clean clean

end Steps

section Runs

variable {cells : Nat} {edits : List Edit}

theorem Edit.foldlM_apply (proper : ∀ e ∈ edits, e.Proper) (t : Text) :
    edits.foldlM Cells.apply (.holding (t.clip cells) : Cells cells) =
      some (.holding ((edits.foldl assemble t).clip cells)) := by
  induction edits generalizing t with
  | nil => rfl
  | cons e edits ih =>
      obtain ⟨first, rest⟩ := List.forall_mem_cons.1 proper
      rw [List.foldlM_cons, first.apply_holding]
      exact ih rest (e.assemble t)

/-- A sequence of edits is cut once, at its end. -/
theorem Edit.run_eq (proper : ∀ e ∈ edits, e.Proper) :
    Cells.run cells edits = some (.holding ((assembled edits).clip cells)) := by
  have onto : edits.foldlM Cells.apply (.holding (Text.clip cells [])) = _ :=
    foldlM_apply proper []
  rwa [Text.clip_of_le (Nat.zero_le _), ← Cells.blank_eq] at onto

theorem Edit.assembled_concat (edits : List Edit) (e : Edit) :
    assembled (edits ++ [e]) = e.assemble (assembled edits) := List.foldl_concat ..

/-- A buffer is cut likewise. -/
theorem content_run {b : Buffer cells} {t : Text} (h : b.content = t.clip cells)
    (edits : List Edit) :
    (b.run edits).content = (edits.foldl Edit.assemble t).clip cells := by
  induction edits generalizing b t with
  | nil => exact h
  | cons e edits ih => exact ih (content_apply h e)

theorem Edit.zero_notMem_assembled (proper : ∀ e ∈ edits, e.Proper) : 0 ∉ assembled edits := by
  suffices from_clean : ∀ t : Text, 0 ∉ t → 0 ∉ edits.foldl assemble t from
    from_clean [] List.not_mem_nil
  induction edits with
  | nil => exact fun _ clean => clean
  | cons e edits ih =>
      obtain ⟨first, rest⟩ := List.forall_mem_cons.1 proper
      exact fun t clean => ih rest _ (first.zero_notMem clean)

end Runs

end Buffer

namespace Cells

/-- The builder holds a text and nothing else: the bytes of the text are in use, there are zeros at
all other places, and comparing tells the text from all others without looking behind their ends. -/
structure Stores {size : Nat} (c : Cells size) (t : Text) : Prop where
  used : c.used = t.length
  room : c.used ≤ size - 1
  content : ∀ i (h : i < t.length), c.read i = some t[i]
  zeros : ∀ i, t.length ≤ i → i < size → c.read i = some 0
  equals : ∀ u : Text, 0 ∉ u → c.equals u = some (decide (u = t))

theorem stores_holding {size : Nat} {t : Text} (few : t.length ≤ size - 1) (clean : 0 ∉ t) :
    (holding t : Cells size).Stores t where
  used := rfl
  room := few
  content _ hi := read_holding (by omega) hi
  zeros i behind inside := by
    rw [read, holding, Vector.getElem?_eq_getElem inside, Vector.getElem_ofFn,
      List.getElem?_eq_none behind]
    rfl
  equals _ other := equals_holding (by omega) clean other

end Cells

namespace Report

variable {cells : Nat} {r : Report}

theorem zero_notMem_parts (clean : ∀ t ∈ r.operands, 0 ∉ t) : ∀ p ∈ r.parts, 0 ∉ p := by
  cases r <;> simp only [parts, operands, List.forall_mem_cons] at clean ⊢
  all_goals
    simp only [clean, not_false_eq_true, true_and]
    decide

theorem assembled_parts (r : Report) : Buffer.Edit.assembled (r.parts.map .append) = r.full := by
  have appended : r.parts.foldl (fun t p => t ++ id p) [] = [] ++ (r.parts.map id).flatten :=
    List.foldl_append_eq_append
  rw [List.map_id] at appended
  rw [Buffer.Edit.assembled, List.foldl_map]
  exact appended

/-- A message is cut once, however long the texts are that it is about. -/
theorem raised_eq (room : 0 < cells) (clean : ∀ t ∈ r.operands, 0 ∉ t) :
    r.raised cells = some (r.full.clip cells) := by
  have parts := zero_notMem_parts clean
  have proper : ∀ e ∈ r.parts.map Buffer.Edit.append, e.Proper := List.forall_mem_map.2 parts
  have written : Cells.run cells (r.parts.map .append) =
      some (.holding (r.full.clip cells)) := by
    rw [← assembled_parts]
    exact Buffer.Edit.run_eq proper
  have whole : 0 ∉ r.full := by
    intro inside
    obtain ⟨p, hp, zero⟩ := List.mem_flatten.1 inside
    exact parts p hp zero
  have few := Text.length_clip_le cells r.full
  rw [raised, written]
  exact Cells.text_holding (Text.zero_notMem_clip whole) (by omega)

end Report

namespace Buffer

/-- Texts are cut once. Whatever edits are made one after the other, in a row of bytes or in a
buffer, what is left is the beginning of the text that an unbounded builder would hold; in the row
there are zeros behind it, and comparing stays within the texts. Another builder of any size may be
appended after any edits of its own. A message is what fits of all its parts together. -/
theorem edits_cut_once {cells : Nat} (room : 0 < cells) :
    (∀ edits : List Edit, (∀ e ∈ edits, e.Proper) →
      ∃ b : Cells cells, Cells.run cells edits = some b ∧
        b.Stores ((Edit.assembled edits).clip cells) ∧
        (run empty edits : Buffer cells).content = (Edit.assembled edits).clip cells ∧
        ∀ (width : Nat) (others : List Edit), (∀ e ∈ others, e.Proper) →
          ∃ o : Cells width, Cells.run width others = some o ∧
            (Edit.appendClipped width (Edit.assembled others)).Proper ∧
            b.appendCells o =
              Cells.run cells (edits ++ [.appendClipped width (Edit.assembled others)])) ∧
    ∀ r : Report, (∀ t ∈ r.operands, 0 ∉ t) →
      r.raised cells = some (r.full.clip cells) ∧
      (r.render cells).content = r.full.clip cells := by
  refine ⟨fun edits proper => ?_, fun r clean => ⟨Report.raised_eq room clean, ?_⟩⟩
  · have clean := Edit.zero_notMem_assembled proper
    have nothing : (empty : Buffer cells).content = Text.clip cells [] :=
      (Text.clip_of_le (Nat.zero_le _)).symm
    refine ⟨_, Edit.run_eq proper, ?_, content_run nothing edits, fun width others sound => ?_⟩
    · exact Cells.stores_holding (Text.length_clip_le ..) (Text.zero_notMem_clip clean)
    · have bare := Edit.zero_notMem_assembled sound
      refine ⟨_, Edit.run_eq sound, bare, ?_⟩
      have appended : ∀ e ∈ edits ++ [.appendClipped width (Edit.assembled others)], e.Proper := by
        simpa [or_imp, forall_and] using ⟨proper, bare⟩
      rw [Edit.run_eq appended, Cells.appendCells_holding (Text.length_clip_le ..)
        (Text.length_clip_le ..), Text.clip_append_clip, Edit.assembled_concat]
      rfl
  · exact content_ofParts r.parts

/-- Of the copy that is appended at the end, there is room for one byte among eight, and of a
message for the beginning of its first words. -/
theorem edits_cut_once_small :
    0 < 8 ∧ ∃ b : Cells 8,
      Cells.run 8 [.restart (.ofString "a"), .appendInt (-305), .appendClipped 2 (.ofString "xyz"),
        .double, .push (Text.byte '!')] = some b ∧
      b.Stores (.ofString "a-305xa") ∧
      (Report.note (.ofString "empty key") (.ofString "pick")).raised 8 =
        some (.ofString "shape e") := by
  obtain ⟨edits, reports⟩ := edits_cut_once (Nat.zero_lt_succ 7)
  obtain ⟨b, made, stored, -⟩ := edits [.restart (.ofString "a"), .appendInt (-305),
    .appendClipped 2 (.ofString "xyz"), .double, .push (Text.byte '!')] (by decide)
  exact ⟨Nat.zero_lt_succ 7, b, made, stored, (reports _ (by decide)).1⟩

end Buffer

end StructuralTypes
