import StructuralTypes.Proofs.NumeralClasses

/-!
# Rows of bytes in memory

Texts are put together in rows of bytes. At first all bytes of a row are zero, and a count says how
many are in use. Every access asks whether there is such a byte: a place behind the row has no
answer, and neither has a place behind the zero byte that ends a text in memory. Integers are taken
apart from the last digit on, with a sign that they keep, and every result on the way has to be a
value of their type.
-/

namespace StructuralTypes

/-- The byte at a position of a text in memory, where a zero byte ends it. Nothing is known of what
lies behind. -/
def Text.stored (t : Text) (i : Nat) : Option UInt8 := (t ++ [0])[i]?

/-- A row of bytes, of which the first are in use. -/
structure Cells (size : Nat) where
  bytes : Vector UInt8 size
  used : Nat

namespace Cells

variable {size : Nat}

/-- No byte is in use. -/
def blank : Cells size := ⟨.replicate size 0, 0⟩

/-- The byte at a position of the row. -/
def read (c : Cells size) (i : Nat) : Option UInt8 := c.bytes[i]?

/-- Write a byte behind those in use. -/
def put (c : Cells size) (b : UInt8) : Option (Cells size) :=
  if h : c.used < size then some ⟨c.bytes.set c.used b, c.used + 1⟩ else none

/-- The text that starts with the row. A zero byte has to end it. -/
def text (c : Cells size) : Option Text :=
  if 0 ∈ c.bytes.toList then some (Text.untilZero c.bytes.toList) else none

/-- Hand over the bytes in use, from the last to the first. -/
def drain {α : Type} (c : Cells size) (take : α → UInt8 → Option α) (a : α) : Option α :=
  (List.range c.used).reverse.foldlM (fun a i => do take a (← c.read i)) a

/-- The row that begins with a text and goes on with zeros. -/
def holding (t : Text) : Cells size := ⟨.ofFn fun i => t[i.val]?.getD 0, t.length⟩

section Holding

variable {t : Text}

@[simp] theorem used_holding (t : Text) : (holding t : Cells size).used = t.length := rfl

theorem blank_eq : (blank : Cells size) = holding [] := by
  rw [blank, holding]
  congr 1
  ext i h
  simp

theorem put_holding (room : t.length < size) (b : UInt8) :
    (holding t : Cells size).put b = some (holding (t ++ [b])) := by
  rw [put, holding, dif_pos room, holding, List.length_append]
  congr 2
  ext i h
  simp only [Vector.getElem_set, Vector.getElem_ofFn]
  grind

/-- A row takes a text byte by byte, as far as it reaches. -/
theorem foldlM_put {u : Text} (room : t.length + u.length ≤ size) :
    u.foldlM put (holding t : Cells size) = some (holding (t ++ u)) := by
  induction u generalizing t with
  | nil => rw [List.append_nil]; rfl
  | cons b u ih =>
      rw [List.length_cons] at room
      rw [List.foldlM_cons, put_holding (by omega) b]
      have rest := @ih (t ++ [b]) (by rw [List.length_append, List.length_singleton]; omega)
      rwa [List.append_assoc] at rest

theorem read_holding (fits : t.length ≤ size) {i : Nat} (h : i < t.length) :
    (holding t : Cells size).read i = some t[i] := by
  have inside : i < size := Nat.lt_of_lt_of_le h fits
  rw [read, holding, Vector.getElem?_eq_getElem inside, Vector.getElem_ofFn]
  simp [h]

/-- The bytes in use come out in reverse order. -/
theorem drain_holding {α : Type} (fits : t.length ≤ size) (take : α → UInt8 → Option α) (a : α) :
    (holding t : Cells size).drain take a = t.reverse.foldlM take a := by
  have upTo : ∀ n ≤ t.length, ∀ a, (List.range n).reverse.foldlM
      (fun a i => do take a (← (holding t : Cells size).read i)) a =
        (t.take n).reverse.foldlM take a := by
    intro n
    induction n with
    | zero => exact fun _ _ => rfl
    | succ n ih =>
        intro few a
        rw [List.range_succ, List.reverse_append, List.reverse_singleton, List.singleton_append,
          List.foldlM_cons, read_holding fits few, List.take_succ_eq_append_getElem few,
          List.reverse_append, List.reverse_singleton, List.singleton_append, List.foldlM_cons]
        exact congrArg _ (funext (ih (Nat.le_of_succ_le few)))
  have whole := upTo t.length (Nat.le_refl _) a
  rwa [List.take_length] at whole

theorem toList_holding (fits : t.length ≤ size) :
    (holding t : Cells size).bytes.toList = t ++ .replicate (size - t.length) 0 := by
  apply List.ext_getElem
  · simp [fits]
  · intro i h h'
    simp only [holding, Vector.getElem_toList, Vector.getElem_ofFn, List.getElem_append]
    split <;> simp_all

/-- A zero byte ends the text if there is room for one. -/
theorem text_holding (clean : 0 ∉ t) (room : t.length < size) :
    (holding t : Cells size).text = some t := by
  have others : ∀ b ∈ t, (b != 0) = true := by
    intro b hb
    simpa using fun zero : b = 0 => clean (zero ▸ hb)
  obtain ⟨k, rest⟩ := Nat.exists_eq_add_of_lt room
  have zeros : size - t.length = k + 1 := by omega
  rw [text, toList_holding (Nat.le_of_lt room), zeros, List.replicate_succ, if_pos (by simp),
    Text.untilZero, List.takeWhile_append_of_pos others]
  simp

end Holding

end Cells

namespace Digit

/-- The last decimal digit of a number. -/
def last (n : Nat) : Digit := ⟨n % 10, Nat.mod_lt n (by decide)⟩

/-- The bytes of the decimal digits of a number, from the last to the first. Zero has none. -/
def trailing (n : Nat) : Text := if n = 0 then [] else (Text.ofNat n).reverse

/-- Before the last digit of a number stand the digits of a tenth of it. -/
theorem reverse_ofNat (n : Nat) : (Text.ofNat n).reverse = (last n).byte :: trailing (n / 10) := by
  have spelled : ∀ d : Digit, Text.byte d.val.digitChar = d.byte := by decide
  have digit : Text.byte (n % 10).digitChar = (last n).byte := spelled (last n)
  rw [Text.ofNat, Nat.toDigits_eq_if (by omega), ← digit, trailing]
  split
  · next small =>
    rw [if_pos (Nat.div_eq_of_lt small), Nat.mod_eq_of_lt small]
    rfl
  · next large =>
    rw [if_neg (by omega), List.map_append, List.reverse_append]
    rfl

theorem trailing_eq {n : Nat} (nonzero : n ≠ 0) :
    trailing n = (last n).byte :: trailing (n / 10) := by
  rw [trailing, if_neg nonzero, reverse_ofNat]

end Digit

section Decimals

/-- The decimal text of an integer is a sign and the digits of its magnitude. -/
theorem Text.ofInt_eq (v : Int) :
    Text.ofInt v = (if v < 0 then [Text.byte '-'] else []) ++ Text.ofNat v.natAbs := by
  cases v with
  | ofNat n => rfl
  | negSucc n =>
      rw [if_pos (Int.negSucc_lt_zero n)]
      rfl

theorem Text.length_ofNat_le {n k : Nat} (positive : 0 < k) (small : n < 10 ^ k) :
    (Text.ofNat n).length ≤ k := by
  rw [Text.ofNat, List.length_map]
  exact (Nat.length_toDigits_le_iff (by decide) positive).2 small

/-- No zero byte stands in the decimal text of an integer. -/
theorem Text.zero_notMem_ofInt (v : Int) : 0 ∉ Text.ofInt v := by
  have digit : ∀ d : Digit, d.byte ≠ 0 := by decide
  have minus : Text.byte '-' ≠ 0 := by decide
  obtain ⟨ds, digits, -, -⟩ := Numeral.exists_digits v.natAbs
  rw [Text.ofInt_eq, digits]
  split <;> simp [digit, minus.symm]

end Decimals

/-- Neither the last digit nor what is left of a value goes beyond it or changes its sign. -/
theorem between_of_tdiv (v : Int) :
    (0 ≤ v.tmod 10 ∧ v.tmod 10 ≤ v ∨ v ≤ v.tmod 10 ∧ v.tmod 10 ≤ 0) ∧
      (0 ≤ v.tdiv 10 ∧ v.tdiv 10 ≤ v ∨ v ≤ v.tdiv 10 ∧ v.tdiv 10 ≤ 0) := by
  rcases Int.le_total 0 v with positive | negative
  · rw [Int.tmod_eq_emod_of_nonneg positive, Int.tdiv_eq_ediv_of_nonneg positive]
    omega
  · obtain ⟨w, rfl⟩ : ∃ w, v = -w := ⟨-v, (Int.neg_neg v).symm⟩
    have positive : 0 ≤ w := by omega
    rw [Int.neg_tmod, Int.neg_tdiv, Int.tmod_eq_emod_of_nonneg positive,
      Int.tdiv_eq_ediv_of_nonneg positive]
    omega

namespace IntegerType

/-- A value, if the type has it. -/
def hold (ty : IntegerType) (v : Int) : Option Int := if ty.Contains v then some v else none

/-- Take the last digit off a value and write it behind the others. Dividing goes towards zero, so
what is left keeps the sign. -/
def takeDigit {size : Nat} (ty : IntegerType) (v : Int) (digits : Cells size) :
    Option (Int × Cells size) := do
  let last ← ty.hold (v.tmod 10)
  let rest ← ty.hold (v.tdiv 10)
  return (rest, ← digits.put (Text.byte '0' + last.natAbs.toUInt8))

/-- Take digits off a value until nothing is left of it. -/
def takeDigits {size : Nat} (ty : IntegerType) (v : Int) (digits : Cells size) :
    Option (Cells size) := do
  if v = 0 then return digits
  let taken ← ty.takeDigit v digits
  ty |>.takeDigits taken.1 taken.2
partial_fixpoint

section Digits

variable {ty : IntegerType} {v : Int} {size : Nat} {t : Text}

/-- Between zero and a value of the type, the type has all values. -/
theorem Contains.between (h : ty.Contains v) {w : Int}
    (order : 0 ≤ w ∧ w ≤ v ∨ v ≤ w ∧ w ≤ 0) : ty.Contains w := by
  obtain ⟨low, high⟩ := h
  obtain ⟨signed, width⟩ := ty
  cases signed <;> cases width <;>
    simp only [Contains, min, max, Width.half] at low high ⊢ <;> omega

theorem Contains.hold (h : ty.Contains v) : ty.hold v = some v := if_pos h

theorem takeDigit_holding (h : ty.Contains v) (room : t.length < size) :
    ty.takeDigit v (.holding t : Cells size) =
      some (v.tdiv 10, .holding (t ++ [(Digit.last v.natAbs).byte])) := by
  obtain ⟨last, rest⟩ := between_of_tdiv v
  have digit : (v.tmod 10).natAbs = v.natAbs % 10 := Int.natAbs_tmod v 10
  rw [takeDigit, (h.between last).hold, (h.between rest).hold]
  simp only [Option.bind_eq_bind, Option.bind_some, Cells.put_holding room, digit]
  rfl

theorem takeDigits_holding (h : ty.Contains v)
    (room : t.length + (Digit.trailing v.natAbs).length ≤ size) :
    ty.takeDigits v (.holding t : Cells size) =
      some (.holding (t ++ Digit.trailing v.natAbs)) := by
  induction n : v.natAbs using Nat.strongRecOn generalizing v t with
  | _ n ih =>
    subst n
    rw [takeDigits]
    split
    · next zero =>
      rw [zero, Int.natAbs_zero, Digit.trailing, if_pos rfl, List.append_nil]
      rfl
    · next nonzero =>
      have left : (v.tdiv 10).natAbs = v.natAbs / 10 := Int.natAbs_tdiv v 10
      have digits := Digit.trailing_eq (Int.natAbs_ne_zero.2 nonzero)
      rw [digits, List.length_cons] at room
      have rest := ih _ (by rw [left]; omega) (h.between (between_of_tdiv v).2)
        (t := t ++ [(Digit.last v.natAbs).byte])
        (by rw [List.length_append, List.length_singleton, left]; omega) rfl
      rw [takeDigit_holding h (by omega), digits]
      simp only [Option.bind_eq_bind, Option.bind_some]
      rw [rest, left, List.append_assoc]
      rfl

end Digits

end IntegerType

end StructuralTypes
