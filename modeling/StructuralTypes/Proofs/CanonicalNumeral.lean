import Mathlib.Data.List.TakeWhile
import Mathlib.Tactic.Positivity
import StructuralTypes.Descriptor.Construction
import StructuralTypes.Proofs.Decimal
import StructuralTypes.Proofs.Reordering

/-!
# The canonical spelling of a number

Reading accepts the texts of the decimal grammar. Stripping keeps the value and leaves a text
without redundant zeros, of which there is one for every value. Counting digits of a stripped number
decides whether its magnitude lies in the range that is written without an exponent.
-/

namespace StructuralTypes.Numeral

/-- A point and the digits behind it, if there are any. -/
def pointed (ds : List Digit) : Text :=
  if ds.isEmpty then [] else Text.byte '.' :: ds.map Digit.byte

/-- The sign of a number. -/
def sign (negative : Bool) : Text := if negative then [Text.byte '-'] else []

theorem spelling_eq (n : Numeral) :
    n.spelling = sign n.negative ++ n.whole.map Digit.byte ++ pointed n.fraction := rfl

/-- No redundant zeros, and no sign at zero. -/
structure Bare (n : Numeral) : Prop where
  whole : n.whole = [0] ∨ ∃ d ds, d ≠ 0 ∧ n.whole = d :: ds
  fraction : n.fraction = [] ∨ ∃ ds d, d ≠ 0 ∧ n.fraction = ds ++ [d]
  sign : n.negative = true → n.isZero = false

section Reading

variable {n : Numeral} {t : Text}

theorem stop_pointed (ds : List Digit) :
    pointed ds = [] ∨ ∃ b bs, pointed ds = b :: bs ∧ Digit.ofByte? b = none := by
  unfold pointed
  split
  · exact .inl rfl
  · exact .inr ⟨_, _, rfl, Digit.ofByte?_point⟩

theorem readFraction_eq_ok_iff {ds : List Digit} : readFraction t = .ok ds ↔ t = pointed ds := by
  constructor
  · intro h
    cases t with
    | nil =>
        cases h
        rfl
    | cons b bs =>
        rw [readFraction] at h
        split at h
        · next point =>
          rcases hs : Digit.span bs with ⟨_ | ⟨d, ds⟩, _ | ⟨c, cs⟩⟩ <;> rw [hs] at h <;> cases h
          rw [point, Digit.eq_append_of_span hs]
          simp [pointed]
        · cases h
  · rintro rfl
    cases ds with
    | nil => rfl
    | cons d ds =>
        have digits := Digit.span_map_byte_append (d :: ds) (.inl rfl)
        rw [List.append_nil] at digits
        simp only [pointed, List.isEmpty_cons, Bool.false_eq_true, if_false, readFraction, if_true,
          digits]

theorem isNegative_spelling (h : n.whole ≠ []) : n.spelling.isNegative = n.negative := by
  obtain ⟨d, ds, hw⟩ := List.exists_cons_of_ne_nil h
  rw [spelling_eq, hw]
  cases n.negative with
  | true => rfl
  | false => simpa [sign, Text.isNegative] using Digit.byte_ne_minus d

theorem drop_sign (n : Numeral) :
    (if n.negative then n.spelling.drop 1 else n.spelling) =
      n.whole.map Digit.byte ++ pointed n.fraction := by
  rw [spelling_eq]
  cases n.negative <;> rfl

/-- Reading accepts the spellings of numbers that have a whole digit, and nothing else. -/
theorem read_eq_ok_iff : read t = .ok n ↔ n.whole ≠ [] ∧ t = n.spelling := by
  constructor
  · intro h
    simp only [read] at h
    rcases hs : Digit.span (if t.isNegative then t.drop 1 else t) with ⟨_ | ⟨d, ds⟩, rest⟩
    · rw [hs] at h
      cases h
    · rw [hs] at h
      obtain ⟨fraction, hf, h⟩ := bind_eq_ok h
      cases h
      refine ⟨List.cons_ne_nil _ _, ?_⟩
      have digits := Digit.eq_append_of_span hs
      rw [readFraction_eq_ok_iff.1 hf] at digits
      rw [spelling_eq, List.append_assoc]
      cases negative : t.isNegative with
      | false => simpa [sign, negative] using digits
      | true =>
          simp only [negative, if_true] at digits
          cases t with
          | nil => cases negative
          | cons b bs =>
              obtain rfl : b = Text.byte '-' := by simpa [Text.isNegative] using negative
              simpa [sign] using digits
  · rintro ⟨h, rfl⟩
    have digits := Digit.span_map_byte_append n.whole (stop_pointed n.fraction)
    obtain ⟨d, ds, hw⟩ := List.exists_cons_of_ne_nil h
    rw [hw] at digits
    simp only [read, isNegative_spelling h, drop_sign, hw, digits,
      readFraction_eq_ok_iff.2 rfl]
    exact congrArg Except.ok (by rw [← hw])

theorem spelling_injective {m : Numeral} (hn : n.whole ≠ []) (hm : m.whole ≠ [])
    (h : n.spelling = m.spelling) : n = m := by
  have left := read_eq_ok_iff.2 ⟨hn, rfl⟩
  rw [h, read_eq_ok_iff.2 ⟨hm, rfl⟩] at left
  exact (Except.ok.inj left).symm

end Reading

section Value

/-- The number in units of its last digit, without its sign. -/
def units (n : Numeral) : Nat := Digit.number (n.whole ++ n.fraction)

/-- The rational number that is meant. -/
def value (n : Numeral) : ℚ :=
  (if n.negative then -1 else 1) * (n.units / 10 ^ n.fraction.length)

theorem units_eq (n : Numeral) :
    n.units = Digit.number n.whole * 10 ^ n.fraction.length + Digit.number n.fraction :=
  Digit.number_append ..

theorem units_div (n : Numeral) :
    (n.units / 10 ^ n.fraction.length : ℚ) =
      Digit.number n.whole + Digit.number n.fraction / 10 ^ n.fraction.length := by
  rw [units_eq]
  push_cast
  field_simp

theorem abs_value (n : Numeral) : |n.value| = n.units / 10 ^ n.fraction.length := by
  have nonneg : (0 : ℚ) ≤ n.units / 10 ^ n.fraction.length := by positivity
  rw [value]
  split <;> simp [abs_of_nonneg nonneg]

theorem number_map_byte (ds : List Digit) :
    Decimal.number (ds.map Digit.byte) = Digit.number ds := by
  have h : ((fun b : UInt8 => b.toNat - 48) ∘ Digit.byte) = Fin.val := by
    funext d
    simp [Digit.toNat_byte]
  rw [Decimal.number, List.map_map, h, Digit.number]

theorem magnitude_append_pointed (ds es : List Digit) :
    Decimal.magnitude (ds.map Digit.byte ++ pointed es) =
      Digit.number ds + Digit.number es / 10 ^ es.length := by
  have noPoint : ∀ b ∈ ds.map Digit.byte, (b != Text.byte '.') = true := by
    intro b hb
    obtain ⟨d, -, rfl⟩ := List.mem_map.1 hb
    simpa using d.byte_ne_point
  rw [Decimal.magnitude, List.takeWhile_append_of_pos noPoint, List.dropWhile_append_of_pos noPoint]
  cases es with
  | nil => simp [pointed, ← number_map_byte, Decimal.number]
  | cons e es =>
      have head : pointed (e :: es) = Text.byte '.' :: (e :: es).map Digit.byte := rfl
      rw [head, List.takeWhile_cons_of_neg (by simp), List.dropWhile_cons_of_neg (by simp),
        List.append_nil, List.drop_one, List.tail_cons, number_map_byte, number_map_byte,
        List.length_map]

/-- The value of a spelling is the value of the number. -/
theorem value_spelling {n : Numeral} (h : n.whole ≠ []) : Decimal.value n.spelling = n.value := by
  have bare := drop_sign n
  rw [Decimal.value, isNegative_spelling h, value, units_div, ← magnitude_append_pointed]
  cases negative : n.negative with
  | false => simpa [negative] using congrArg Decimal.magnitude bare
  | true => simpa [negative] using congrArg Decimal.magnitude bare

end Value

section Stripping

theorem number_eq_zero {ds : List Digit} (h : ∀ d ∈ ds, d = 0) : Digit.number ds = 0 := by
  induction ds with
  | nil => rfl
  | cons d ds ih =>
      rw [Digit.number_cons, ih fun e he => h e (List.mem_cons_of_mem _ he), h d List.mem_cons_self]
      simp

theorem eq_zero_of_mem_takeWhile {ds : List Digit} {d : Digit}
    (h : d ∈ ds.takeWhile (· == 0)) : d = 0 := by
  simpa using List.mem_takeWhile_imp h

theorem number_takeWhile_zero (ds : List Digit) : Digit.number (ds.takeWhile (· == 0)) = 0 :=
  number_eq_zero fun _ => eq_zero_of_mem_takeWhile

theorem dropWhile_zero (ds : List Digit) :
    ds.dropWhile (· == 0) = [] ∨ ∃ e es, e ≠ 0 ∧ ds.dropWhile (· == 0) = e :: es := by
  cases rest : ds.dropWhile (· == 0) with
  | nil => exact .inl rfl
  | cons e es =>
      have stop := List.head_dropWhile_not (· == (0 : Digit)) (l := ds) (by simp [rest])
      simp only [rest, List.head_cons, beq_eq_false_iff_ne] at stop
      exact .inr ⟨e, es, stop, rfl⟩

/-- The zeros that are stripped from the whole digits do not count. -/
theorem number_stripWhole (ds : List Digit) : Digit.number (stripWhole ds) = Digit.number ds := by
  have parts := List.takeWhile_append_dropWhile (p := (· == (0 : Digit))) (l := ds)
  have kept : Digit.number (stripWhole ds) = Digit.number (ds.dropWhile (· == 0)) := by
    unfold stripWhole
    split
    · next h => rw [h]; rfl
    · next h => rw [h]
  calc
    Digit.number (stripWhole ds)
      = Digit.number (ds.takeWhile (· == 0) ++ ds.dropWhile (· == 0)) := by
        rw [kept, Digit.number_append, number_takeWhile_zero, Nat.zero_mul, Nat.zero_add]
    _ = Digit.number ds := by rw [parts]

/-- The zeros that are stripped from the fraction do not count. -/
theorem number_stripFraction (ds : List Digit) :
    (Digit.number (stripFraction ds) / 10 ^ (stripFraction ds).length : ℚ) =
      Digit.number ds / 10 ^ ds.length := by
  have parts := List.takeWhile_append_dropWhile (p := (· == (0 : Digit))) (l := ds.reverse)
  obtain ⟨zeros, hz, split⟩ : ∃ zeros : List Digit, (∀ d ∈ zeros, d = 0) ∧
      ds = stripFraction ds ++ zeros := by
    refine ⟨(ds.reverse.takeWhile (· == 0)).reverse, fun d hd => ?_, ?_⟩
    · exact eq_zero_of_mem_takeWhile (List.mem_reverse.1 hd)
    · rw [stripFraction, ← List.reverse_append, parts, List.reverse_reverse]
  generalize stripFraction ds = kept at split
  subst split
  rw [Digit.number_append, number_eq_zero hz, List.length_append]
  push_cast
  field_simp
  ring

theorem isZero_iff {n : Numeral} : n.isZero = true ↔ n.whole = [0] ∧ n.fraction = [] := by
  simp [isZero]

theorem units_of_isZero {n : Numeral} (h : n.isZero = true) : n.units = 0 := by
  obtain ⟨whole, fraction⟩ := isZero_iff.1 h
  rw [units, whole, fraction]
  rfl

@[simp] theorem whole_stripped (n : Numeral) : n.stripped.whole = stripWhole n.whole := rfl

@[simp] theorem fraction_stripped (n : Numeral) :
    n.stripped.fraction = stripFraction n.fraction := rfl

theorem negative_stripped (n : Numeral) :
    n.stripped.negative = (n.negative && !n.stripped.isZero) := rfl

/-- Stripping keeps the value. -/
theorem value_stripped (n : Numeral) : n.stripped.value = n.value := by
  have same : (n.stripped.units / 10 ^ n.stripped.fraction.length : ℚ) =
      n.units / 10 ^ n.fraction.length := by
    rw [units_div, units_div, whole_stripped, fraction_stripped, number_stripWhole,
      number_stripFraction]
  rw [value, value, same, negative_stripped]
  cases zero : n.stripped.isZero with
  | false => rw [Bool.not_false, Bool.and_true]
  | true =>
      rw [units_of_isZero zero, Nat.cast_zero, zero_div] at same
      rw [← same, mul_zero, mul_zero]

theorem whole_stripped_ne_nil (n : Numeral) : n.stripped.whole ≠ [] := by
  rw [whole_stripped, stripWhole]
  split <;> exact List.cons_ne_nil _ _

/-- Stripping leaves no redundant zeros and no sign at zero. -/
theorem bare_stripped (n : Numeral) : n.stripped.Bare where
  whole := by
    rw [whole_stripped, stripWhole]
    rcases dropWhile_zero n.whole with h | ⟨e, es, he, h⟩
    · exact .inl (by rw [h])
    · exact .inr ⟨e, es, he, by rw [h]⟩
  fraction := by
    rw [fraction_stripped, stripFraction]
    rcases dropWhile_zero n.fraction.reverse with h | ⟨e, es, he, h⟩
    · exact .inl (by rw [h]; rfl)
    · exact .inr ⟨es.reverse, e, he, by rw [h, List.reverse_cons]⟩
  sign := by
    intro h
    rw [negative_stripped, Bool.and_eq_true, Bool.not_eq_true'] at h
    exact h.2

theorem Bare.whole_ne_nil {n : Numeral} (h : n.Bare) : n.whole ≠ [] := by
  rcases h.whole with h | ⟨d, ds, -, h⟩ <;> rw [h] <;> exact List.cons_ne_nil _ _

/-- A number without redundant zeros has nothing to strip. -/
theorem Bare.stripped_eq {n : Numeral} (h : n.Bare) : n.stripped = n := by
  obtain ⟨negative, whole, fraction⟩ := n
  have w : stripWhole whole = whole := by
    rcases h.whole with hw | ⟨d, ds, hd, hw⟩ <;> simp only at hw <;> subst hw
    · rfl
    · simp [stripWhole, hd]
  have f : stripFraction fraction = fraction := by
    rcases h.fraction with hf | ⟨ds, d, hd, hf⟩ <;> simp only at hf <;> subst hf
    · rfl
    · simp [stripFraction, hd]
  have zero := h.sign
  simp only [stripped, w, f]
  cases negative with
  | false => rfl
  | true => simp only [isZero] at zero ⊢; simp [zero]

end Stripping

section Range

variable {n : Numeral}

theorem units_lt (n : Numeral) : n.units < 10 ^ (n.whole.length + n.fraction.length) := by
  simpa [units] using Digit.number_lt (n.whole ++ n.fraction)

/-- A number below one that is not zero has as many units as its digits behind the leading zeros
say. -/
theorem Bare.units_of_whole_zero (h : n.Bare) (zero : n.whole = [0]) (some : n.fraction ≠ []) :
    ∃ r, n.fraction.length = (n.fraction.takeWhile (· == 0)).length + 1 + r ∧
      10 ^ r ≤ n.units ∧ n.units < 10 ^ (r + 1) := by
  have parts := List.takeWhile_append_dropWhile (p := (· == (0 : Digit))) (l := n.fraction)
  have units : n.units = Digit.number (n.fraction.dropWhile (· == 0)) := by
    rw [units_eq, zero]
    conv_lhs => rw [← parts]
    rw [Digit.number_append, number_takeWhile_zero]
    simp
  rcases dropWhile_zero n.fraction with hd | ⟨e, es, he, hd⟩
  · -- The last digit is no zero, so a digit behind the leading zeros remains.
    obtain ⟨ds, d, hne, hf⟩ := h.fraction.resolve_left some
    rw [hd, List.append_nil] at parts
    have : d ∈ n.fraction.takeWhile (· == 0) := by rw [parts, hf]; simp
    exact absurd (eq_zero_of_mem_takeWhile this) hne
  · refine ⟨es.length, ?_, ?_, ?_⟩
    · conv_lhs => rw [← parts, hd, List.length_append, List.length_cons]
      omega
    · rw [units, hd]
      exact Digit.pow_le_number he es
    · rw [units, hd]
      exact Digit.number_lt (e :: es)

theorem pow_le_units {d : Digit} {ds : List Digit} (nonzero : d ≠ 0) (h : n.whole = d :: ds) :
    10 ^ (ds.length + n.fraction.length) ≤ n.units := by
  rw [units, h, List.cons_append, ← List.length_append]
  exact Digit.pow_le_number nonzero _

theorem Bare.value_eq_zero_iff (h : n.Bare) : n.value = 0 ↔ n.isZero = true := by
  rw [← abs_eq_zero, abs_value, div_eq_zero_iff, Nat.cast_eq_zero]
  constructor
  · rintro (none | impossible)
    · rcases h.whole with zero | ⟨d, ds, hd, hw⟩
      · refine isZero_iff.2 ⟨zero, ?_⟩
        by_contra some
        obtain ⟨r, -, low, -⟩ := h.units_of_whole_zero zero some
        exact absurd low (by rw [none]; exact Nat.not_le.2 (Nat.pow_pos (by omega)))
      · have low := pow_le_units hd hw
        exact absurd low (by rw [none]; exact Nat.not_le.2 (Nat.pow_pos (by omega)))
    · exact absurd impossible (by positivity)
  · intro zero
    exact .inl (units_of_isZero zero)

theorem le_abs_value_iff (n : Numeral) :
    1 / 10 ^ 6 ≤ |n.value| ↔ 10 ^ n.fraction.length ≤ n.units * 10 ^ 6 := by
  rw [abs_value, div_le_div_iff₀ (by positivity) (by positivity), one_mul]
  exact_mod_cast Iff.rfl

theorem abs_value_lt_iff (n : Numeral) :
    |n.value| < 10 ^ 21 ↔ n.units < 10 ^ (21 + n.fraction.length) := by
  rw [abs_value, div_lt_iff₀ (by positivity), ← pow_add]
  exact_mod_cast Iff.rfl

/-- Below one, the zeros behind the point tell whether a number reaches the range. -/
theorem Bare.reaches_iff_of_whole_zero (h : n.Bare) (zero : n.whole = [0])
    (some : n.fraction ≠ []) :
    (10 ^ n.fraction.length ≤ n.units * 10 ^ 6 ↔
      (n.fraction.takeWhile (· == 0)).length < 6) ∧
        n.units < 10 ^ (21 + n.fraction.length) := by
  obtain ⟨r, length, low, high⟩ := h.units_of_whole_zero zero some
  refine ⟨⟨fun reaches => ?_, fun zeros => ?_⟩, ?_⟩
  · by_contra zeros
    have short : n.units * 10 ^ 6 < 10 ^ n.fraction.length := calc
      n.units * 10 ^ 6 < 10 ^ (r + 1) * 10 ^ 6 := by omega
      _ = 10 ^ (r + 7) := by ring
      _ ≤ 10 ^ n.fraction.length := Nat.pow_le_pow_right (by omega) (by omega)
    omega
  · calc
      10 ^ n.fraction.length ≤ 10 ^ (r + 6) := Nat.pow_le_pow_right (by omega) (by omega)
      _ = 10 ^ r * 10 ^ 6 := by ring
      _ ≤ n.units * 10 ^ 6 := by omega
  · exact high.trans_le (Nat.pow_le_pow_right (by omega) (by omega))

/-- Counting digits decides whether a number without redundant zeros is in range. -/
theorem Bare.inRange_iff (h : n.Bare) :
    Decimal.InRange n.value ↔ n.whole.length ≤ 21 ∧
      ¬(n.whole = [0] ∧ 6 ≤ (n.fraction.takeWhile (· == 0)).length) := by
  rw [Decimal.InRange, le_abs_value_iff, abs_value_lt_iff, h.value_eq_zero_iff, isZero_iff]
  rcases h.whole with zero | ⟨d, ds, hd, hw⟩
  · by_cases none : n.fraction = []
    · simp [zero, none]
    · obtain ⟨reaches, below⟩ := h.reaches_iff_of_whole_zero zero none
      simp only [zero, none, and_false, false_or, below, and_true, true_and, List.length_singleton,
        Nat.one_le_ofNat, Nat.not_le, reaches]
  · -- The first digit bounds the number from both sides.
    have low := pow_le_units hd hw
    have high := units_lt n
    have notZero : n.whole ≠ [0] := by
      rw [hw]
      simp [hd]
    have reaches : 10 ^ n.fraction.length ≤ n.units * 10 ^ 6 := calc
      10 ^ n.fraction.length ≤ 10 ^ (ds.length + n.fraction.length) :=
        Nat.pow_le_pow_right (by omega) (by omega)
      _ ≤ n.units * 10 ^ 6 := by omega
    simp only [notZero, false_and, false_or, reaches, true_and, not_false_eq_true, and_true]
    rw [hw, List.length_cons] at high ⊢
    constructor
    · intro below
      have := (Nat.pow_lt_pow_iff_right (by omega)).1 (low.trans_lt below)
      omega
    · intro short
      exact high.trans_le (Nat.pow_le_pow_right (by omega) (by omega))

end Range

section Uniqueness

variable {m n : Numeral}

theorem Bare.units_mod (h : n.Bare) (some : n.fraction ≠ []) : n.units % 10 ≠ 0 := by
  obtain ⟨ds, d, hd, hf⟩ := h.fraction.resolve_left some
  rw [units, hf, ← List.append_assoc, Digit.number_concat]
  have : d.val ≠ 0 := fun h => hd (Fin.ext h)
  omega

/-- The last digit behind the point is no zero, so the value fixes how many there are. -/
theorem Bare.length_fraction_le (hn : n.Bare)
    (same : m.units * 10 ^ n.fraction.length = n.units * 10 ^ m.fraction.length) :
    n.fraction.length ≤ m.fraction.length := by
  by_contra longer
  obtain ⟨k, hk⟩ := Nat.exists_eq_add_of_lt (Nat.not_le.1 longer)
  have some : n.fraction ≠ [] := by
    intro h
    rw [h] at longer
    exact longer (Nat.zero_le _)
  have units : n.units = m.units * 10 ^ k * 10 := by
    apply Nat.eq_of_mul_eq_mul_right (Nat.pow_pos (n := m.fraction.length) (by omega : 0 < 10))
    rw [← same, hk]
    ring
  exact hn.units_mod some (by rw [units, Nat.mul_mod_left])

/-- The first digit is no zero unless it stands alone, so the value fixes how many there are. -/
theorem Bare.length_whole_le (hm : m.Bare) (hn : n.Bare) (units : m.units = n.units)
    (fraction : m.fraction.length = n.fraction.length) : m.whole.length ≤ n.whole.length := by
  have high := units_lt n
  rcases hm.whole with hw | ⟨d, ds, hd, hw⟩
  · rw [hw]
    exact List.length_pos_of_ne_nil hn.whole_ne_nil
  · have low := pow_le_units hd hw
    have := (Nat.pow_lt_pow_iff_right (by omega)).1 (low.trans_lt (units ▸ high))
    rw [hw, List.length_cons]
    omega

theorem Bare.value_neg_iff (h : n.Bare) : n.value < 0 ↔ n.negative = true := by
  have nonneg : (0 : ℚ) ≤ n.units / 10 ^ n.fraction.length := by positivity
  cases negative : n.negative with
  | false =>
      simp only [value, negative, Bool.false_eq_true, if_false, one_mul, iff_false, not_lt]
      exact nonneg
  | true =>
      have nonzero : n.value ≠ 0 := by
        rw [Ne, h.value_eq_zero_iff, h.sign negative]
        exact Bool.false_ne_true
      have nonpos : n.value ≤ 0 := by
        simp only [value, negative, if_true, neg_mul, one_mul]
        exact neg_nonpos.2 nonneg
      exact iff_of_true (lt_of_le_of_ne nonpos nonzero) rfl

/-- Among the numbers without redundant zeros the value determines all digits. -/
theorem Bare.eq_of_value_eq (hm : m.Bare) (hn : n.Bare) (same : m.value = n.value) : m = n := by
  have sign : m.negative = n.negative := by
    rw [Bool.eq_iff_iff, ← hm.value_neg_iff, ← hn.value_neg_iff, same]
  have cross : m.units * 10 ^ n.fraction.length = n.units * 10 ^ m.fraction.length := by
    have := congrArg abs same
    rw [abs_value, abs_value, div_eq_div_iff (by positivity) (by positivity)] at this
    exact_mod_cast this
  have fraction : m.fraction.length = n.fraction.length :=
    Nat.le_antisymm (hm.length_fraction_le cross.symm) (hn.length_fraction_le cross)
  have units : m.units = n.units := by
    rw [fraction] at cross
    exact Nat.eq_of_mul_eq_mul_right (Nat.pow_pos (by omega)) cross
  have whole : m.whole.length = n.whole.length :=
    Nat.le_antisymm (hm.length_whole_le hn units fraction)
      (hn.length_whole_le hm units.symm fraction.symm)
  have digits := Digit.number_injective (by simp [whole, fraction]) units
  obtain ⟨first, second⟩ := List.append_inj digits whole
  obtain ⟨_, _, _⟩ := m
  obtain ⟨_, _, _⟩ := n
  simp_all

end Uniqueness

section Grammar

open Decimal

variable {t : Text}

theorem mem_sign : t ∈ (optional (only '-')).matches' ↔ ∃ negative, t = sign negative := by
  rw [mem_optional, mem_only]
  simp [sign]

theorem mem_digits :
    t ∈ (digit * digit.star).matches' ↔ ∃ ds : List Digit, ds ≠ [] ∧ t = ds.map Digit.byte := by
  rw [mem_mul]
  constructor
  · rintro ⟨u, hu, v, hv, rfl⟩
    obtain ⟨d, rfl⟩ := mem_digit.1 hu
    obtain ⟨ds, rfl⟩ := mem_star_digit.1 hv
    exact ⟨d :: ds, List.cons_ne_nil _ _, rfl⟩
  · rintro ⟨_ | ⟨d, ds⟩, h, rfl⟩
    · exact absurd rfl h
    · exact ⟨[d.byte], mem_digit.2 ⟨d, rfl⟩, _, mem_star_digit.2 ⟨ds, rfl⟩, rfl⟩

theorem mem_pointed {r : RegularExpression UInt8} {p : List Digit → Prop} (blank : ¬p [])
    (h : ∀ u, u ∈ r.matches' ↔ ∃ ds, p ds ∧ u = ds.map Digit.byte) :
    t ∈ (optional (only '.' * r)).matches' ↔ ∃ ds, (ds = [] ∨ p ds) ∧ t = pointed ds := by
  rw [mem_optional, mem_mul]
  constructor
  · rintro (rfl | ⟨u, hu, v, hv, rfl⟩)
    · exact ⟨[], .inl rfl, rfl⟩
    · obtain rfl := mem_only.1 hu
      obtain ⟨_ | ⟨d, ds⟩, hp, rfl⟩ := (h v).1 hv
      · exact absurd hp blank
      · exact ⟨d :: ds, .inr hp, rfl⟩
  · rintro ⟨_ | ⟨d, ds⟩, hp, rfl⟩
    · exact .inl rfl
    · exact .inr ⟨_, mem_only.2 rfl, _, (h _).2 ⟨_, hp.resolve_left (List.cons_ne_nil _ _), rfl⟩,
        rfl⟩

theorem mem_bareWhole :
    t ∈ (only '0' + nonzero * digit.star).matches' ↔
      ∃ ds : List Digit, (ds = [0] ∨ ∃ e es, e ≠ 0 ∧ ds = e :: es) ∧ t = ds.map Digit.byte := by
  have split : t ∈ (only '0' + nonzero * digit.star).matches' ↔
      t ∈ (only '0').matches' ∨ t ∈ (nonzero * digit.star).matches' := Iff.rfl
  rw [split, mem_only, mem_mul]
  constructor
  · rintro (rfl | ⟨u, hu, v, hv, rfl⟩)
    · exact ⟨[0], .inl rfl, rfl⟩
    · obtain ⟨d, hd, rfl⟩ := mem_nonzero.1 hu
      obtain ⟨ds, rfl⟩ := mem_star_digit.1 hv
      exact ⟨d :: ds, .inr ⟨d, ds, hd, rfl⟩, rfl⟩
  · rintro ⟨ds, rfl | ⟨e, es, he, rfl⟩, rfl⟩
    · exact .inl rfl
    · exact .inr ⟨[e.byte], mem_nonzero.2 ⟨e, he, rfl⟩, _, mem_star_digit.2 ⟨es, rfl⟩, rfl⟩

theorem mem_bareFraction :
    t ∈ (digit.star * nonzero).matches' ↔
      ∃ ds : List Digit, (∃ es e, e ≠ 0 ∧ ds = es ++ [e]) ∧ t = ds.map Digit.byte := by
  rw [mem_mul]
  constructor
  · rintro ⟨u, hu, v, hv, rfl⟩
    obtain ⟨ds, rfl⟩ := mem_star_digit.1 hu
    obtain ⟨d, hd, rfl⟩ := mem_nonzero.1 hv
    exact ⟨ds ++ [d], ⟨ds, d, hd, rfl⟩, by simp⟩
  · rintro ⟨_, ⟨es, e, he, rfl⟩, rfl⟩
    exact ⟨_, mem_star_digit.2 ⟨es, rfl⟩, [e.byte], mem_nonzero.2 ⟨e, he, rfl⟩, by simp⟩

/-- The texts of the decimal grammar are the spellings of numbers with a whole digit. -/
theorem mem_spelled_iff : t ∈ spelled.matches' ↔ ∃ n : Numeral, n.whole ≠ [] ∧ t = n.spelling := by
  have fraction := fun v : Text => mem_pointed (t := v) (p := (· ≠ [])) (by simp) fun _ => mem_digits
  rw [spelled, mem_mul]
  constructor
  · rintro ⟨_, ⟨s, hs, w, hw, rfl⟩, v, hv, rfl⟩
    obtain ⟨negative, rfl⟩ := mem_sign.1 hs
    obtain ⟨ds, hd, rfl⟩ := mem_digits.1 hw
    obtain ⟨es, -, rfl⟩ := (fraction v).1 hv
    exact ⟨⟨negative, ds, es⟩, hd, rfl⟩
  · rintro ⟨n, h, rfl⟩
    refine ⟨_, ⟨_, mem_sign.2 ⟨n.negative, rfl⟩, _, mem_digits.2 ⟨n.whole, h, rfl⟩, rfl⟩, _,
      (fraction _).2 ⟨n.fraction, em _, rfl⟩, rfl⟩

/-- The canonical texts are the spellings of numbers without redundant zeros. -/
theorem canonical_iff : Canonical t ↔ ∃ n : Numeral, n.Bare ∧ t = n.spelling := by
  have fraction := fun v : Text =>
    mem_pointed (t := v) (p := fun ds => ∃ es e, e ≠ (0 : Digit) ∧ ds = es ++ [e]) (by simp)
      fun _ => mem_bareFraction
  have minusZero : Text.ofString "-0" = spelling ⟨true, [0], []⟩ := by decide
  rw [Canonical, bare, mem_mul, minusZero]
  constructor
  · rintro ⟨⟨_, ⟨s, hs, w, hw, rfl⟩, v, hv, rfl⟩, notMinusZero⟩
    obtain ⟨negative, rfl⟩ := mem_sign.1 hs
    obtain ⟨ds, hd, rfl⟩ := mem_bareWhole.1 hw
    obtain ⟨es, he, rfl⟩ := (fraction v).1 hv
    refine ⟨⟨negative, ds, es⟩, ⟨hd, he, ?_⟩, rfl⟩
    rintro rfl
    by_contra zero
    obtain ⟨rfl, rfl⟩ : ds = [0] ∧ es = [] := isZero_iff.1 (Bool.eq_true_of_not_eq_false zero)
    exact notMinusZero rfl
  · rintro ⟨n, h, rfl⟩
    refine ⟨⟨_, ⟨_, mem_sign.2 ⟨n.negative, rfl⟩, _, mem_bareWhole.2 ⟨n.whole, h.whole, rfl⟩, rfl⟩,
      _, (fraction _).2 ⟨n.fraction, h.fraction, rfl⟩, rfl⟩, ?_⟩
    intro same
    obtain rfl := spelling_injective h.whole_ne_nil (List.cons_ne_nil _ _) same
    exact Bool.noConfusion (h.sign rfl)

end Grammar

section Canonical

variable {t : Text} {name : Name}

theorem toName_eq_ok_iff {n : Numeral} :
    n.toName = .ok name ↔
      (n.whole.length ≤ 21 ∧ ¬(n.whole = [0] ∧ 6 ≤ (n.fraction.takeWhile (· == 0)).length)) ∧
        name.text = n.spelling := by
  unfold toName
  split
  · next long => simp [Nat.not_le.2 long]
  · next short =>
    split
    · next small => simp only [small, and_self, not_true_eq_false, and_false, false_and, reduceCtorEq]
    · next large =>
      rw [Name.ofText_eq_ok_iff]
      simp only [Nat.not_lt.1 short, large, not_false_eq_true, and_self, true_and]

/-- A number has a canonical spelling when its value is in range and its stripped spelling is short
enough for a name. -/
theorem canonical_eq_ok_iff :
    canonical t = .ok name ↔
      ∃ n : Numeral, n.whole ≠ [] ∧ t = n.spelling ∧ Decimal.InRange n.value ∧
        name.text = n.stripped.spelling := by
  have range := fun n : Numeral => n.bare_stripped.inRange_iff
  simp only [value_stripped] at range
  constructor
  · intro h
    obtain ⟨n, hn, named⟩ := bind_eq_ok h
    obtain ⟨whole, rfl⟩ := read_eq_ok_iff.1 hn
    obtain ⟨bounds, spelled⟩ := toName_eq_ok_iff.1 named
    exact ⟨n, whole, rfl, (range n).2 bounds, spelled⟩
  · rintro ⟨n, whole, rfl, bounds, spelled⟩
    have named := toName_eq_ok_iff.2 ⟨(range n).1 bounds, spelled⟩
    rw [canonical, read_eq_ok_iff.2 ⟨whole, rfl⟩]
    exact named

/-- A canonical spelling is its own canonical spelling. -/
theorem canonical_idempotent (h : canonical t = .ok name) : canonical name.text = .ok name := by
  obtain ⟨n, -, -, bounds, spelled⟩ := canonical_eq_ok_iff.1 h
  refine canonical_eq_ok_iff.2 ⟨n.stripped, n.whole_stripped_ne_nil, spelled, ?_, ?_⟩
  · rwa [value_stripped]
  · rw [n.bare_stripped.stripped_eq, spelled]

/-- The canonical spelling is canonical and has the value of the text. -/
theorem canonical_sound (h : canonical t = .ok name) :
    Decimal.Canonical name.text ∧ Decimal.value name.text = Decimal.value t := by
  obtain ⟨n, whole, rfl, -, spelled⟩ := canonical_eq_ok_iff.1 h
  rw [spelled, value_spelling n.whole_stripped_ne_nil, value_spelling whole, value_stripped]
  exact ⟨canonical_iff.2 ⟨_, n.bare_stripped, rfl⟩, rfl⟩

/-- No value has two canonical spellings. -/
theorem eq_of_canonical {c e : Text} (hc : Decimal.Canonical c) (he : Decimal.Canonical e)
    (same : Decimal.value c = Decimal.value e) : c = e := by
  obtain ⟨m, hm, rfl⟩ := canonical_iff.1 hc
  obtain ⟨n, hn, rfl⟩ := canonical_iff.1 he
  rw [value_spelling hm.whole_ne_nil, value_spelling hn.whole_ne_nil] at same
  rw [hm.eq_of_value_eq hn same]

/-- Texts that are accepted have the same canonical spelling exactly when they have the same
value. -/
theorem canonical_eq_iff {u : Text} {other : Name} (h : canonical t = .ok name)
    (k : canonical u = .ok other) : name = other ↔ Decimal.value t = Decimal.value u := by
  obtain ⟨hc, hv⟩ := canonical_sound h
  obtain ⟨kc, kv⟩ := canonical_sound k
  rw [← hv, ← kv]
  constructor
  · rintro rfl
    rfl
  · intro same
    exact Name.ext (eq_of_canonical hc kc same)

/-- A text is accepted when it is a decimal text whose value is in range and has a canonical
spelling short enough for a name. -/
theorem canonical_isOk_iff :
    (∃ name, canonical t = .ok name) ↔
      t ∈ Decimal.spelled.matches' ∧ Decimal.InRange (Decimal.value t) ∧
        ∃ c, Decimal.Canonical c ∧ Decimal.value c = Decimal.value t ∧ c.length ≤ 31 := by
  constructor
  · rintro ⟨name, h⟩
    obtain ⟨canonical, same⟩ := canonical_sound h
    obtain ⟨n, whole, rfl, bounds, -⟩ := canonical_eq_ok_iff.1 h
    refine ⟨mem_spelled_iff.2 ⟨n, whole, rfl⟩, ?_, name.text, canonical, same,
      Nat.le_of_lt_succ name.fits⟩
    rwa [value_spelling whole]
  · rintro ⟨spelled, bounds, c, canonical, same, short⟩
    obtain ⟨n, whole, rfl⟩ := mem_spelled_iff.1 spelled
    -- The stripped spelling is the canonical text that is known to be short.
    have stripped : n.stripped.spelling = c := by
      refine eq_of_canonical (canonical_iff.2 ⟨_, n.bare_stripped, rfl⟩) canonical ?_
      rw [same, value_spelling n.whole_stripped_ne_nil, value_spelling whole, value_stripped]
    rw [value_spelling whole] at bounds
    exact ⟨⟨c, Nat.lt_succ_of_le short⟩,
      canonical_eq_ok_iff.2 ⟨n, whole, rfl, bounds, stripped.symm⟩⟩

/-- The literal type of an accepted text is a single node that is named by the canonical
spelling. -/
theorem numberLiteral_of_canonical {cap : Nat} (room : 0 < cap) (h : canonical t = .ok name) :
    ∃ d, Descriptor.numberLiteral cap t = .ok d ∧
      d.tree = .node ⟨Kind.numberLiteral, name, .none⟩ [] := by
  obtain ⟨d, hd⟩ := (Descriptor.ofTree_total cap
    (.node ⟨Kind.numberLiteral, name, .none⟩ [])).1 room
  refine ⟨d, ?_, Descriptor.tree_of_ofTree hd⟩
  rw [Descriptor.numberLiteral, h]
  exact hd

end Canonical

/-- The canonical spelling of a decimal text. A text is accepted exactly when it is decimal, its
value is in range, and the canonical text of the value has at most 31 bytes. What comes out is the
canonical text of the same value and is its own canonical spelling. Accepted texts, and the literal
types that they name at any capacities, are equal exactly when their values are. -/
theorem canonical_characterised (t : Text) :
    ((∃ name, canonical t = .ok name) ↔
      t ∈ Decimal.spelled.matches' ∧ Decimal.InRange (Decimal.value t) ∧
        ∃ c, Decimal.Canonical c ∧ Decimal.value c = Decimal.value t ∧ c.length ≤ 31) ∧
    (∀ c e, Decimal.Canonical c → Decimal.Canonical e → Decimal.value c = Decimal.value e →
      c = e) ∧
    ∀ name, canonical t = .ok name →
      Decimal.Canonical name.text ∧ Decimal.value name.text = Decimal.value t ∧
      canonical name.text = .ok name ∧
      ∀ u other, canonical u = .ok other →
        (name = other ↔ Decimal.value t = Decimal.value u) ∧
        ∀ m n, 0 < m → 0 < n →
          ∃ d e, Descriptor.numberLiteral m t = .ok d ∧ Descriptor.numberLiteral n u = .ok e ∧
            (d.tree.equiv e.tree = true ↔ Decimal.value t = Decimal.value u) := by
  refine ⟨canonical_isOk_iff, fun c e => eq_of_canonical, fun name h => ?_⟩
  obtain ⟨canonical, same⟩ := canonical_sound h
  refine ⟨canonical, same, canonical_idempotent h, fun u other k => ?_⟩
  refine ⟨canonical_eq_iff h k, fun m n hm hn => ?_⟩
  obtain ⟨d, hd, dtree⟩ := numberLiteral_of_canonical hm h
  obtain ⟨e, he, etree⟩ := numberLiteral_of_canonical hn k
  refine ⟨d, e, hd, he, ?_⟩
  rw [dtree, etree, ← canonical_eq_iff h k, Tree.equiv_leaf]
  simp

/-- A sign, leading zeros and a trailing zero. -/
theorem canonical_characterised_signed :
    canonical (.ofString "-007.50") = .ok ⟨.ofString "-7.5", by decide⟩ ∧
      Decimal.Canonical (.ofString "-7.5") ∧
      Decimal.value (.ofString "-7.5") = Decimal.value (.ofString "-007.50") :=
  have accepted : canonical (.ofString "-007.50") = .ok ⟨.ofString "-7.5", by decide⟩ := by rfl
  have h := (canonical_characterised (.ofString "-007.50")).2.2 _ accepted
  ⟨accepted, h.1, h.2.1⟩

end StructuralTypes.Numeral
