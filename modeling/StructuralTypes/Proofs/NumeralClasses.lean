import Mathlib.Data.Rat.Lemmas
import StructuralTypes.Proofs.CanonicalNumeral
import StructuralTypes.Tree.Category

/-!
# Classes of numbers told from their spelling

The classifiers of a numeric literal type look for a minus at the start of its name and for a point
in it. That is enough, because the name is spelled without redundant zeros: there is a point only in
front of a digit other than zero, and a minus never stands before zero. The integers of the fixed
widths are spelled like that from the beginning.
-/

namespace StructuralTypes

namespace Numeral

section Spelling

variable {n : Numeral}

theorem byte_minus_ne_point : Text.byte '-' ≠ Text.byte '.' := by decide

/-- There is a point in the spelling of a number with digits behind it, and in no other. -/
theorem hasFraction_spelling (n : Numeral) : n.spelling.hasFraction = !n.fraction.isEmpty := by
  have digits : ∀ ds : List Digit, Text.byte '.' ∉ ds.map Digit.byte := by
    intro ds inside
    obtain ⟨d, -, same⟩ := List.mem_map.1 inside
    exact d.byte_ne_point same
  have unsigned : Text.byte '.' ∉ sign n.negative := by
    cases n.negative <;> simp [sign, byte_minus_ne_point.symm]
  rw [Bool.eq_iff_iff, Text.hasFraction, List.contains_iff_mem, spelling_eq, List.mem_append,
    List.mem_append, or_iff_right (not_or.2 ⟨unsigned, digits _⟩), pointed]
  cases n.fraction <;> simp

/-- A number is an integer when its units are whole powers of ten. -/
theorem isInt_value_iff (n : Numeral) :
    n.value.isInt = true ↔ 10 ^ n.fraction.length ∣ n.units := by
  have cast : (n.units / 10 ^ n.fraction.length : ℚ) =
      (n.units : ℚ) / ((10 ^ n.fraction.length : ℕ) : ℚ) := by push_cast; rfl
  rw [Rat.isInt, beq_iff_eq, ← Rat.den_div_natCast_eq_one_iff _ _ (by positivity), ← cast, value]
  cases n.negative with
  | true => rw [if_pos rfl, neg_one_mul, Rat.neg_den]
  | false => rw [if_neg Bool.false_ne_true, one_mul]

/-- A number without redundant zeros is an integer when no digits stand behind its point. -/
theorem Bare.isInt_value (h : n.Bare) : n.value.isInt = n.fraction.isEmpty := by
  rw [Bool.eq_iff_iff, isInt_value_iff, List.isEmpty_iff]
  constructor
  · intro whole
    by_contra some
    have tens : 10 ∣ n.units := by
      refine dvd_trans (dvd_pow_self 10 ?_) whole
      exact (List.length_pos_of_ne_nil some).ne'
    exact h.units_mod some (Nat.mod_eq_zero_of_dvd tens)
  · intro none
    rw [none]
    exact one_dvd n.units

theorem Bare.isNegative_eq (h : n.Bare) : n.spelling.isNegative = decide (n.value < 0) := by
  rw [isNegative_spelling h.whole_ne_nil, Bool.eq_iff_iff, decide_eq_true_iff, h.value_neg_iff]

end Spelling

section Integers

/-- The decimal digits of a natural number start with a zero only if there are no others. -/
theorem exists_digits (n : Nat) :
    ∃ ds : List Digit, Text.ofNat n = ds.map Digit.byte ∧ Digit.number ds = n ∧
      (ds = [0] ∨ ∃ d es, d ≠ 0 ∧ ds = d :: es) := by
  have spelled : ∀ d : Digit, Text.byte d.val.digitChar = d.byte := by decide
  induction n using Nat.strongRecOn with
  | _ n ih =>
      rw [Text.ofNat, Nat.toDigits_eq_if (by omega)]
      split
      · next small =>
        refine ⟨[⟨n, small⟩], by rw [List.map_singleton, spelled ⟨n, small⟩]; rfl, by simp, ?_⟩
        rcases Nat.eq_zero_or_pos n with rfl | positive
        · exact .inl rfl
        · exact .inr ⟨⟨n, small⟩, [], fun zero => positive.ne' (Fin.val_eq_of_eq zero), rfl⟩
      · next large =>
        obtain ⟨ds, digits, number, first⟩ := ih (n / 10) (by omega)
        let last : Digit := ⟨n % 10, Nat.mod_lt n (by omega)⟩
        refine ⟨ds ++ [last], ?_, ?_, ?_⟩
        · rw [List.map_append, List.map_append, ← digits, List.map_singleton, spelled last]
          rfl
        · rw [Digit.number_concat, number]
          exact Nat.div_add_mod' n 10
        · rcases first with rfl | ⟨d, es, nonzero, rfl⟩
          · have none : n / 10 = 0 := number.symm
            omega
          · exact .inr ⟨d, es ++ [last], nonzero, rfl⟩

theorem value_of_digits {n : Numeral} (whole : n.fraction = []) :
    n.value = (if n.negative then -1 else 1) * (Digit.number n.whole : ℚ) := by
  rw [value, units, whole, List.append_nil, List.length_nil, pow_zero, div_one]

/-- The decimal spelling of an integer is that of a number without redundant zeros and without a
fraction, which has the integer as its value. -/
theorem exists_ofInt (v : Int) :
    ∃ n : Numeral, n.Bare ∧ n.fraction = [] ∧ Text.ofInt v = n.spelling ∧ n.value = v := by
  cases v with
  | ofNat m =>
      obtain ⟨ds, digits, number, first⟩ := exists_digits m
      refine ⟨⟨false, ds, []⟩, ⟨first, .inl rfl, nofun⟩, rfl, ?_, ?_⟩
      · rw [Text.ofInt, digits, spelling_eq]
        exact (List.append_nil _).symm
      · rw [value_of_digits rfl, number, if_neg Bool.false_ne_true, one_mul]
        rfl
  | negSucc m =>
      obtain ⟨ds, digits, number, first⟩ := exists_digits (m + 1)
      have nonzero : isZero ⟨true, ds, []⟩ = false := by
        by_contra zero
        obtain ⟨alone, -⟩ := isZero_iff.1 (Bool.eq_true_of_not_eq_false zero)
        simp only at alone
        rw [alone] at number
        exact Nat.succ_ne_zero m number.symm
      refine ⟨⟨true, ds, []⟩, ⟨first, .inl rfl, fun _ => nonzero⟩, rfl, ?_, ?_⟩
      · rw [Text.ofInt, digits, spelling_eq]
        exact (List.append_nil _).symm
      · rw [value_of_digits rfl, number, if_pos rfl, Int.cast_negSucc]
        push_cast
        ring

/-- The decimal spelling of an integer has the integer as its value. -/
theorem value_ofInt (v : Int) : Decimal.value (.ofInt v) = v := by
  obtain ⟨n, bare, -, spelled, value⟩ := exists_ofInt v
  rw [spelled, value_spelling bare.whole_ne_nil, value]

/-- An integer of at most 21 digits is written without an exponent. -/
theorem inRange_intCast {v : Int} (small : v.natAbs < 10 ^ 21) : Decimal.InRange v := by
  have size : |(v : ℚ)| = (v.natAbs : ℚ) := by rw [Nat.cast_natAbs, Int.cast_abs]
  rcases Nat.eq_zero_or_pos v.natAbs with zero | positive
  · exact .inl (by rw [Int.natAbs_eq_zero.1 zero, Int.cast_zero])
  · have one : (1 : ℚ) ≤ v.natAbs := Nat.one_le_cast.2 positive
    have below : (v.natAbs : ℚ) < 10 ^ 21 := by exact_mod_cast small
    refine .inr ⟨?_, size ▸ below⟩
    rw [size]
    exact le_trans (by norm_num) one

/-- An integer of at most 21 digits has a canonical spelling. -/
theorem exists_canonicalInt {v : Int} (small : v.natAbs < 10 ^ 21) :
    ∃ name, canonicalInt v = .ok name := by
  obtain ⟨n, bare, fraction, spelled, value⟩ := exists_ofInt v
  have inRange : Decimal.InRange n.value := value ▸ inRange_intCast small
  have few : n.whole.length ≤ 21 := (bare.inRange_iff.1 inRange).1
  have short : n.spelling.length < 32 := by
    have sign : (sign n.negative).length ≤ 1 := by cases n.negative <;> simp [sign]
    have point : (pointed n.fraction).length = 0 := by rw [fraction]; rfl
    rw [spelling_eq, List.length_append, List.length_append, List.length_map, point]
    omega
  refine ⟨⟨n.spelling, short⟩, canonical_eq_ok_iff.2 ⟨n, bare.whole_ne_nil, spelled, inRange, ?_⟩⟩
  rw [bare.stripped_eq]

end Integers

end Numeral

/-- Half the number of values of a width has at most 20 digits. -/
theorem IntegerType.Contains.natAbs_lt {ty : IntegerType} {v : Int} (h : ty.Contains v) :
    v.natAbs < 10 ^ 21 := by
  obtain ⟨low, high⟩ := h
  obtain ⟨signed, width⟩ := ty
  cases signed <;> cases width <;> simp only [min, max, Width.half] at low high <;> omega

/-- The classifiers answer for a type as arithmetic does for a number. -/
structure Tree.ClassifiedAs (t : Tree) (v : ℚ) : Prop where
  integer : t.isInteger = .ok v.isInt
  negative : t.isNegative = .ok (decide (v < 0))
  positive : t.isPositive = .ok (decide (0 ≤ v))
  positiveInteger : t.isPositiveInteger = .ok (v.isInt && decide (0 ≤ v))
  negativeInteger : t.isNegativeInteger = .ok (v.isInt && decide (v < 0))

namespace Numeral

section Classification

variable {cap : Nat} {t : Text} {name : Name} {d : Descriptor cap}

/-- A literal type that is named by a number without redundant zeros is classified as that
number is. -/
theorem Bare.classifiedAs {n : Numeral} (h : n.Bare) (named : name.text = n.spelling) :
    (Tree.node ⟨Kind.numberLiteral, name, .none⟩ []).ClassifiedAs n.value := by
  have numeral : (Tree.node ⟨Kind.numberLiteral, name, .none⟩ []).numeral = .ok n.spelling :=
    congrArg Except.ok named
  have integer : (Tree.node ⟨Kind.numberLiteral, name, .none⟩ []).isInteger =
      .ok n.value.isInt := by
    rw [Tree.isInteger, numeral, h.isInt_value, ← Bool.not_not n.fraction.isEmpty,
      ← hasFraction_spelling]
    rfl
  have negative : (Tree.node ⟨Kind.numberLiteral, name, .none⟩ []).isNegative =
      .ok (decide (n.value < 0)) := by
    rw [Tree.isNegative, numeral, ← h.isNegative_eq]
    rfl
  have positive : (Tree.node ⟨Kind.numberLiteral, name, .none⟩ []).isPositive =
      .ok (decide (0 ≤ n.value)) := by
    have opposite : decide (0 ≤ n.value) = !decide (n.value < 0) := by simp [← decide_not]
    rw [Tree.isPositive, numeral, opposite, ← h.isNegative_eq]
    rfl
  refine ⟨integer, negative, positive, ?_, ?_⟩
  · rw [Tree.isPositiveInteger, positive, integer, Bool.and_comm]
    cases decide (0 ≤ n.value) <;> rfl
  · rw [Tree.isNegativeInteger, negative, integer, Bool.and_comm]
    cases decide (n.value < 0) <;> rfl

/-- An accepted text names a literal type that is classified as the value of the text is. -/
theorem classifiedAs_of_numberLiteral (made : Descriptor.numberLiteral cap t = .ok d) :
    d.tree.ClassifiedAs (Decimal.value t) := by
  obtain ⟨name, accepted, built⟩ := bind_eq_ok made
  obtain ⟨n, whole, rfl, -, named⟩ := canonical_eq_ok_iff.1 accepted
  rw [Descriptor.tree_of_ofTree built, value_spelling whole, ← value_stripped]
  exact n.bare_stripped.classifiedAs named

/-- Every value of a fixed width names a literal type, which is classified as the value is. -/
theorem exists_integerLiteral {ty : IntegerType} {v : Int} (h : ty.Contains v) (room : 0 < cap) :
    ∃ d, Descriptor.integerLiteral cap v = .ok d ∧ d.tree.ClassifiedAs v := by
  obtain ⟨name, accepted⟩ := exists_canonicalInt h.natAbs_lt
  obtain ⟨d, made, -⟩ := numberLiteral_of_canonical room accepted
  refine ⟨d, made, ?_⟩
  rw [← value_ofInt v]
  exact classifiedAs_of_numberLiteral made

end Classification

/-- Looking for a minus and for a point classifies numbers as arithmetic does: for every accepted
text by the rational number that it denotes, and for every value of a signed or unsigned integer
type of 8 to 64 bits, all of which are accepted. -/
theorem literal_classes_arithmetic (cap : Nat) :
    (∀ (t : Text) (d : Descriptor cap), Descriptor.numberLiteral cap t = .ok d →
      d.tree.ClassifiedAs (Decimal.value t)) ∧
    ∀ (ty : IntegerType) (v : Int), ty.Contains v → 0 < cap →
      ∃ d, Descriptor.integerLiteral cap v = .ok d ∧ d.tree.ClassifiedAs v :=
  ⟨fun _ _ => classifiedAs_of_numberLiteral, fun _ _ => exists_integerLiteral⟩

/-- A zero with a sign and a fraction is a positive integer, and the least value of 8 bits a
negative one. -/
theorem literal_classes_arithmetic_zero :
    (∃ d : Descriptor 1, Descriptor.numberLiteral 1 (.ofString "-0.00") = .ok d ∧
      Decimal.value (.ofString "-0.00") = 0 ∧ d.tree.isPositiveInteger = .ok true) ∧
    ∃ d : Descriptor 1, Descriptor.integerLiteral 1 (-128) = .ok d ∧
      d.tree.isNegativeInteger = .ok true := by
  constructor
  · have accepted : canonical (.ofString "-0.00") = .ok ⟨.ofString "0", by decide⟩ := by rfl
    obtain ⟨d, made, -⟩ := numberLiteral_of_canonical Nat.one_pos accepted
    have zero : Decimal.value (.ofString "-0.00") = 0 := by
      have spelled : Text.ofString "-0.00" = spelling ⟨true, [0], [0, 0]⟩ := by decide
      have none : units ⟨true, [0], [0, 0]⟩ = 0 := number_eq_zero (by decide)
      rw [spelled, value_spelling (List.cons_ne_nil _ _), value, none, Nat.cast_zero, zero_div,
        mul_zero]
    refine ⟨d, made, zero, ?_⟩
    have classes := (literal_classes_arithmetic 1).1 _ d made
    rw [zero] at classes
    exact classes.positiveInteger
  · have within : IntegerType.Contains ⟨true, .bits8⟩ (-128) := by decide
    obtain ⟨d, made, classes⟩ := (literal_classes_arithmetic 1).2 _ _ within Nat.one_pos
    refine ⟨d, made, classes.negativeInteger.trans ?_⟩
    decide +kernel

end Numeral

end StructuralTypes
