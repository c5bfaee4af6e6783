import StructuralTypes.Proofs.ByteCells

/-!
# Integers as texts

The integers of the fixed widths are written digit by digit, from the value as it is: its sign stays
on it while the digits are taken off, so the least value of a signed type is written like any other.
What is written is the decimal text of the value, which is its own canonical spelling, and the
canonical spelling of every other decimal text of that value.
-/

namespace StructuralTypes

namespace IntegerType

/-- The canonical spelling of a value. Its digits, at least one, are taken off from the last one on
and written behind the sign in reverse order. The text that stands in memory then is spelled. -/
def spell (ty : IntegerType) (v : Int) : Option (Except Fault Name) := do
  let taken ← ty.takeDigit v (.blank : Cells 24)
  let digits ← ty.takeDigits taken.1 taken.2
  let signed ← (if v < 0 then Cells.put .blank (Text.byte '-') else some .blank : Option (Cells 32))
  let written ← digits.drain Cells.put signed
  return Numeral.canonical (← written.text)

variable {ty : IntegerType} {v : Int}

/-- All digits of a value are taken off, the last one first. -/
theorem Contains.digits {size : Nat} (h : ty.Contains v)
    (room : (Text.ofNat v.natAbs).length ≤ size) :
    (do
      let taken ← ty.takeDigit v (.blank : Cells size)
      ty.takeDigits taken.1 taken.2) = some (.holding (Text.ofNat v.natAbs).reverse) := by
  have left : (v.tdiv 10).natAbs = v.natAbs / 10 := Int.natAbs_tdiv v 10
  have digits := Digit.reverse_ofNat v.natAbs
  have count := congrArg List.length digits
  rw [List.length_reverse, List.length_cons] at count
  have rest : ty.takeDigits (v.tdiv 10) (.holding [(Digit.last v.natAbs).byte] : Cells size) =
      some (.holding (Text.ofNat v.natAbs).reverse) := by
    rw [takeDigits_holding (h.between (between_of_tdiv v).2) (by simp [left]; omega), left, digits]
    rfl
  rw [Cells.blank_eq, takeDigit_holding h (by simp; omega)]
  exact rest

/-- Writing a value comes to its end within the rows, and no result on the way leaves the type. -/
theorem Contains.spell_eq (h : ty.Contains v) : ty.spell v = some (Numeral.canonicalInt v) := by
  -- At most 21 digits stand in the first row, and a sign and a zero byte beside them in the second.
  have few : (Text.ofNat v.natAbs).length ≤ 21 := Text.length_ofNat_le (by decide) h.natAbs_lt
  have signed : (if v < 0 then Cells.put .blank (Text.byte '-') else some (.blank : Cells 32)) =
      some (.holding (if v < 0 then [Text.byte '-'] else [])) := by
    rw [Cells.blank_eq]
    split
    · exact Cells.put_holding (by decide) _
    · rfl
  have short : (if v < 0 then [Text.byte '-'] else []).length ≤ 1 := by split <;> decide
  have written : (Cells.holding (Text.ofNat v.natAbs).reverse : Cells 24).drain Cells.put
      (.holding (if v < 0 then [Text.byte '-'] else []) : Cells 32) =
        some (.holding (Text.ofInt v)) := by
    rw [Cells.drain_holding (by simp; omega), List.reverse_reverse, Cells.foldlM_put (by omega),
      Text.ofInt_eq]
  have ended : (Cells.holding (Text.ofInt v) : Cells 32).text = some (Text.ofInt v) := by
    refine Cells.text_holding (Text.zero_notMem_ofInt v) ?_
    rw [Text.ofInt_eq, List.length_append]
    omega
  rw [spell, ← bind_assoc, h.digits (by omega)]
  simp only [Option.bind_eq_bind, Option.bind_some, signed, written, ended]
  rfl

/-- A value is written as its decimal text, without an exponent and without a fault. -/
theorem Contains.exists_name (h : ty.Contains v) :
    ∃ name, Numeral.canonicalInt v = .ok name ∧ name.text = Text.ofInt v := by
  obtain ⟨name, accepted⟩ := Numeral.exists_canonicalInt h.natAbs_lt
  refine ⟨name, accepted, ?_⟩
  obtain ⟨canonical, value⟩ := Numeral.canonical_sound accepted
  obtain ⟨n, bare, -, spelled, -⟩ := Numeral.exists_ofInt v
  exact Numeral.eq_of_canonical canonical (Numeral.canonical_iff.2 ⟨n, bare, spelled⟩) value

/-- Every decimal text of a value has the same canonical spelling. -/
theorem Contains.canonical_eq (h : ty.Contains v) {name : Name}
    (accepted : Numeral.canonicalInt v = .ok name) {t : Text}
    (spelled : t ∈ Decimal.spelled.matches') (same : Decimal.value t = v) :
    Numeral.canonical t = .ok name := by
  obtain ⟨canonical, value⟩ := Numeral.canonical_sound accepted
  rw [Numeral.value_ofInt] at value
  have bounds : Decimal.InRange (Decimal.value t) := same ▸ Numeral.inRange_intCast h.natAbs_lt
  obtain ⟨other, read⟩ := Numeral.canonical_isOk_iff.2 ⟨spelled, bounds, name.text, canonical,
    value.trans same.symm, Nat.le_of_lt_succ name.fits⟩
  obtain rfl : other = name := by
    rw [Numeral.canonical_eq_iff read accepted, Numeral.value_ofInt, same]
  exact read

/-- The integers of 8 to 64 bits are spelled alike on either path. Writing a value of a type never
fails, leaves neither the type nor the rows, and gives the decimal text of the value: a canonical
text without a fraction that denotes it. Every decimal text of the value, with zeros in front or
behind a point, has this canonical spelling, and no other value of any of the types has it. -/
theorem integer_path_agrees (ty : IntegerType) (v : Int) (h : ty.Contains v) :
    ∃ name, ty.spell v = some (.ok name) ∧ Numeral.canonicalInt v = .ok name ∧
      name.text = Text.ofInt v ∧ Decimal.Canonical name.text ∧ name.text.hasFraction = false ∧
      Decimal.value name.text = v ∧
      (∀ t ∈ Decimal.spelled.matches', Decimal.value t = v → Numeral.canonical t = .ok name) ∧
      ∀ (other : IntegerType) (w : Int), other.Contains w →
        (other.spell w = some (.ok name) ↔ w = v) := by
  obtain ⟨name, accepted, text⟩ := h.exists_name
  obtain ⟨canonical, value⟩ := Numeral.canonical_sound accepted
  obtain ⟨n, -, whole, spelled, -⟩ := Numeral.exists_ofInt v
  refine ⟨name, by rw [h.spell_eq, accepted], accepted, text, canonical, ?_, ?_, ?_, ?_⟩
  · rw [text, spelled, Numeral.hasFraction_spelling, whole]
    rfl
  · rw [value, Numeral.value_ofInt]
  · exact fun t spelled same => h.canonical_eq accepted spelled same
  · intro other w k
    rw [k.spell_eq]
    constructor
    · intro same
      have denoted := (Numeral.canonical_sound (Option.some.inj same)).2
      rw [value, Numeral.value_ofInt, Numeral.value_ofInt] at denoted
      exact_mod_cast denoted.symm
    · rintro rfl
      rw [accepted]

/-- The least value of 64 bits cannot be negated within them. It is written all the same, and a text
with zeros in front and behind the point is spelled like it. -/
theorem integer_path_agrees_least :
    (⟨true, .bits64⟩ : IntegerType).Contains (-9223372036854775808) ∧
      ¬ (⟨true, .bits64⟩ : IntegerType).Contains 9223372036854775808 ∧
      ∃ name, (⟨true, .bits64⟩ : IntegerType).spell (-9223372036854775808) = some (.ok name) ∧
        name.text = .ofString "-9223372036854775808" ∧
        Numeral.canonical (.ofString "-009223372036854775808.0") = .ok name := by
  have least : (⟨true, .bits64⟩ : IntegerType).Contains (-9223372036854775808) := by decide
  obtain ⟨name, spelled, -, text, -, -, -, others, -⟩ :=
    integer_path_agrees ⟨true, .bits64⟩ (-9223372036854775808) least
  let n : Numeral :=
    ⟨true, [0, 0, 9, 2, 2, 3, 3, 7, 2, 0, 3, 6, 8, 5, 4, 7, 7, 5, 8, 0, 8], [0]⟩
  have written : Text.ofString "-009223372036854775808.0" = n.spelling := by decide
  have whole : n.whole ≠ [] := List.cons_ne_nil _ _
  have value : n.value = (-9223372036854775808 : Int) := by
    have units : n.units = 92233720368547758080 := by rfl
    rw [Numeral.value, units]
    norm_num [n]
  refine ⟨least, by decide, name, spelled, text, ?_⟩
  rw [written]
  exact others _ (Numeral.mem_spelled_iff.2 ⟨n, whole, rfl⟩)
    ((Numeral.value_spelling whole).trans value)

end IntegerType

end StructuralTypes
