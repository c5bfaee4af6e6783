import Mathlib.Algebra.Order.Field.Rat
import Mathlib.Computability.RegularExpressions
import Mathlib.Data.Nat.Digits.Lemmas
import Mathlib.Tactic.FieldSimp
import Mathlib.Tactic.Linarith
import Mathlib.Tactic.Ring
import StructuralTypes.Numeral

/-!
# Decimal texts and their values

Two regular expressions describe decimal texts: those that spell a number, and those that spell it
without redundant zeros. The value of a decimal text is read off its digits by position. Two texts
without redundant zeros, neither of them a negative zero, have the same value only if they are the
same text.
-/

namespace StructuralTypes

namespace Digit

/-- The natural number that digits spell, most significant first. -/
def number (ds : List Digit) : Nat := Nat.ofDigits 10 (ds.map Fin.val).reverse

private theorem map_val_lt (ds : List Digit) : ∀ v ∈ (ds.map Fin.val).reverse, v < 10 := by
  intro v hv
  obtain ⟨d, -, rfl⟩ := List.mem_map.1 (List.mem_reverse.1 hv)
  exact d.isLt

theorem number_append (as bs : List Digit) :
    number (as ++ bs) = number as * 10 ^ bs.length + number bs := by
  simp only [number, List.map_append, List.reverse_append, Nat.ofDigits_append,
    List.length_reverse, List.length_map]
  ring

@[simp] theorem number_singleton (d : Digit) : number [d] = d.val := by
  simp [number]

theorem number_cons (d : Digit) (ds : List Digit) :
    number (d :: ds) = d.val * 10 ^ ds.length + number ds := by
  rw [← List.singleton_append, number_append, number_singleton]

theorem number_concat (ds : List Digit) (d : Digit) :
    number (ds ++ [d]) = number ds * 10 + d.val := by
  rw [number_append, number_singleton, List.length_singleton, pow_one]

theorem number_lt (ds : List Digit) : number ds < 10 ^ ds.length := by
  simpa [number] using Nat.ofDigits_lt_base_pow_length (by omega) (map_val_lt ds)

theorem pow_le_number {d : Digit} (h : d ≠ 0) (ds : List Digit) :
    10 ^ ds.length ≤ number (d :: ds) := by
  have positive : 0 < d.val := Nat.pos_of_ne_zero fun h' => h (Fin.ext h')
  calc
    10 ^ ds.length ≤ d.val * 10 ^ ds.length := Nat.le_mul_of_pos_left _ positive
    _ ≤ number (d :: ds) := by rw [number_cons]; omega

theorem number_injective {as bs : List Digit} (same : as.length = bs.length)
    (h : number as = number bs) : as = bs := by
  have := Nat.ofDigits_inj_of_len_eq (b := 10) (by omega) (by simpa using same) (map_val_lt as)
    (map_val_lt bs) h
  exact List.map_injective_iff.2 Fin.val_injective (List.reverse_injective this)

theorem toNat_byte (d : Digit) : d.byte.toNat = 48 + d.val := by
  revert d
  decide

theorem byte_of_ofByte? {b : UInt8} {d : Digit} (h : ofByte? b = some d) : d.byte = b := by
  unfold ofByte? at h
  split at h
  · next range =>
    cases h
    have low : (48 : UInt8).toNat ≤ b.toNat := UInt8.le_iff_toNat_le.1 range.1
    apply UInt8.toNat_inj.1
    rw [toNat_byte]
    change 48 ≤ b.toNat at low
    change 48 + (b.toNat - 48) = b.toNat
    omega
  · cases h

theorem byte_ne_point (d : Digit) : d.byte ≠ Text.byte '.' := by
  revert d
  decide

theorem byte_ne_minus (d : Digit) : d.byte ≠ Text.byte '-' := by
  revert d
  decide

@[simp] theorem ofByte?_point : ofByte? (Text.byte '.') = none := by decide

/-- A text is the run of digits at its start, followed by the rest. -/
theorem eq_append_of_span {t rest : Text} {ds : List Digit} (h : span t = (ds, rest)) :
    t = ds.map byte ++ rest := by
  induction t generalizing ds rest with
  | nil =>
      cases h
      rfl
  | cons b t ih =>
      rw [span] at h
      split at h
      · next d hd =>
        cases h
        have tail : t = (span t).1.map byte ++ (span t).2 := ih rfl
        rw [List.map_cons, List.cons_append, byte_of_ofByte? hd]
        exact congrArg (b :: ·) tail
      · cases h
        rfl

/-- The run of digits ends where no digit follows. -/
theorem span_map_byte_append (ds : List Digit) {rest : Text}
    (stop : rest = [] ∨ ∃ b bs, rest = b :: bs ∧ ofByte? b = none) :
    span (ds.map byte ++ rest) = (ds, rest) := by
  induction ds with
  | nil =>
      rcases stop with rfl | ⟨b, bs, rfl, hb⟩
      · rfl
      · simp [span, hb]
  | cons d ds ih => simp [span, ih]

end Digit

namespace Decimal

open RegularExpression

/-- One of some bytes. -/
def oneOf (bytes : Text) : RegularExpression UInt8 := (bytes.map char).foldr (· + ·) 0

/-- `[0-9]` -/
def digit : RegularExpression UInt8 := oneOf (.ofString "0123456789")

/-- `[1-9]` -/
def nonzero : RegularExpression UInt8 := oneOf (.ofString "123456789")

/-- `r?` -/
def optional (r : RegularExpression UInt8) : RegularExpression UInt8 := 1 + r

/-- The byte of an ASCII character. -/
def only (c : Char) : RegularExpression UInt8 := char (Text.byte c)

/-- `-?[0-9]+(\.[0-9]+)?` -/
def spelled : RegularExpression UInt8 :=
  optional (only '-') * (digit * digit.star) * optional (only '.' * (digit * digit.star))

/-- `-?(0|[1-9][0-9]*)(\.[0-9]*[1-9])?` -/
def bare : RegularExpression UInt8 :=
  optional (only '-') * (only '0' + nonzero * digit.star) *
    optional (only '.' * (digit.star * nonzero))

/-- A text without redundant zeros that is not a negative zero. -/
def Canonical (t : Text) : Prop := t ∈ bare.matches' ∧ t ≠ .ofString "-0"

/-- The natural number that the bytes of a text spell when they are digits. -/
def number (t : Text) : Nat := Nat.ofDigits 10 (t.map fun b => b.toNat - 48).reverse

/-- The number that a decimal text without sign spells. -/
def magnitude (t : Text) : ℚ :=
  let whole := t.takeWhile (· != Text.byte '.')
  let fraction := (t.dropWhile (· != Text.byte '.')).drop 1
  number whole + number fraction / 10 ^ fraction.length

/-- The rational number that a decimal text spells. -/
def value (t : Text) : ℚ := if t.isNegative then -magnitude (t.drop 1) else magnitude t

/-- Zero, or at least `10 ^ (-6)` and less than `10 ^ 21` in magnitude. -/
def InRange (v : ℚ) : Prop := v = 0 ∨ 1 / 10 ^ 6 ≤ |v| ∧ |v| < 10 ^ 21

section Matching

variable {t : Text}

theorem mem_only {c : Char} : t ∈ (only c).matches' ↔ t = [Text.byte c] := Iff.rfl

theorem mem_optional {r : RegularExpression UInt8} :
    t ∈ (optional r).matches' ↔ t = [] ∨ t ∈ r.matches' := Iff.rfl

theorem mem_mul {r s : RegularExpression UInt8} :
    t ∈ (r * s).matches' ↔ ∃ u ∈ r.matches', ∃ v ∈ s.matches', u ++ v = t := Iff.rfl

theorem mem_oneOf {bytes : Text} : t ∈ (oneOf bytes).matches' ↔ ∃ b ∈ bytes, t = [b] := by
  induction bytes with
  | nil => simp [oneOf, Language.notMem_zero]
  | cons b bs ih =>
      have h : t ∈ (oneOf (b :: bs)).matches' ↔ t = [b] ∨ t ∈ (oneOf bs).matches' := Iff.rfl
      simp [h, ih]

theorem mem_digit : t ∈ digit.matches' ↔ ∃ d : Digit, t = [d.byte] := by
  have h : Text.ofString "0123456789" = (List.finRange 10).map Digit.byte := by decide
  simp [digit, mem_oneOf, h]

theorem mem_nonzero : t ∈ nonzero.matches' ↔ ∃ d : Digit, d ≠ 0 ∧ t = [d.byte] := by
  have h : Text.ofString "123456789" = ((List.finRange 10).filter (· ≠ 0)).map Digit.byte := by
    decide
  simp [nonzero, mem_oneOf, h]

theorem mem_star_digit : t ∈ digit.star.matches' ↔ ∃ ds : List Digit, t = ds.map Digit.byte := by
  rw [matches'_star, Language.mem_kstar]
  constructor
  · rintro ⟨parts, rfl, h⟩
    induction parts with
    | nil => exact ⟨[], rfl⟩
    | cons p parts ih =>
        obtain ⟨d, rfl⟩ := mem_digit.1 (h p List.mem_cons_self)
        obtain ⟨ds, hds⟩ := ih fun q hq => h q (List.mem_cons_of_mem _ hq)
        exact ⟨d :: ds, by simp [hds]⟩
  · rintro ⟨ds, rfl⟩
    refine ⟨ds.map fun d => [d.byte], by rw [List.map_eq_flatMap, List.flatMap_def], ?_⟩
    intro p hp
    obtain ⟨d, -, rfl⟩ := List.mem_map.1 hp
    exact mem_digit.2 ⟨d, rfl⟩

end Matching

end Decimal

end StructuralTypes
