import StructuralTypes.Name

/-!
# Numerals

A numeric literal type is named by the canonical spelling of its number: no leading zeros, no
trailing zeros after the point, no point without a digit behind it, and zero without a sign.
Numbers are never computed. A number that is usually written with an exponent has no canonical
spelling.
-/

namespace StructuralTypes

/-- A decimal digit. -/
abbrev Digit := Fin 10

namespace Digit

/-- The digit that a byte spells. -/
def ofByte? (b : UInt8) : Option Digit :=
  if h : Text.byte '0' ≤ b ∧ b.toNat - 48 < 10 then some ⟨b.toNat - 48, h.2⟩ else none

/-- The byte that spells a digit. -/
def byte (d : Digit) : UInt8 := Text.byte '0' + d.val.toUInt8

@[simp] theorem ofByte?_byte (d : Digit) : ofByte? d.byte = some d := by
  revert d
  decide

/-- The longest run of digits at the start of a text, and the rest. -/
def span : Text → List Digit × Text
  | [] => ([], [])
  | b :: bs =>
    match ofByte? b with
    | some d => (span bs).map (d :: ·) id
    | none => ([], b :: bs)

end Digit

/-- A decimal number with its sign, its whole digits and the digits behind its point. -/
structure Numeral where
  negative : Bool
  whole : List Digit
  fraction : List Digit
deriving DecidableEq

namespace Numeral

/-- The digits behind the point, if there is one. Nothing may follow them. -/
def readFraction : Text → Except Fault (List Digit)
  | [] => .ok []
  | b :: bs =>
    if b = Text.byte '.' then
      match Digit.span bs with
      | ([], _) => .error .missingFraction
      | (fraction, []) => .ok fraction
      | (_, _ :: _) => .error .strayCharacter
    else .error .strayCharacter

/-- The number that a text spells: an optional minus, digits, and an optional fraction. -/
def read (t : Text) : Except Fault Numeral := do
  let negative := t.isNegative
  match Digit.span (if negative then t.drop 1 else t) with
  | ([], _) => .error .missingDigits
  | (whole, rest) => return ⟨negative, whole, ← readFraction rest⟩

/-- The number is zero once its zeros are stripped. -/
def isZero (n : Numeral) : Bool := n.whole == [0] && n.fraction.isEmpty

/-- The whole digits without leading zeros; at least one digit stays. -/
def stripWhole (digits : List Digit) : List Digit :=
  match digits.dropWhile (· == 0) with
  | [] => [0]
  | d :: ds => d :: ds

/-- The digits behind the point without trailing zeros. -/
def stripFraction (digits : List Digit) : List Digit :=
  (digits.reverse.dropWhile (· == 0)).reverse

/-- The number without redundant zeros. Zero loses its sign. -/
def stripped (n : Numeral) : Numeral :=
  let bare : Numeral := ⟨n.negative, stripWhole n.whole, stripFraction n.fraction⟩
  { bare with negative := bare.negative && !bare.isZero }

/-- The spelling of a number as it stands. -/
def spelling (n : Numeral) : Text :=
  (if n.negative then [Text.byte '-'] else []) ++ n.whole.map Digit.byte ++
    (if n.fraction.isEmpty then [] else Text.byte '.' :: n.fraction.map Digit.byte)

/-- The name of a stripped number: at most 21 whole digits, fewer than six zeros behind the point of
a number below one, and at most 31 bytes in all. -/
def toName (n : Numeral) : Except Fault Name :=
  if 21 < n.whole.length then .error .magnitudeTooLarge
  else if n.whole = [0] ∧ 6 ≤ (n.fraction.takeWhile (· == 0)).length then
    .error .magnitudeTooSmall
  else Name.ofText .numeralTooLong n.spelling

/-- The canonical spelling of the number that a text spells. -/
def canonical (t : Text) : Except Fault Name := do (← read t).stripped.toName

/-- The canonical spelling of an integer. -/
def canonicalInt (v : Int) : Except Fault Name := canonical (.ofInt v)

end Numeral

/-- The widths of the integer types. -/
inductive Width
  | bits8
  | bits16
  | bits32
  | bits64
deriving DecidableEq

/-- Half the number of values of a width. -/
def Width.half : Width → Nat
  | bits8 => 128
  | bits16 => 32768
  | bits32 => 2147483648
  | bits64 => 9223372036854775808

/-- An integer type of fixed width. -/
structure IntegerType where
  signed : Bool
  width : Width
deriving DecidableEq

namespace IntegerType

/-- The least value. -/
def min (ty : IntegerType) : Int := if ty.signed then -ty.width.half else 0

/-- The greatest value. -/
def max (ty : IntegerType) : Int :=
  if ty.signed then ty.width.half - 1 else 2 * ty.width.half - 1

/-- A value of the type. -/
def Contains (ty : IntegerType) (v : Int) : Prop := ty.min ≤ v ∧ v ≤ ty.max

instance (ty : IntegerType) (v : Int) : Decidable (ty.Contains v) :=
  inferInstanceAs (Decidable (_ ∧ _))

end IntegerType

end StructuralTypes
