/-!
# Byte texts

Keys, spellings and messages are byte texts: their lengths, limits and cuts count bytes, so a text
may end in the middle of a character.
-/

namespace StructuralTypes

/-- A text as the list of its bytes. -/
abbrev Text := List UInt8

namespace Text

/-- The byte of an ASCII character. -/
def byte (c : Char) : UInt8 := c.toNat.toUInt8

/-- The UTF-8 bytes of a string. -/
def ofString (s : String) : Text := s.toList.flatMap String.utf8EncodeChar

/-- The bytes before the first zero byte. -/
def untilZero (t : Text) : Text := t.takeWhile (· != 0)

/-- What a field of `cells` bytes keeps of a text: one byte is reserved for its end. -/
def clip (cells : Nat) (t : Text) : Text := t.take (cells - 1)

theorem length_clip_le (cells : Nat) (t : Text) : (t.clip cells).length ≤ cells - 1 :=
  List.length_take_le ..

theorem clip_of_le {cells : Nat} {t : Text} (few : t.length ≤ cells - 1) : t.clip cells = t :=
  List.take_of_length_le few

/-- The ASCII decimal digits. -/
def isDigit (b : UInt8) : Bool := byte '0' ≤ b && b ≤ byte '9'

/-- The decimal digits of a number, most significant first. -/
def ofNat (n : Nat) : Text := (Nat.toDigits 10 n).map byte

/-- The decimal spelling of an integer, with a leading minus below zero. -/
def ofInt : Int → Text
  | .ofNat n => ofNat n
  | .negSucc n => byte '-' :: ofNat (n + 1)

/-- A spelling is negative when it starts with a minus. -/
def isNegative (t : Text) : Bool := t.head? == some (byte '-')

/-- A spelling has a fraction when it holds a decimal point. -/
def hasFraction (t : Text) : Bool := t.contains (byte '.')

end Text

end StructuralTypes
