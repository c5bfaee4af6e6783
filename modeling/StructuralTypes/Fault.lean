import StructuralTypes.Report

/-!
# Faults

Every way in which building or inspecting a type can fail, and the message of each. Faults about a
shape carry the rendered shape, so a message depends on nothing but its fault.
-/

namespace StructuralTypes

/-- The operations that look a key up in a shape. -/
inductive Operation
  | memberFlags
  | declaredType
  | slice
  | pick
  | drop
  | withOptional
deriving DecidableEq

/-- The name of an operation in messages. -/
def Operation.text : Operation → Text
  | memberFlags => .ofString "member_flags"
  | declaredType => .ofString "declared_type"
  | slice => .ofString "slice"
  | pick => .ofString "pick"
  | drop => .ofString "omit"
  | withOptional => .ofString "with_optional"

/-- The causes of failure. -/
inductive Fault
  /-- A node name has more than 31 bytes. -/
  | nameTooLong
  /-- A member key or a key of a key set has more than 31 bytes. -/
  | keyTooLong
  /-- A member has no key. -/
  | emptyKey
  /-- A key set holds 16 keys already. -/
  | keySetFull
  /-- The storage of a type holds as many nodes as it may. -/
  | storageFull
  /-- A node was given more than 16 children. -/
  | tooManyChildren
  /-- A union has more than 16 distinct alternatives. -/
  | tooManyAlternatives
  /-- A number has no digit where its whole part belongs. -/
  | missingDigits
  /-- A number has no digit after its point. -/
  | missingFraction
  /-- A number goes on after its digits. -/
  | strayCharacter
  /-- A number of magnitude `10 ^ 21` or more. -/
  | magnitudeTooLarge
  /-- A number other than zero of magnitude below `10 ^ (-6)`. -/
  | magnitudeTooSmall
  /-- The canonical spelling of a number has more than 31 bytes. -/
  | numeralTooLong
  /-- Two members of a shape have one key. -/
  | duplicateKey (key : Text)
  /-- A shape was expected. -/
  | notObject (type : Text)
  /-- An array type was expected. -/
  | notArray (type : Text)
  /-- A numeric literal type was expected. -/
  | notNumeral (type : Text)
  /-- An operation asked for a key that the shape does not have. -/
  | unknownKey (operation : Operation) (key keys shape : Text)
  /-- No member of the shape has a type of the category. -/
  | emptyCategory (category shape : Text)
deriving DecidableEq

namespace Fault

/-- The line of a fault that needs no report. -/
def line (s : String) : Text := .ofString "shape error: " ++ .ofString s

/-- The message of a fault. Reports are cut to 511 bytes, and to 767 bytes for unknown keys. -/
def message : Fault → Text
  | nameTooLong => line "name too long (max 31 characters)"
  | keyTooLong => line "key too long (max 31 characters)"
  | emptyKey => line "empty key"
  | keySetFull => line "KeySet capacity exceeded"
  | storageFull => line "TypeAST capacity exceeded"
  | tooManyChildren => line "a node supports at most 16 children"
  | tooManyAlternatives => line "a union supports at most 16 alternatives"
  | missingDigits => line "malformed numeric literal (expected digits)"
  | missingFraction => line "malformed numeric literal (expected digits after '.')"
  | strayCharacter =>
    line "malformed numeric literal (only digits, one leading '-' and one '.' are allowed)"
  | magnitudeTooLarge =>
    line "numeric literal has no canonical spelling without an exponent (magnitude >= 1e21)"
  | magnitudeTooSmall =>
    line "numeric literal has no canonical spelling without an exponent (magnitude < 1e-6)"
  | numeralTooLong => line "numeric literal too long (max 31 characters)"
  | duplicateKey key => (Report.note (.ofString "duplicate key") key |>.render 512).content
  | notObject type =>
    (Report.note (.ofString "expected an object shape") type |>.render 512).content
  | notArray type => (Report.note (.ofString "expected an array type") type |>.render 512).content
  | notNumeral type =>
    (Report.mismatch (.ofString "malformed input") (.ofString "a single numeric literal type") type
      (.ofString "numeric literal classification") |>.render 512).content
  | unknownKey operation key keys shape =>
    (Report.lookup (.ofString "unknown key") key operation.text keys shape |>.render 768).content
  | emptyCategory category shape =>
    (Report.mismatch (.ofString "category matches no member") category shape
      (.ofString "keys_with_value_type") |>.render 512).content

end Fault

/-- A computation succeeds when both of its steps do. -/
theorem bind_eq_ok {α β : Type} {x : Except Fault α} {f : α → Except Fault β} {b : β}
    (h : x >>= f = .ok b) : ∃ a, x = .ok a ∧ f a = .ok b := by
  cases x with
  | error e => cases h
  | ok a => exact ⟨a, rfl, h⟩

end StructuralTypes
