import StructuralTypes.Fault

/-!
# Names

Member keys and the spellings of literals are names: texts of at most 31 bytes.
-/

namespace StructuralTypes

/-- A text of at most 31 bytes. -/
structure Name where
  text : Text
  fits : text.length < 32
deriving DecidableEq

namespace Name

@[ext] theorem ext {a b : Name} (h : a.text = b.text) : a = b := by
  cases a; cases b; cases h; rfl

/-- The name without bytes. -/
def blank : Name := ⟨[], by decide⟩

instance : Inhabited Name := ⟨blank⟩

/-- The name with a given text, or the fault for a text that is too long. -/
def ofText (tooLong : Fault) (t : Text) : Except Fault Name :=
  if h : t.length < 32 then .ok ⟨t, h⟩ else .error tooLong

theorem ofText_eq_ok_iff {tooLong : Fault} {t : Text} {n : Name} :
    ofText tooLong t = .ok n ↔ n.text = t := by
  unfold ofText
  split
  · simp [Name.ext_iff, eq_comm]
  · next h => simp only [reduceCtorEq, false_iff]; rintro rfl; exact h n.fits

/-- The first name that occurs earlier in the list. -/
def firstRepeat? (names : List Name) : Option Name :=
  go [] names
where
  /-- The first name that occurs earlier, or in `seen`. -/
  go (seen : List Name) : List Name → Option Name
    | [] => none
    | n :: ns => if seen.contains n then some n else go (n :: seen) ns

/-- The keys between braces, separated by commas. -/
def braced (names : List Name) : Buffer 256 :=
  .ofParts ([.ofString "\x7b"] ++ (names.map text).intersperse (.ofString ", ") ++
    [.ofString "\x7d"])

end Name

end StructuralTypes
