import StructuralTypes.Text

/-!
# Bounded text buffers

A buffer of `cells` bytes keeps at most `cells - 1` bytes of content. Appending never fails: what
does not fit is dropped. A sequence of edits therefore leaves the first `cells - 1` bytes of what an
unbounded builder would hold.
-/

namespace StructuralTypes

/-- An append-only text of at most `cells - 1` bytes. -/
structure Buffer (cells : Nat) where
  content : Text
  fits : content.length ≤ cells - 1
deriving DecidableEq

namespace Buffer

variable {cells width : Nat}

@[ext] theorem ext {a b : Buffer cells} (h : a.content = b.content) : a = b := by
  cases a; cases b; cases h; rfl

/-- The buffer without content. -/
def empty : Buffer cells := ⟨[], Nat.zero_le _⟩

instance : Inhabited (Buffer cells) := ⟨empty⟩

/-- The number of bytes that can still be appended. -/
def room (b : Buffer cells) : Nat := cells - 1 - b.content.length

/-- Append as much of a text as there is room for. -/
def append (b : Buffer cells) (t : Text) : Buffer cells where
  content := b.content ++ t.take b.room
  fits := by
    have := b.fits
    simp only [List.length_append, List.length_take, room]
    omega

/-- Append one byte if there is room for it. -/
def push (b : Buffer cells) (c : UInt8) : Buffer cells := b.append [c]

/-- Append the decimal spelling of an integer. -/
def appendInt (b : Buffer cells) (v : Int) : Buffer cells := b.append (Text.ofInt v)

/-- Append the content of a buffer of any size. -/
def appendBuffer (b : Buffer cells) (other : Buffer width) : Buffer cells := b.append other.content

/-- The buffer that holds what fits of a text. -/
def ofText (t : Text) : Buffer cells := empty.append t

/-- The content is exactly `t`. -/
def holds (b : Buffer cells) (t : Text) : Bool := b.content == t

/-- The buffer after appending some texts in order. -/
def ofParts (parts : List Text) : Buffer cells := parts.foldl append empty

@[simp] theorem content_empty : (empty : Buffer cells).content = [] := rfl

theorem content_append (b : Buffer cells) (t : Text) :
    (b.append t).content = (b.content ++ t).take (cells - 1) := by
  have h : b.content.length ≤ cells - 1 := b.fits
  simp [append, room, List.take_append, List.take_of_length_le h]

theorem content_ofText (t : Text) : (ofText t : Buffer cells).content = t.clip cells := by
  simp [ofText, content_append, Text.clip]

/-- An edit of a buffer. -/
inductive Edit
  /-- Replace the content by what fits of a text. -/
  | restart (t : Text)
  | append (t : Text)
  | push (c : UInt8)
  | appendInt (v : Int)
  /-- Append what a buffer of `width` bytes keeps of a text. -/
  | appendClipped (width : Nat) (t : Text)
  /-- Append a copy of the buffer itself. -/
  | double

/-- The buffer after an edit. -/
def apply (b : Buffer cells) : Edit → Buffer cells
  | .restart t => ofText t
  | .append t => b.append t
  | .push c => b.push c
  | .appendInt v => b.appendInt v
  | .appendClipped width t => b.appendBuffer (ofText t : Buffer width)
  | .double => b.appendBuffer b

/-- The buffer after a sequence of edits. -/
def run (b : Buffer cells) (edits : List Edit) : Buffer cells := edits.foldl apply b

end Buffer

end StructuralTypes
