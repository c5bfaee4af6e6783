/-!
# Member modifiers

The modifiers of a node are a word of 32 bits. Bit 0 marks a member as read-only and bit 1 as
optional; the other bits have no meaning but are kept and compared.
-/

namespace StructuralTypes

/-- The modifiers of a node, bit by bit. -/
structure Modifiers where
  readOnly : Bool
  optional : Bool
  reserved : BitVec 30
deriving DecidableEq

namespace Modifiers

/-- No bit is set. -/
def none : Modifiers := ⟨false, false, 0⟩

instance : Inhabited Modifiers := ⟨none⟩

/-- The modifiers that a word stands for. -/
def ofWord (w : BitVec 32) : Modifiers := ⟨w.getLsbD 0, w.getLsbD 1, w.extractLsb' 2 30⟩

/-- The word of some modifiers. -/
def word (m : Modifiers) : BitVec 32 :=
  m.reserved ++ BitVec.ofBool m.optional ++ BitVec.ofBool m.readOnly

/-- Two words have a bit in common. -/
def overlap (a b : BitVec 32) : Bool := a &&& b != 0

/-- The bits of the word, one by one. -/
theorem getLsbD_word (m : Modifiers) (i : Nat) :
    m.word.getLsbD i =
      if i = 0 then m.readOnly else if i = 1 then m.optional else m.reserved.getLsbD (i - 2) := by
  have h : m.word.getLsbD i =
      (m.reserved ++ BitVec.ofBool m.optional ++ BitVec.ofBool m.readOnly).getLsbD i := rfl
  rw [h, BitVec.getLsbD_append, BitVec.getLsbD_append]
  rcases i with _ | _ | i
  · simp
  · simp
  · simp

@[simp] theorem ofWord_word (m : Modifiers) : ofWord m.word = m := by
  obtain ⟨readOnly, optional, reserved⟩ := m
  have h : (word ⟨readOnly, optional, reserved⟩).extractLsb' 2 30 = reserved := by
    ext i hi
    simp only [BitVec.getElem_extractLsb', getLsbD_word]
    have : 2 + i ≠ 0 ∧ 2 + i ≠ 1 := by omega
    simp [this, hi]
  unfold ofWord
  simp only [getLsbD_word, h]
  simp

@[simp] theorem word_ofWord (w : BitVec 32) : (ofWord w).word = w := by
  apply BitVec.eq_of_getLsbD_eq
  intro i hi
  rw [getLsbD_word]
  rcases i with _ | _ | i
  · simp [ofWord]
  · simp [ofWord]
  · have h : i < 30 := by omega
    simp [ofWord, h, Nat.add_comm 2 i]

/-- Sharing a power of two is having that bit. -/
theorem overlap_twoPow (w : BitVec 32) (i : Nat) (hi : i < 32) :
    overlap w (BitVec.twoPow 32 i) = w.getLsbD i := by
  have h : BitVec.twoPow 32 i ≠ 0#32 := fun h => by
    simpa [hi] using congrArg (BitVec.getLsbD · i) h
  unfold overlap
  rw [BitVec.and_twoPow]
  cases w.getLsbD i <;> simp [h]

/-- The read-only mark is bit 0. -/
theorem overlap_one (w : BitVec 32) : overlap w 1 = (ofWord w).readOnly :=
  overlap_twoPow w 0 (by decide)

/-- The optional mark is bit 1. -/
theorem overlap_two (w : BitVec 32) : overlap w 2 = (ofWord w).optional :=
  overlap_twoPow w 1 (by decide)

end Modifiers
end StructuralTypes
