import Mathlib.Order.Filter.AtTopBot.Basic
import StructuralTypes.Proofs.Reading

/-!
# A reader for rendered types

The reader goes through a text once, from left to right, and decides by the next bytes alone what
comes next. A type behind an arrow goes on for as long as bars follow. The reader gives what it has
read together with the rest of the text. It takes the depth to which it may go; `Reads` says what is
read by every reader that may go deep enough. Texts that are not rendered types are of no concern:
on some of them there is no answer.
-/

namespace StructuralTypes

namespace Text

/-- The letters and the underscore. -/
def isLetter (b : UInt8) : Bool :=
  (byte 'a' ≤ b && b ≤ byte 'z') || (byte 'A' ≤ b && b ≤ byte 'Z') || b == byte '_'

/-- The bytes of numbers. -/
def isNumberByte (b : UInt8) : Bool := isDigit b || b == byte '.' || b == byte '-'

/-- The bytes of keys, keywords and numbers. -/
def isWordByte (b : UInt8) : Bool := isLetter b || isNumberByte b

/-- A word does not go on here. -/
def EndsWord (s : Text) : Prop := s.head?.all (!isWordByte ·) = true

theorem span_append {p : UInt8 → Bool} {w s : Text} (inside : ∀ b ∈ w, p b = true)
    (outside : s.head?.all (!p ·) = true) : (w ++ s).span p = (w, s) := by
  rw [List.span_eq_takeWhile_dropWhile, List.takeWhile_append_of_pos inside,
    List.dropWhile_append_of_pos inside]
  cases s with
  | nil => rw [List.takeWhile_nil, List.append_nil, List.dropWhile_nil]
  | cons b s =>
      have stop : ¬p b = true := by simpa using outside
      rw [List.takeWhile_cons_of_neg stop, List.dropWhile_cons_of_neg stop, List.append_nil]

/-- The rest of a text that starts with `p`. -/
def after? (p s : Text) : Option Text := p.isPrefixOf? s

@[simp] theorem after?_append (p s : Text) : after? p (p ++ s) = some s :=
  List.isPrefixOf?_eq_some_iff_append_eq.2 rfl

theorem after?_cons_of_ne {b c : UInt8} (different : b ≠ c) (p s : Text) :
    after? (c :: p) (b :: s) = none := by
  simp [after?, List.isPrefixOf?, Ne.symm different]

end Text

/-- The name with a given text, if that is short enough. -/
def Name.ofText? (t : Text) : Option Name := if h : t.length < 32 then some ⟨t, h⟩ else none

@[simp] theorem Name.ofText?_text (n : Name) : ofText? n.text = some n := dif_pos n.fits

namespace Tree

open Text

/-- The type that a single word names. -/
def ofWord? (w : Text) : Option Tree :=
  if w = .ofString "Function" then some (ofKind .function)
  else match Kind.ofText? w with
    | some kind => some (ofKind kind)
    | none => do
      let isBoolean := w = .ofString "true" ∨ w = .ofString "false"
      let kind := if isBoolean then Kind.booleanLiteral else .numberLiteral
      return node ⟨kind, ← Name.ofText? w, .none⟩ []

/-- The literal type of the text up to the next quote. -/
def readQuoted (s : Text) : Option (Tree × Text) := do
  let (text, s) := s.span (· != byte '"')
  let head : Head := ⟨Kind.stringLiteral, ← Name.ofText? text, .none⟩
  return (node head [], ← after? (.ofString "\"") s)

/-- Whether a mark stands here, and what follows it. -/
def readMark (mark s : Text) : Bool × Text :=
  match after? mark s with
  | some s => (true, s)
  | none => (false, s)

theorem readMark_append {mark s : Text} (present : Bool) (free : after? mark s = none) :
    readMark mark ((if present then mark else []) ++ s) = (present, s) := by
  cases present with
  | false =>
      change readMark mark s = _
      rw [readMark, free]
  | true =>
      change readMark mark (mark ++ s) = _
      rw [readMark, after?_append]

/-- The key and the modifiers of a member. -/
def readKey (s : Text) : Option (Head × Text) := do
  let (readOnly, s) := readMark (.ofString "readonly ") s
  let (key, s) := s.span isWordByte
  let (optional, s) := readMark (.ofString "?") s
  let name ← Name.ofText? key
  return (⟨Kind.member, name, ⟨readOnly, optional, 0⟩⟩, ← after? (.ofString ": ") s)

/-- As many brackets as follow make arrays of a type. -/
def wrapArrays (t : Tree) : Text → Tree × Text
  | a :: b :: s =>
    if a = byte '[' ∧ b = byte ']' then wrapArrays (node (.ofKind .array) [t]) s
    else (t, a :: b :: s)
  | s => (t, s)

/-- A parameter list goes on here, behind its parenthesis. -/
def startsParameters (s : Text) : Bool :=
  (after? (.ofString ")") s).isSome || (after? (parameterLabel 0) s).isSome

/-- The kind of the signature that starts here, and its parameter list. -/
def startSignature? (s : Text) : Option (Kind × Text) :=
  match after? (.ofString "new (") s with
  | some s => some (.ctor, s)
  | none =>
    match after? (.ofString "(") s with
    | some s => if startsParameters s then some (.fn, s) else none
    | none => none

mutual

/-- Read alternatives for as long as bars follow. -/
def readAlternatives : Nat → Text → Option (List Tree × Text)
  | 0, _ => none
  | depth + 1, s =>
    match startSignature? s with
    | some (kind, s) => do
      let (parameters, s) ← readParameters depth 0 s
      let (result, s) ← readAlternatives depth (← after? (.ofString " => ") s)
      return ([node (.ofKind kind) (ofAlternatives result :: parameters)], s)
    | none => do
      let (t, s) ← readSingle depth s
      match after? bar s with
      | some s =>
        let (ts, s) ← readAlternatives depth s
        return (t :: ts, s)
      | none => return ([t], s)

/-- Read the parameters from position `i` on, with the closing parenthesis. -/
def readParameters : Nat → Nat → Text → Option (List Tree × Text)
  | 0, _, _ => none
  | depth + 1, i, s =>
    match after? (.ofString ")") s with
    | some s => some ([], s)
    | none => do
      let (type, s) ← readAlternatives depth (← after? (parameterLabel i) s)
      let (types, s) ← readParameters depth (i + 1) s
      return (ofAlternatives type :: types, s)

/-- Read a type that is neither a signature nor a union, unless it stands in parentheses. -/
def readSingle : Nat → Text → Option (Tree × Text)
  | 0, _ => none
  | depth + 1, s => do
    let (t, s) ← readCore depth s
    return wrapArrays t s

/-- Read what may stand before brackets. -/
def readCore : Nat → Text → Option (Tree × Text)
  | 0, _ => none
  | depth + 1, s =>
    match after? (.ofString "\"") s with
    | some s => readQuoted s
    | none =>
      match after? (.ofString "(") s with
      | some s => do
        let (ts, s) ← readAlternatives depth s
        return (ofAlternatives ts, ← after? (.ofString ")") s)
      | none =>
        match after? (.ofString "\x7b\x7d") s with
        | some s => some (ofMembers [], s)
        | none =>
          match after? (.ofString "\x7b ") s with
          | some s => do
            let (members, s) ← readMembers depth s
            return (ofMembers members, ← after? (.ofString " \x7d") s)
          | none =>
            let (w, s) := s.span isWordByte
            (ofWord? w).map (·, s)

/-- Read members for as long as semicolons follow. -/
def readMembers : Nat → Text → Option (List Tree × Text)
  | 0, _ => none
  | depth + 1, s => do
    let (head, s) ← readKey s
    let (type, s) ← readAlternatives depth s
    let member := node head [ofAlternatives type]
    match after? (.ofString "; ") s with
    | some s =>
      let (members, s) ← readMembers depth s
      return (member :: members, s)
    | none => return ([member], s)

end

section Starts

theorem startsParameters_cons {b : UInt8} (last : b ≠ byte ')') (label : b ≠ byte 'a') (s : Text) :
    startsParameters (b :: s) = false := by
  have closing : after? (ofString ")") (b :: s) = none := after?_cons_of_ne last _ _
  have opening : after? (parameterLabel 0) (b :: s) = none := after?_cons_of_ne label _ _
  rw [startsParameters, closing, opening]
  rfl

theorem startsParameters_labelled (ts : List Text) (s : Text) :
    startsParameters (labelled 0 ts ++ (ofString ")" ++ s)) = true := by
  cases ts with
  | nil => rfl
  | cons t ts =>
      rw [startsParameters, labelled, List.append_assoc, after?_append, Option.isSome_some,
        Bool.or_true]

theorem startSignature?_cons {b : UInt8} (new : b ≠ byte 'n') (list : b ≠ byte '(') (s : Text) :
    startSignature? (b :: s) = none := by
  have made : after? (ofString "new (") (b :: s) = none := after?_cons_of_ne new _ _
  have listed : after? (ofString "(") (b :: s) = none := after?_cons_of_ne list _ _
  rw [startSignature?, made, listed]

theorem startSignature?_parentheses (s : Text) :
    startSignature? (ofString "(" ++ s) = if startsParameters s then some (.fn, s) else none := by
  have made : after? (ofString "new (") (ofString "(" ++ s) = none := rfl
  rw [startSignature?, made, after?_append]

theorem startSignature?_signature {kind : Kind} (h : kind.isSignature = true) {s : Text}
    (list : startsParameters s = true) :
    startSignature? (signatureWord kind ++ (ofString "(" ++ s)) = some (kind, s) := by
  cases kind
  case fn => exact (startSignature?_parentheses s).trans (if_pos list)
  case ctor => rfl
  all_goals cases h

end Starts

theorem wrapArrays_of_head {t : Tree} {s : Text} (h : s.head?.all (· != byte '[') = true) :
    wrapArrays t s = (t, s) := by
  match s with
  | [] => rfl
  | [_] => rfl
  | a :: b :: s => exact if_neg fun both => by simp [both.1] at h

/-- Every reader that may go deep enough gives this result. -/
def Reads {α : Type} (read : Nat → Option α) (result : α) : Prop :=
  ∀ᶠ depth in Filter.atTop, read depth = some result

namespace Reads

variable {α : Type} {read : Nat → Option α} {x y : α}

theorem of_succ (h : ∀ᶠ depth in Filter.atTop, read (depth + 1) = some x) : Reads read x := by
  rw [Reads, ← Filter.map_add_atTop_eq_nat 1]
  exact h

theorem of_forall (h : ∀ depth, read (depth + 1) = some x) : Reads read x :=
  of_succ (.of_forall h)

theorem unique (h : Reads read x) (h' : Reads read y) : x = y := by
  obtain ⟨depth, left, right⟩ := (Filter.Eventually.and h h').exists
  exact Option.some.inj (left.symm.trans right)

end Reads

section Steps

variable {s r rest : Text}

theorem readAlternatives_signature {kind : Kind} {parameters result : List Tree}
    (start : startSignature? s = some (kind, r))
    (list : Reads (readParameters · 0 r) (parameters, .ofString " => " ++ rest)) {rest' : Text}
    (made : Reads (readAlternatives · rest) (result, rest')) :
    Reads (readAlternatives · s)
      ([node (.ofKind kind) (ofAlternatives result :: parameters)], rest') := by
  apply Reads.of_succ
  filter_upwards [list, made] with depth list made
  rw [readAlternatives, start]
  simp [list, made]

theorem readAlternatives_last {t : Tree} (start : startSignature? s = none)
    (single : Reads (readSingle · s) (t, rest)) (last : after? bar rest = none) :
    Reads (readAlternatives · s) ([t], rest) := by
  apply Reads.of_succ
  filter_upwards [single] with depth single
  rw [readAlternatives, start]
  simp [single, last]

theorem readAlternatives_more {t : Tree} {ts : List Tree} (start : startSignature? s = none)
    (single : Reads (readSingle · s) (t, bar ++ r))
    (more : Reads (readAlternatives · r) (ts, rest)) :
    Reads (readAlternatives · s) (t :: ts, rest) := by
  apply Reads.of_succ
  filter_upwards [single, more] with depth single more
  rw [readAlternatives, start]
  simp [single, more]

theorem readParameters_last (i : Nat) :
    Reads (readParameters · i (.ofString ")" ++ s)) ([], s) := by
  apply Reads.of_forall
  intro depth
  rw [readParameters, after?_append]

theorem readParameters_next {i : Nat} {type types : List Tree}
    (first : Reads (readAlternatives · s) (type, r))
    (more : Reads (readParameters · (i + 1) r) (types, rest)) :
    Reads (readParameters · i (parameterLabel i ++ s)) (ofAlternatives type :: types, rest) := by
  have last : after? (.ofString ")") (parameterLabel i ++ s) = none := by cases i <;> rfl
  apply Reads.of_succ
  filter_upwards [first, more] with depth first more
  rw [readParameters, last]
  simp [first, more]

theorem readSingle_of_core {t : Tree} (core : Reads (readCore · s) (t, r)) :
    Reads (readSingle · s) (wrapArrays t r) := by
  apply Reads.of_succ
  filter_upwards [core] with depth core
  rw [readSingle, core]
  rfl

theorem readQuoted_append {name : Name} (plain : byte '"' ∉ name.text) :
    readQuoted (name.text ++ (.ofString "\"" ++ s)) =
      some (node ⟨Kind.stringLiteral, name, .none⟩ [], s) := by
  have closed : (name.text ++ (.ofString "\"" ++ s)).span (· != byte '"') =
      (name.text, .ofString "\"" ++ s) := by
    apply span_append
    · intro b hb
      exact bne_iff_ne.2 fun same => plain (same ▸ hb)
    · rfl
  rw [readQuoted, closed]
  simp

theorem readCore_quoted {name : Name} (plain : byte '"' ∉ name.text) :
    Reads (readCore · (.ofString "\"" ++ (name.text ++ (.ofString "\"" ++ s))))
      (node ⟨Kind.stringLiteral, name, .none⟩ [], s) := by
  apply Reads.of_forall
  intro depth
  rw [readCore, after?_append]
  exact readQuoted_append plain

theorem readCore_parentheses {ts : List Tree}
    (inside : Reads (readAlternatives · s) (ts, .ofString ")" ++ rest)) :
    Reads (readCore · (.ofString "(" ++ s)) (ofAlternatives ts, rest) := by
  have quoted : after? (.ofString "\"") (.ofString "(" ++ s) = none := rfl
  apply Reads.of_succ
  filter_upwards [inside] with depth inside
  rw [readCore, quoted, after?_append]
  simp [inside]

theorem readCore_memberless :
    Reads (readCore · (.ofString "\x7b\x7d" ++ s)) (ofMembers [], s) := by
  have quoted : after? (.ofString "\"") (.ofString "\x7b\x7d" ++ s) = none := rfl
  have wrapped : after? (.ofString "(") (.ofString "\x7b\x7d" ++ s) = none := rfl
  apply Reads.of_forall
  intro depth
  rw [readCore, quoted, wrapped, after?_append]

theorem readCore_members {members : List Tree}
    (inside : Reads (readMembers · s) (members, .ofString " \x7d" ++ rest)) :
    Reads (readCore · (.ofString "\x7b " ++ s)) (ofMembers members, rest) := by
  have quoted : after? (.ofString "\"") (.ofString "\x7b " ++ s) = none := rfl
  have wrapped : after? (.ofString "(") (.ofString "\x7b " ++ s) = none := rfl
  have nonempty : after? (.ofString "\x7b\x7d") (.ofString "\x7b " ++ s) = none := rfl
  apply Reads.of_succ
  filter_upwards [inside] with depth inside
  rw [readCore, quoted, wrapped, nonempty, after?_append]
  simp [inside]

theorem readCore_word {b : UInt8} {w : Text} {t : Tree}
    (word : ∀ c ∈ b :: w, isWordByte c = true) (ends : EndsWord s)
    (named : ofWord? (b :: w) = some t) : Reads (readCore · (b :: w ++ s)) (t, s) := by
  have other {c : UInt8} (p : Text) (h : isWordByte c = false) :
      after? (c :: p) (b :: w ++ s) = none := by
    apply after?_cons_of_ne
    rintro rfl
    rw [word b List.mem_cons_self] at h
    cases h
  have quoted : after? (.ofString "\"") (b :: w ++ s) = none := other _ (by decide)
  have wrapped : after? (.ofString "(") (b :: w ++ s) = none := other _ (by decide)
  have memberless : after? (.ofString "\x7b\x7d") (b :: w ++ s) = none := other _ (by decide)
  have members : after? (.ofString "\x7b ") (b :: w ++ s) = none := other _ (by decide)
  apply Reads.of_forall
  intro depth
  rw [readCore, quoted, wrapped, memberless, members, span_append word ends]
  simp [named]

theorem readMembers_last {head : Head} {type : List Tree} (key : readKey s = some (head, r))
    (value : Reads (readAlternatives · r) (type, rest))
    (last : after? (.ofString "; ") rest = none) :
    Reads (readMembers · s) ([node head [ofAlternatives type]], rest) := by
  apply Reads.of_succ
  filter_upwards [value] with depth value
  rw [readMembers]
  simp [key, value, last]

theorem readMembers_more {head : Head} {type members : List Tree} {rest' : Text}
    (key : readKey s = some (head, r))
    (value : Reads (readAlternatives · r) (type, .ofString "; " ++ rest))
    (more : Reads (readMembers · rest) (members, rest')) :
    Reads (readMembers · s) (node head [ofAlternatives type] :: members, rest') := by
  apply Reads.of_succ
  filter_upwards [value, more] with depth value more
  rw [readMembers]
  simp [key, value, more]

end Steps

end Tree

end StructuralTypes
