import StructuralTypes.Proofs.Reachable
import StructuralTypes.Proofs.TypeReader

/-!
# Rendered types are read back

If keys are identifiers and no string literal holds a quote, the reader gives the reading of a type
back from its full text. So two types have the same text exactly when they have the same reading,
and types in which no alternative follows a function or a constructor are told apart by their texts.
Beyond these there are different types with the same text.
-/

namespace StructuralTypes

namespace Text

/-- Letters, digits and underscores, but no digit first. -/
def IsIdentifier (t : Text) : Prop :=
  t.head?.any isLetter = true ∧ ∀ b ∈ t, (isLetter b || isDigit b) = true

instance (t : Text) : Decidable t.IsIdentifier := inferInstanceAs (Decidable (_ ∧ _))

theorem IsIdentifier.word {t : Text} (h : t.IsIdentifier) : ∀ b ∈ t, isWordByte b = true := by
  intro b hb
  rw [isWordByte, isNumberByte, ← Bool.or_assoc, ← Bool.or_assoc, h.2 b hb, Bool.true_or,
    Bool.true_or]

theorem ne_of_isNumberByte {b c : UInt8} (number : isNumberByte b = true)
    (other : isNumberByte c = false) : b ≠ c := by
  rintro rfl
  rw [number] at other
  cases other

end Text

open Text

theorem Numeral.isNumberByte_of_mem_spelling {n : Numeral} :
    ∀ c ∈ n.spelling, isNumberByte c = true := by
  have digits : ∀ d : Digit, isNumberByte d.byte = true := by decide
  intro c hc
  rw [spelling_eq, sign, pointed] at hc
  rcases List.mem_append.1 hc with hc | hc
  · rcases List.mem_append.1 hc with hc | hc
    · split at hc
      · rw [List.mem_singleton.1 hc]
        rfl
      · cases hc
    · obtain ⟨d, -, rfl⟩ := List.mem_map.1 hc
      exact digits d
  · split at hc
    · cases hc
    · rcases List.mem_cons.1 hc with rfl | hc
      · rfl
      · obtain ⟨d, -, rfl⟩ := List.mem_map.1 hc
        exact digits d

/-- The name of a number literal is a number. -/
theorem Numeral.exists_of_canonical {t : Text} {name : Name} (h : canonical t = .ok name) :
    ∃ b w, name.text = b :: w ∧ ∀ c ∈ b :: w, isNumberByte c = true := by
  obtain ⟨n, -, -, -, spelled⟩ := canonical_eq_ok_iff.1 h
  have some : name.text ≠ [] := by
    rw [spelled, spelling_eq]
    intro none
    have whole := (List.append_eq_nil_iff.1 (List.append_eq_nil_iff.1 none).1).2
    exact n.whole_stripped_ne_nil (List.map_eq_nil_iff.1 whole)
  obtain ⟨b, w, cut⟩ := List.exists_cons_of_ne_nil some
  refine ⟨b, w, cut, ?_⟩
  rw [← cut, spelled]
  exact isNumberByte_of_mem_spelling

namespace Tree

/-- A type may end here. -/
structure Stops (s : Text) : Prop where
  word : EndsWord s
  brackets : s.head?.all (· != byte '[') = true
  bar : after? bar s = none

theorem stops_parenthesis (s : Text) : Stops (ofString ")" ++ s) := ⟨rfl, rfl, rfl⟩

theorem stops_semicolon (s : Text) : Stops (ofString "; " ++ s) := ⟨rfl, rfl, rfl⟩

theorem stops_brace (s : Text) : Stops (ofString " \x7d" ++ s) := ⟨rfl, rfl, rfl⟩

theorem stops_labelled (i : Nat) (ts : List Text) (s : Text) :
    Stops (labelled (i + 1) ts ++ (ofString ")" ++ s)) := by
  cases ts <;> exact ⟨rfl, rfl, rfl⟩

/-- Some alternatives follow, and then the text goes on. -/
inductive Follows : Text → List Tree → Text → Prop
  | nothing {s : Text} (stops : Stops s) : Follows s [] s
  | more {s rest : Text} {ts : List Tree} (read : Reads (readAlternatives · s) (ts, rest)) :
      Follows (bar ++ s) ts rest

/-- The reader gives the reading of a type back from its full text. -/
structure Readable (t : Tree) : Prop where
  /-- Behind a parenthesis, the text is not taken for parameters. -/
  opens : ∀ s, startsParameters (t.fullText ++ s) = false
  alternatives : ∀ {s ts rest}, Follows s ts rest →
    Reads (readAlternatives · (t.fullText ++ s)) (t.readBefore ts, rest)
  apart : t.isCompound = false → ∀ s, startSignature? (t.fullText ++ s) = none
  single : t.isCompound = false → ∀ {s}, EndsWord s →
    Reads (readSingle · (t.fullText ++ s)) (wrapArrays t.reading s)

namespace Readable

variable {t : Tree}

theorem whole (h : t.Readable) {s : Text} (stops : Stops s) :
    Reads (readAlternatives · (t.fullText ++ s)) (t.readBefore [], s) :=
  h.alternatives (.nothing stops)

/-- Parameters are read one after the other. -/
theorem readParameters_labelled {ts : List Tree} (h : ∀ t ∈ ts, t.Readable) (i : Nat) (s : Text) :
    Reads (readParameters · i (labelled i (ts.map fullText) ++ (ofString ")" ++ s)))
      (ts.map reading, s) := by
  induction ts generalizing i with
  | nil => exact readParameters_last i
  | cons t ts ih =>
      obtain ⟨first, rest⟩ := List.forall_mem_cons.1 h
      rw [List.map_cons, labelled, List.append_assoc, List.append_assoc]
      exact readParameters_next (first.whole (stops_labelled _ _ _)) (ih rest (i + 1))

/-- What is no compound type is read at once, with the brackets behind it. -/
theorem of_single (plain : t.isCompound = false)
    (opens : ∀ s, startsParameters (t.fullText ++ s) = false)
    (apart : ∀ s, startSignature? (t.fullText ++ s) = none)
    (single : ∀ {s}, EndsWord s →
      Reads (readSingle · (t.fullText ++ s)) (wrapArrays t.reading s)) : t.Readable where
  opens := opens
  apart _ := apart
  single _ := single
  alternatives := by
    intro s ts rest follows
    have cut := readBefore_of_not_compound plain ts
    rw [← reading_of_not_compound plain] at cut
    rw [cut]
    cases follows with
    | nothing stops =>
        apply readAlternatives_last (apart s) _ stops.bar
        rw [← wrapArrays_of_head stops.brackets]
        exact single stops.word
    | more read =>
        apply readAlternatives_more (apart _) _ read
        exact single rfl

theorem signature {kind : Kind} (h : kind.isSignature = true) {result : Tree}
    {parameters : List Tree} (first : result.Readable) (rest : ∀ p ∈ parameters, p.Readable) :
    (node (.ofKind kind) (result :: parameters)).Readable := by
  have text (s : Text) : (node (.ofKind kind) (result :: parameters)).fullText ++ s =
      signatureWord kind ++ (ofString "(" ++ (labelled 0 (parameters.map fullText) ++
        (ofString ")" ++ (ofString " => " ++ (result.fullText ++ s))))) := by
    rw [fullText_signature h, flatten_parameterParts]
    simp only [List.append_assoc]
  have compound : ¬(node (.ofKind kind) (result :: parameters)).isCompound = false := by
    rw [isCompound_signature h]
    exact nofun
  constructor
  case opens =>
    intro s
    rw [text]
    cases kind
    case fn => rfl
    case ctor => rfl
    all_goals cases h
  case alternatives =>
    intro s ts _ follows
    rw [text, readBefore_signature h]
    exact readAlternatives_signature (startSignature?_signature h (startsParameters_labelled _ _))
      (readParameters_labelled rest 0 _) (first.alternatives follows)
  case apart => exact fun plain => absurd plain compound
  case single => exact fun plain => absurd plain compound

theorem array {element : Tree} (h : element.Readable) :
    (node (.ofKind .array) [element]).Readable := by
  have same : (node (.ofKind .array) [element]).reading = node (.ofKind .array) [element.reading] :=
    reading_of_not_compound rfl
  cases compound : element.isCompound with
  | false =>
      have text (s : Text) : (node (.ofKind .array) [element]).fullText ++ s =
          element.fullText ++ (ofString "[]" ++ s) := by
        rw [fullText_array, compound, if_neg Bool.false_ne_true, List.append_assoc]
      refine of_single rfl (fun s => ?_) (fun s => ?_) fun {s} ends => ?_
      · rw [text]
        exact h.opens _
      · rw [text]
        exact h.apart compound _
      · rw [text, same]
        exact h.single compound rfl
  | true =>
      have text (s : Text) : (node (.ofKind .array) [element]).fullText ++ s =
          ofString "(" ++ (element.fullText ++ (ofString ")" ++ (ofString "[]" ++ s))) := by
        rw [fullText_array, compound, if_pos rfl]
        simp only [List.append_assoc]
      refine of_single rfl (fun s => ?_) (fun s => ?_) fun {s} ends => ?_
      · rw [text]
        rfl
      · rw [text, startSignature?_parentheses, h.opens]
        rfl
      · have core := readCore_parentheses (h.whole (stops_parenthesis (ofString "[]" ++ s)))
        have single := readSingle_of_core core
        rw [text, same]
        exact single

/-- Alternatives are read one after the other. -/
theorem readAlternatives_behindBars {ts : List Tree} (h : ∀ t ∈ ts, t.Readable) {s rest : Text}
    {us : List Tree} (follows : Follows s us rest) :
    Follows (behindBars ts ++ s) (readAllBefore ts us) rest := by
  induction ts with
  | nil => exact follows
  | cons t ts ih =>
      obtain ⟨first, others⟩ := List.forall_mem_cons.1 h
      rw [behindBars_cons, List.append_assoc, List.append_assoc]
      exact .more (first.alternatives (ih others))

theorem union {first : Tree} {others : List Tree} (h : first.Readable)
    (more : ∀ t ∈ others, t.Readable) : (node (.ofKind .union) (first :: others)).Readable := by
  have text (s : Text) : (node (.ofKind .union) (first :: others)).fullText ++ s =
      first.fullText ++ (behindBars others ++ s) := by
    rw [fullText_union, List.append_assoc]
  constructor
  case opens =>
    intro s
    rw [text]
    exact h.opens _
  case alternatives =>
    intro s ts rest follows
    rw [text]
    exact h.alternatives (readAlternatives_behindBars more follows)
  case apart => exact nofun
  case single => exact nofun

theorem word {head : Head} {b : UInt8} {w : Text} (plain : (node head []).isCompound = false)
    (text : (node head []).fullText = b :: w) (word : (b :: w).all isWordByte = true)
    (named : ofWord? (b :: w) = some (node head [])) (opens : b ≠ byte 'a')
    (apart : ∀ s, startSignature? (b :: w ++ s) = none) : (node head []).Readable := by
  have same : (node head []).reading = node head [] := reading_of_not_compound plain
  refine of_single plain (fun s => ?_) (fun s => ?_) fun {s} ends => ?_
  · rw [text]
    refine startsParameters_cons ?_ opens _
    rintro rfl
    cases word
  · rw [text]
    exact apart s
  · rw [text, same]
    exact readSingle_of_core (readCore_word (List.all_eq_true.1 word) ends named)

/-- A number is no keyword. -/
theorem ofWord?_number {name : Name} {b : UInt8} {w : Text} (cut : name.text = b :: w)
    (first : isNumberByte b = true) :
    ofWord? (b :: w) = some (node ⟨Kind.numberLiteral, name, .none⟩ []) := by
  have other {c : UInt8} (letter : isNumberByte c = false) : b ≠ c :=
    ne_of_isNumberByte first letter
  have callable : b :: w ≠ ofString "Function" := fun same => other rfl (List.cons.inj same).1
  have boolean : ¬(b :: w = ofString "true" ∨ b :: w = ofString "false") := by
    rintro (same | same)
    · exact other rfl (List.cons.inj same).1
    · exact other rfl (List.cons.inj same).1
  have keyword : Kind.ofText? (b :: w) = none := by
    cases h : Kind.ofText? (b :: w) with
    | none => rfl
    | some kind =>
        have same := Kind.text_of_ofText? h
        cases kind <;> exact absurd (List.cons.inj same).1.symm (other rfl)
  rw [ofWord?, if_neg callable, keyword, ← cut]
  rw [← cut] at boolean
  simp [boolean]

theorem number {name : Name} (canonical : Numeral.canonical name.text = .ok name) :
    (node ⟨Kind.numberLiteral, name, .none⟩ []).Readable := by
  obtain ⟨b, w, cut, number⟩ := Numeral.exists_of_canonical canonical
  have text : (node ⟨Kind.numberLiteral, name, .none⟩ []).fullText = b :: w := by
    rw [fullText_node, ← cut]
    simp [parts]
  have first := number b List.mem_cons_self
  have other {c : UInt8} (letter : isNumberByte c = false) : b ≠ c :=
    ne_of_isNumberByte first letter
  refine word rfl text (List.all_eq_true.2 fun c hc => ?_) (ofWord?_number cut first) (other rfl)
    fun s => startSignature?_cons (other rfl) (other rfl) _
  rw [isWordByte, number c hc, Bool.or_true]

theorem quoted {name : Name} (plain : byte '"' ∉ name.text) :
    (node ⟨Kind.stringLiteral, name, .none⟩ []).Readable := by
  have text (s : Text) : (node ⟨Kind.stringLiteral, name, .none⟩ []).fullText ++ s =
      ofString "\"" ++ (name.text ++ (ofString "\"" ++ s)) := by
    rw [fullText_node]
    simp [parts]
  have same : (node ⟨Kind.stringLiteral, name, .none⟩ []).reading =
      node ⟨Kind.stringLiteral, name, .none⟩ [] := reading_of_not_compound rfl
  refine of_single rfl (fun s => ?_) (fun s => ?_) fun {s} ends => ?_
  · rw [text]
    rfl
  · rw [text]
    rfl
  · rw [text, same]
    exact readSingle_of_core (readCore_quoted plain)

theorem boolean {name : Name} (value : Bool)
    (spelled : name.text = .ofString (if value then "true" else "false")) :
    (node ⟨Kind.booleanLiteral, name, .none⟩ []).Readable := by
  cases value with
  | false =>
      obtain rfl : name = ⟨ofString "false", by decide⟩ := Name.ext spelled
      exact word rfl rfl rfl rfl (by decide) fun s => rfl
  | true =>
      obtain rfl : name = ⟨ofString "true", by decide⟩ := Name.ext spelled
      exact word rfl rfl rfl rfl (by decide) fun s => rfl

theorem primitive {kind : Kind} (h : kind.isPrimitive = true) : (ofKind kind).Readable := by
  cases kind <;> first
    | exact word rfl rfl rfl rfl (by decide) fun s => rfl
    | cases h

end Readable

/-- The label of a member is read back. -/
theorem readKey_append {name : Name} (key : name.text.IsIdentifier) (readOnly optional : Bool)
    (s : Text) :
    readKey (memberLabel ⟨Kind.member, name, ⟨readOnly, optional, 0⟩⟩ ++ s) =
      some (⟨Kind.member, name, ⟨readOnly, optional, 0⟩⟩, s) := by
  let marks : Text := (if optional then ofString "?" else []) ++ (ofString ": " ++ s)
  have ends : EndsWord marks := by cases optional <;> rfl
  have cut : (name.text ++ marks).span isWordByte = (name.text, marks) := span_append key.word ends
  -- A blank would have to follow the key, but its mark or a colon does.
  have free : after? (ofString "readonly ") (name.text ++ marks) = none := by
    cases h : after? (ofString "readonly ") (name.text ++ marks) with
    | none => rfl
    | some rest =>
        have same : ofString "readonly " ++ rest = name.text ++ marks :=
          List.isPrefixOf?_eq_some_iff_append_eq.1 h
        have word : (ofString "readonly " ++ rest).span isWordByte =
            (ofString "readonly", ofString " " ++ rest) :=
          span_append (w := ofString "readonly") (List.all_eq_true.1 rfl) rfl
        rw [same, cut] at word
        have blank := congrArg Prod.snd word
        cases optional <;> cases blank
  have text : memberLabel ⟨Kind.member, name, ⟨readOnly, optional, 0⟩⟩ ++ s =
      (if readOnly then ofString "readonly " else []) ++ (name.text ++ marks) := by
    simp only [memberLabel, List.append_assoc, marks]
  have mark : readMark (ofString "?") marks = (optional, ofString ": " ++ s) :=
    readMark_append optional rfl
  rw [text, readKey, readMark_append readOnly free]
  simp only [cut, mark]
  simp

/-- A member whose label and type are read back. -/
structure ReadableMember (m : Tree) : Prop where
  shaped : m.IsMember
  key : m.name.text.IsIdentifier
  type : m.first.Readable

namespace ReadableMember

variable {m : Tree}

theorem reading_eq (h : m.ReadableMember) : m.reading = node m.head [m.first.reading] := by
  rw [reading_of_not_compound h.shaped.isCompound_eq, h.shaped.type]
  rfl

theorem readKey_append (h : m.ReadableMember) (s : Text) :
    readKey (m.fullText ++ s) = some (m.head, m.first.fullText ++ s) := by
  have head : m.head = ⟨Kind.member, m.name, ⟨m.modifiers.readOnly, m.modifiers.optional, 0⟩⟩ := by
    change (⟨m.tag, m.name, ⟨_, _, m.modifiers.reserved⟩⟩ : Head) = _
    rw [h.shaped.tag, h.shaped.bits]
    rfl
  have text : m.fullText = memberLabel m.head ++ m.first.fullText := by
    rw [← fullText_member h.shaped.tag, ← h.shaped.type, node_head_children]
  rw [text, List.append_assoc, head]
  exact Tree.readKey_append h.key _ _ _

end ReadableMember

/-- Members are read one after the other. -/
theorem readMembers_append {m : Tree} {ms : List Tree} (first : m.ReadableMember)
    (rest : ∀ n ∈ ms, n.ReadableMember) (s : Text) :
    Reads (readMembers · (m.fullText ++ (ledBy (ofString "; ") (ms.map fullText) ++
      (ofString " \x7d" ++ s)))) ((m :: ms).map reading, ofString " \x7d" ++ s) := by
  induction ms generalizing m with
  | nil =>
      rw [List.map_singleton, first.reading_eq]
      exact readMembers_last (first.readKey_append _) (first.type.whole (stops_brace s)) rfl
  | cons n ns ih =>
      obtain ⟨second, others⟩ := List.forall_mem_cons.1 rest
      rw [List.map_cons, ledBy_cons, List.append_assoc, List.append_assoc, List.map_cons,
        first.reading_eq]
      exact readMembers_more (first.readKey_append _) (first.type.whole (stops_semicolon _))
        (ih second others)

theorem Readable.object {members : List Tree} (h : ∀ m ∈ members, m.ReadableMember) :
    (ofMembers members).Readable := by
  have same : (ofMembers members).reading = ofMembers (members.map reading) :=
    reading_of_not_compound rfl
  cases members with
  | nil =>
      refine of_single rfl (fun s => rfl) (fun s => rfl) fun {s} ends => ?_
      rw [fullText_memberless, same]
      exact readSingle_of_core readCore_memberless
  | cons m ms =>
      obtain ⟨first, rest⟩ := List.forall_mem_cons.1 h
      have text (s : Text) : (ofMembers (m :: ms)).fullText ++ s =
          ofString "\x7b " ++ (m.fullText ++ (ledBy (ofString "; ") (ms.map fullText) ++
            (ofString " \x7d" ++ s))) := by
        rw [fullText_object]
        simp only [List.append_assoc]
      refine of_single rfl (fun s => ?_) (fun s => ?_) fun {s} ends => ?_
      · rw [text]
        rfl
      · rw [text]
        rfl
      · rw [text, same]
        exact readSingle_of_core (readCore_members (readMembers_append first rest s))

/-- Keys are identifiers, and no string literal holds a quote. -/
structure Plain (t : Tree) : Prop where
  keys : ∀ u ∈ t.subtrees, u.isKind .member = true → u.name.text.IsIdentifier
  strings : ∀ u ∈ t.subtrees, u.isKind .stringLiteral = true → byte '"' ∉ u.name.text

instance (t : Tree) : Decidable t.Plain :=
  decidable_of_iff ((∀ u ∈ t.subtrees, u.isKind .member = true → u.name.text.IsIdentifier) ∧
    ∀ u ∈ t.subtrees, u.isKind .stringLiteral = true → byte '"' ∉ u.name.text)
    ⟨fun h => ⟨h.1, h.2⟩, fun h => ⟨h.keys, h.strings⟩⟩

theorem Plain.of_mem_children {t c : Tree} (h : t.Plain) (hc : c ∈ t.children) : c.Plain where
  keys u hu := h.keys u (subtrees_subset hc hu)
  strings u hu := h.strings u (subtrees_subset hc hu)

/-- Every plain type is read back. -/
theorem Normal.readable {t : Tree} (h : t.Normal) (plain : t.Plain) : t.Readable := by
  induction h with
  | primitive h => exact .primitive h
  | literal h =>
      cases h with
      | number canonical => exact .number canonical
      | string name => exact .quoted (plain.strings _ (mem_subtrees_self _) rfl)
      | boolean value spelled => exact .boolean value spelled
  | signature h some _ _ ih =>
      have each := fun c hc => ih c hc (plain.of_mem_children hc)
      obtain ⟨result, parameters, rfl⟩ := List.exists_cons_of_ne_nil some
      obtain ⟨first, rest⟩ := List.forall_mem_cons.1 each
      exact .signature h first rest
  | array _ ih => exact .array (ih (plain.of_mem_children List.mem_cons_self))
  | @union alternatives several _ _ _ _ ih =>
      have each := fun c hc => ih c hc (plain.of_mem_children hc)
      obtain ⟨first, others, rfl⟩ :=
        List.exists_cons_of_length_pos (Nat.zero_lt_of_lt several)
      obtain ⟨first, rest⟩ := List.forall_mem_cons.1 each
      exact .union first rest
  | object _ shaped _ _ ih =>
      refine .object fun m hm => ⟨shaped m hm, ?_, ?_⟩
      · exact plain.keys m (subtrees_subset hm (mem_subtrees_self m)) (isKind_iff.2 (shaped m hm).tag)
      · have inside : m.first ∈ m.children := by
          rw [(shaped m hm).type]
          exact List.mem_cons_self
        exact ih m hm ((plain.of_mem_children hm).of_mem_children inside)

/-- The reader gives the reading of a plain type back from its full text. -/
theorem Normal.readAlternatives_fullText {t : Tree} (h : t.Normal) (plain : t.Plain) :
    ∃ ts, Reads (readAlternatives · t.fullText) (ts, []) ∧ ofAlternatives ts = t.reading := by
  have whole := (h.readable plain).whole (s := []) ⟨rfl, rfl, rfl⟩
  rw [List.append_nil] at whole
  exact ⟨_, whole, rfl⟩

/-- Plain types have the same text exactly when they have the same reading. -/
theorem Normal.fullText_eq_iff {t u : Tree} (ht : t.Normal) (hu : u.Normal) (plain : t.Plain)
    (plain' : u.Plain) : t.fullText = u.fullText ↔ t.reading = u.reading := by
  constructor
  · intro same
    obtain ⟨ts, read, left⟩ := ht.readAlternatives_fullText plain
    obtain ⟨us, read', right⟩ := hu.readAlternatives_fullText plain'
    rw [same] at read
    obtain rfl := (Prod.mk.inj (read.unique read')).1
    exact left.symm.trans right
  · intro same
    rw [← ht.fullText_reading, same, hu.fullText_reading]

end Tree

namespace Descriptor

/-- Plain types with short texts have the same text exactly when they have the same reading. So
types in which no alternative of a union follows a function or a constructor are told apart by their
texts. -/
theorem text_eq_iff_reading_eq {m n : Nat} {a : Descriptor m} {b : Descriptor n}
    (ha : a.Reachable) (hb : b.Reachable) (plain : a.tree.Plain) (plain' : b.tree.Plain)
    (short : a.tree.text.length < 255) (short' : b.tree.text.length < 255) :
    (a.tree.text = b.tree.text ↔ a.tree.reading = b.tree.reading) ∧
      (a.tree.Settled → b.tree.Settled → a.tree.text = b.tree.text → a.tree = b.tree) := by
  have same : a.tree.text = b.tree.text ↔ a.tree.reading = b.tree.reading := by
    rw [Tree.text_eq_fullText short, Tree.text_eq_fullText short']
    exact ha.normal.type.fullText_eq_iff hb.normal.type plain plain'
  refine ⟨same, fun settled settled' texts => ?_⟩
  calc a.tree = a.tree.reading := (ha.normal.type.reading_eq settled).symm
    _ = b.tree.reading := same.1 texts
    _ = b.tree := hb.normal.type.reading_eq settled'

/-- Callbacks in an array are known again at another capacity, and are told apart from a function that
gives an array. -/
theorem text_eq_iff_reading_eq_callbacks :
    ∃ a : Descriptor 3, (do (← fn (← ofKind 3 .void) []).array) = .ok a ∧
      (∃ b : Descriptor 8, (do (← fn (← ofKind 8 .void) []).array) = .ok b ∧
        a.tree = b.tree) ∧
      ∃ c : Descriptor 3, (do fn (← (← ofKind 3 .void).array) []) = .ok c ∧
        ¬a.tree.reading = c.tree.reading := by
  have reachable {m : Nat} {d : Descriptor m}
      (made : (do (← fn (← ofKind m .void) []).array) = .ok d) : d.Reachable :=
    Gives.holds made <| .bind (.kind rfl) fun void hv => .bind (.fn hv (by simp)) fun call hc =>
      .array hc
  let callbacks : Text := .ofString "(() => void)[]"
  refine exists_ok_of_test
    (fun a => a.tree.Plain ∧ a.tree.Settled ∧ a.tree.text = callbacks) (by decide +kernel)
    fun a made test => ⟨?_, ?_⟩
  all_goals obtain ⟨plain, settled, text⟩ := of_decide_eq_true test
  all_goals have short : a.tree.text.length < 255 := by rw [text]; decide
  · refine exists_ok_of_test
      (fun b => b.tree.Plain ∧ b.tree.Settled ∧ b.tree.text = callbacks) (by decide +kernel)
      fun b made' test => ?_
    obtain ⟨plain', settled', text'⟩ := of_decide_eq_true test
    have short' : b.tree.text.length < 255 := by rw [text']; decide
    exact (text_eq_iff_reading_eq (reachable made) (reachable made') plain plain' short short').2
      settled settled' (text.trans text'.symm)
  · refine exists_ok_of_test
      (fun c => c.tree.Plain ∧ c.tree.text = .ofString "() => void[]") (by decide +kernel)
      fun c made' test => ?_
    obtain ⟨plain', text'⟩ := of_decide_eq_true test
    have short' : c.tree.text.length < 255 := by rw [text']; decide
    have function : c.Reachable := Gives.holds made' <| .bind (.kind rfl) fun void hv =>
      .bind (.array hv) fun many hm => .fn hm (by simp)
    rw [← (text_eq_iff_reading_eq (reachable made) function plain plain' short short').1,
      text, text']
    decide

/-- A union that starts with a function has the text of a function whose result is a union. -/
theorem equal_texts_of_different_types :
    ∃ a b : Descriptor 4, a.Reachable ∧ b.Reachable ∧ a.tree.Plain ∧ b.tree.Plain ∧
      a.tree.text.length < 255 ∧ a.tree.text = b.tree.text ∧ a.tree.equiv b.tree = false := by
  obtain ⟨a, ha, plain, text, union⟩ : ∃ a : Descriptor 4,
      (do Descriptor.union [← fn (← ofKind 4 .void) [], ← ofKind 4 .number]) = .ok a ∧
        a.tree.Plain ∧ a.tree.text = .ofString "() => void | number" ∧
        a.tree.isKind .union = true :=
    exists_ok_of_test (fun a => _) (by decide +kernel) fun a made test => of_decide_eq_true test
  obtain ⟨b, hb, plain', text', function⟩ : ∃ b : Descriptor 4,
      (do fn (← Descriptor.union [← ofKind 4 .void, ← ofKind 4 .number]) []) = .ok b ∧
        b.tree.Plain ∧ b.tree.text = .ofString "() => void | number" ∧
        b.tree.isKind .union = false :=
    exists_ok_of_test (fun b => _) (by decide +kernel) fun b made test => of_decide_eq_true test
  refine ⟨a, b, ?_, ?_, plain, plain', ?_, text.trans text'.symm, ?_⟩
  · exact Gives.holds ha <| .bind (.kind rfl) fun void hv => .bind (.fn hv (by simp)) fun call hc =>
      .bind (.kind rfl) fun number hn => .union (by simp [hc, hn])
  · exact Gives.holds hb <| .either (.kind rfl) (.kind rfl) fun either he => .fn he (by simp)
  · rw [text]
    decide
  · by_contra same
    rw [Tree.isKind_eq_of_equiv (Bool.eq_true_of_not_eq_false same), function] at union
    cases union

end Descriptor

end StructuralTypes
