import StructuralTypes.Proofs.KindTexts
import StructuralTypes.Proofs.Transitivity

/-!
# What the text of a type says

An array writes functions, constructors and unions in parentheses, but a union writes its
alternatives as they are. So the arrow of a function among them reaches over all alternatives behind
it: as a text, a union that starts with a function is a function whose result is a union. The
reading of a type is the type that its text says in this way. It has the same text, and it is the
type itself unless a function or a constructor is followed by another alternative of a union.
-/

namespace StructuralTypes

open Text

namespace Tree

mutual

/-- The alternatives that are read where the text of a type stands before other alternatives. The
first arrow takes all that follows it into its result. -/
def readBefore : Tree → List Tree → List Tree
  | node head children, behind =>
    match head.tag with
    | .known .union => readAllBefore children behind
    | .known .fn | .known .ctor => [node head (readSignature children behind)]
    | _ => node head (readEach children) :: behind

/-- The alternatives that are read where several types stand before other alternatives. -/
def readAllBefore : List Tree → List Tree → List Tree
  | [], behind => behind
  | t :: ts, behind => t.readBefore (readAllBefore ts behind)

/-- The result, which is followed by other alternatives, and the parameters. -/
def readSignature : List Tree → List Tree → List Tree
  | [], _ => []
  | result :: parameters, behind => ofAlternatives (result.readBefore behind) :: readEach parameters

/-- What is read of several types, each by itself. -/
def readEach : List Tree → List Tree
  | [] => []
  | t :: ts => ofAlternatives (t.readBefore []) :: readEach ts

end

/-- The type that the text of a type says. -/
def reading (t : Tree) : Tree := ofAlternatives (t.readBefore [])

theorem readEach_eq_map (ts : List Tree) : readEach ts = ts.map reading := by
  induction ts with
  | nil => rfl
  | cons t ts ih => rw [readEach, ih, List.map_cons, reading]

/-- A type that is not compound is read by itself. -/
theorem readBefore_of_not_compound {t : Tree} (h : t.isCompound = false) (behind : List Tree) :
    t.readBefore behind = node t.head (t.children.map reading) :: behind := by
  cases t with
  | node head children =>
      simp only [isCompound, isKind_node, Bool.or_eq_false_iff, beq_eq_false_iff_ne] at h
      obtain ⟨⟨union, fn⟩, ctor⟩ := h
      rw [readBefore]
      split
      · exact absurd ‹_› union
      · exact absurd ‹_› fn
      · exact absurd ‹_› ctor
      · rw [readEach_eq_map]
        rfl

theorem reading_of_not_compound {t : Tree} (h : t.isCompound = false) :
    t.reading = node t.head (t.children.map reading) := by
  rw [reading, readBefore_of_not_compound h, ofAlternatives]

theorem readBefore_signature {kind : Kind} (h : kind.isSignature = true) (result : Tree)
    (parameters behind : List Tree) :
    (node (.ofKind kind) (result :: parameters)).readBefore behind =
      [node (.ofKind kind) (ofAlternatives (result.readBefore behind) :: parameters.map reading)] := by
  rw [← readEach_eq_map]
  cases kind <;> first | rfl | cases h

/-- The bar between two alternatives. -/
def bar : Text := .ofString " | "

/-- The texts of some types with a bar before each. -/
def behindBars (ts : List Tree) : Text := ledBy bar (ts.map fullText)

theorem behindBars_cons (t : Tree) (ts : List Tree) :
    behindBars (t :: ts) = bar ++ (t.fullText ++ behindBars ts) := ledBy_cons _ _ _

theorem behindBars_append (ts us : List Tree) :
    behindBars (ts ++ us) = behindBars ts ++ behindBars us := by
  rw [behindBars, List.map_append, ledBy_append]
  rfl

section FullText

theorem fullText_union (t : Tree) (ts : List Tree) :
    (node (.ofKind .union) (t :: ts)).fullText = t.fullText ++ behindBars ts := by
  rw [fullText_node]
  exact flatten_intersperse_cons bar t.fullText (ts.map fullText)

/-- A type is written as its alternatives are. -/
theorem fullText_ofAlternatives {ts : List Tree} {s : Text} (h : behindBars ts = bar ++ s) :
    (ofAlternatives ts).fullText = s := by
  apply (List.append_right_inj bar).1
  rw [← h]
  match ts with
  | [] => cases h
  | [t] => rw [ofAlternatives, behindBars_cons, behindBars, List.map_nil, ledBy, List.map_nil,
      List.flatten_nil, List.append_nil]
  | t :: u :: rest =>
      change bar ++ (node (.ofKind .union) (t :: u :: rest)).fullText = _
      rw [fullText_union, behindBars_cons t]

end FullText

theorem isCompound_of_isPrimitive {kind : Kind} (h : kind.isPrimitive = true) :
    (ofKind kind).isCompound = false := by
  cases kind <;> first | rfl | cases h

/-- A compound type is a signature or a union. -/
theorem Normal.exists_of_isCompound {t : Tree} (h : t.Normal) (compound : t.isCompound = true) :
    (∃ kind result parameters, kind.isSignature = true ∧
      t = node (.ofKind kind) (result :: parameters)) ∨ t.isKind .union = true := by
  cases h with
  | primitive h =>
      rw [isCompound_of_isPrimitive h] at compound
      cases compound
  | literal h => cases h <;> cases compound
  | @signature kind types h some =>
      obtain ⟨result, parameters, rfl⟩ := List.exists_cons_of_ne_nil some
      exact .inl ⟨kind, result, parameters, h, rfl⟩
  | array => cases compound
  | union => exact .inr rfl
  | object => cases compound

/-- The text of a type says its reading, whatever follows, and an array of it writes the same
parentheses. -/
structure ReadAlike (t : Tree) : Prop where
  texts : ∀ behind, behindBars (t.readBefore behind) = behindBars (t :: behind)
  compound : t.reading.isCompound = t.isCompound

namespace ReadAlike

variable {t : Tree}

theorem fullText_ofAlternatives (h : t.ReadAlike) (behind : List Tree) :
    (ofAlternatives (t.readBefore behind)).fullText = t.fullText ++ behindBars behind := by
  apply Tree.fullText_ofAlternatives
  rw [h.texts, behindBars_cons]

theorem fullText_reading (h : t.ReadAlike) : t.reading.fullText = t.fullText := by
  rw [reading, h.fullText_ofAlternatives]
  exact List.append_nil _

theorem readBefore_ne_nil (h : t.ReadAlike) (behind : List Tree) : t.readBefore behind ≠ [] := by
  intro none
  have texts := h.texts behind
  rw [none, behindBars_cons] at texts
  cases texts

theorem map_fullText_reading {ts : List Tree} (h : ∀ t ∈ ts, t.ReadAlike) :
    (ts.map reading).map fullText = ts.map fullText := by
  rw [List.map_map]
  exact List.map_congr_left fun t ht => (h t ht).fullText_reading

theorem map_isCompound_reading {ts : List Tree} (h : ∀ t ∈ ts, t.ReadAlike) :
    (ts.map reading).map isCompound = ts.map isCompound := by
  rw [List.map_map]
  exact List.map_congr_left fun t ht => (h t ht).compound

/-- What is no compound type keeps its head, so its children decide. -/
theorem of_children (single : t.isCompound = false) (below : ∀ c ∈ t.children, c.ReadAlike) :
    t.ReadAlike := by
  have same : (node t.head (t.children.map reading)).fullText = t.fullText := by
    conv_rhs => rw [← node_head_children t]
    apply fullText_congr
    · exact map_fullText_reading below
    · exact map_isCompound_reading below
  constructor
  · intro behind
    rw [readBefore_of_not_compound single, behindBars_cons, behindBars_cons, same]
  · rw [reading_of_not_compound single]
    exact isCompound_congr rfl

theorem signature {kind : Kind} (h : kind.isSignature = true) {result : Tree}
    {parameters : List Tree} (first : result.ReadAlike) (rest : ∀ p ∈ parameters, p.ReadAlike) :
    (node (.ofKind kind) (result :: parameters)).ReadAlike := by
  constructor
  · intro behind
    rw [readBefore_signature h, behindBars_cons, behindBars_cons, fullText_signature h,
      fullText_signature h, map_fullText_reading rest, first.fullText_ofAlternatives]
    simp only [behindBars, List.map_nil, ledBy, List.flatten_nil, List.append_assoc,
      List.append_nil]
  · rw [reading, readBefore_signature h]
    exact isCompound_congr rfl

theorem behindBars_readAllBefore {ts : List Tree} (h : ∀ t ∈ ts, t.ReadAlike)
    (behind : List Tree) : behindBars (readAllBefore ts behind) = behindBars (ts ++ behind) := by
  induction ts with
  | nil => rfl
  | cons t ts ih =>
      obtain ⟨first, rest⟩ := List.forall_mem_cons.1 h
      calc behindBars (t.readBefore (readAllBefore ts behind))
          = bar ++ (t.fullText ++ behindBars (readAllBefore ts behind)) := by
            rw [first.texts, behindBars_cons]
        _ = behindBars (t :: ts ++ behind) := by
            rw [ih rest, List.cons_append, behindBars_cons]

end ReadAlike

theorem ofAlternatives_of_several {ts : List Tree} (several : 2 ≤ ts.length) :
    ofAlternatives ts = node (.ofKind .union) ts := by
  match ts with
  | [] => cases several
  | [_] => simp at several
  | _ :: _ :: _ => rfl

theorem isCompound_signature {kind : Kind} (h : kind.isSignature = true) (types : List Tree) :
    (node (.ofKind kind) types).isCompound = true := by
  cases kind <;> first | rfl | cases h

/-- Where an alternative stands before others, a compound type is read. -/
theorem IsAlternative.isCompound_readBefore {t : Tree} (h : t.IsAlternative) (normal : t.Normal)
    {behind : List Tree} (some : behind ≠ []) :
    (ofAlternatives (t.readBefore behind)).isCompound = true := by
  cases compound : t.isCompound with
  | false =>
      rw [readBefore_of_not_compound compound]
      have several : 2 ≤ (node t.head (t.children.map reading) :: behind).length :=
        Nat.succ_le_succ (List.length_pos_iff.2 some)
      rw [ofAlternatives_of_several several]
      rfl
  | true =>
      rcases normal.exists_of_isCompound compound with ⟨kind, result, parameters, hk, rfl⟩ | union
      · rw [readBefore_signature hk]
        exact isCompound_signature hk _
      · rw [h.noUnion] at union
        cases union

theorem IsMember.isCompound_eq {m : Tree} (h : m.IsMember) : m.isCompound = false := by
  simp [isCompound, isKind, h.tag]

/-- The text of a normal type says its reading. -/
theorem Normal.readAlike {t : Tree} (h : t.Normal) : t.ReadAlike := by
  induction h with
  | primitive h => exact .of_children (isCompound_of_isPrimitive h) nofun
  | literal h => exact .of_children (by cases h <;> rfl) nofun
  | signature h some _ _ ih =>
      obtain ⟨result, parameters, rfl⟩ := List.exists_cons_of_ne_nil some
      obtain ⟨first, rest⟩ := List.forall_mem_cons.1 ih
      exact .signature h first rest
  | array _ ih => exact .of_children rfl (List.forall_mem_singleton.2 ih)
  | @union alternatives several _ _ proper normal ih =>
      match alternatives with
      | first :: second :: rest =>
          constructor
          case texts =>
            intro behind
            calc behindBars (readAllBefore (first :: second :: rest) behind)
                = behindBars (first :: second :: rest) ++ behindBars behind := by
                  rw [ReadAlike.behindBars_readAllBefore ih, behindBars_append]
              _ = behindBars (node (.ofKind .union) (first :: second :: rest) :: behind) := by
                  rw [behindBars_cons first, behindBars_cons (node _ _), fullText_union,
                    List.append_assoc]
          case compound =>
            -- The first alternative either stays one of several or takes them all behind its arrow.
            have more := (ih second (by simp)).readBefore_ne_nil (readAllBefore rest [])
            exact (proper first List.mem_cons_self).isCompound_readBefore
              (normal first List.mem_cons_self) more
  | object _ shaped _ _ ih =>
      refine .of_children rfl fun m hm => .of_children (shaped m hm).isCompound_eq ?_
      rw [(shaped m hm).type]
      exact List.forall_mem_singleton.2 (ih m hm)

/-- The text of a type is the text of its reading. -/
theorem Normal.fullText_reading {t : Tree} (h : t.Normal) : t.reading.fullText = t.fullText :=
  h.readAlike.fullText_reading

/-- In no union at any depth does another alternative follow a function or a constructor. -/
def Settled (t : Tree) : Prop :=
  ∀ u ∈ t.subtrees, u.isKind .union = true → ∀ a ∈ u.children.dropLast, a.isCompound = false

instance (t : Tree) : Decidable t.Settled :=
  inferInstanceAs (Decidable (∀ u ∈ t.subtrees, u.isKind .union = true →
    ∀ a ∈ u.children.dropLast, a.isCompound = false))

theorem Settled.of_mem_children {t c : Tree} (h : t.Settled) (hc : c ∈ t.children) : c.Settled :=
  fun u hu => h u (subtrees_subset hc hu)

/-- A type other than a union is read as a single alternative. -/
theorem Normal.readBefore_nil {t : Tree} (h : t.Normal) (noUnion : t.isKind .union = false) :
    t.readBefore [] = [t.reading] := by
  cases compound : t.isCompound with
  | false => rw [reading, readBefore_of_not_compound compound, ofAlternatives]
  | true =>
      rcases h.exists_of_isCompound compound with ⟨kind, result, parameters, hk, rfl⟩ | union
      · rw [reading, readBefore_signature hk, ofAlternatives]
      · rw [noUnion] at union
        cases union

/-- Alternatives that are read as they are stay apart if only the last of them has an arrow. -/
theorem readAllBefore_eq {ts : List Tree} (normal : ∀ t ∈ ts, t.Normal)
    (proper : ∀ t ∈ ts, t.IsAlternative) (each : ∀ t ∈ ts, t.reading = t)
    (apart : ∀ t ∈ ts.dropLast, t.isCompound = false) : readAllBefore ts [] = ts := by
  induction ts with
  | nil => rfl
  | cons t ts ih =>
      obtain ⟨known, normal'⟩ := List.forall_mem_cons.1 normal
      obtain ⟨alternative, proper'⟩ := List.forall_mem_cons.1 proper
      obtain ⟨first, rest⟩ := List.forall_mem_cons.1 each
      cases ts with
      | nil =>
          rw [readAllBefore, readAllBefore, known.readBefore_nil alternative.noUnion, first]
      | cons u us =>
          obtain ⟨solid, apart⟩ := List.forall_mem_cons.1 apart
          rw [readAllBefore, ih normal' proper' rest apart, readBefore_of_not_compound solid,
            ← reading_of_not_compound solid, first]

/-- A settled type is read as it is. -/
theorem Normal.reading_eq {t : Tree} (h : t.Normal) (settled : t.Settled) : t.reading = t := by
  have all {ts : List Tree} (each : ∀ t ∈ ts, t.reading = t) : ts.map reading = ts := by
    rw [List.map_congr_left each, List.map_id']
  induction h with
  | primitive h => rw [reading_of_not_compound (isCompound_of_isPrimitive h)]; rfl
  | literal h => rw [reading_of_not_compound (by cases h <;> rfl)]; rfl
  | signature h some _ _ ih =>
      have each := fun c hc => ih c hc (settled.of_mem_children hc)
      obtain ⟨result, parameters, rfl⟩ := List.exists_cons_of_ne_nil some
      obtain ⟨first, rest⟩ := List.forall_mem_cons.1 each
      rw [reading, readBefore_signature h, ← reading, first, all rest, ofAlternatives]
  | @array element _ ih =>
      rw [reading_of_not_compound rfl]
      have only := ih (settled.of_mem_children List.mem_cons_self)
      exact congrArg (node (.ofKind .array) [·]) only
  | @union alternatives several _ _ proper normal ih =>
      have each := fun c hc => ih c hc (settled.of_mem_children hc)
      have same := readAllBefore_eq normal proper each (settled _ (mem_subtrees_self _) rfl)
      change ofAlternatives (readAllBefore alternatives []) = _
      rw [same]
      exact ofAlternatives_of_several several
  | @object members _ shaped _ _ ih =>
      have each : ∀ m ∈ members, m.reading = m := by
        intro m hm
        have inside : m.first ∈ m.children := by
          rw [(shaped m hm).type]
          exact List.mem_cons_self
        have only := ih m hm ((settled.of_mem_children hm).of_mem_children inside)
        rw [reading_of_not_compound (shaped m hm).isCompound_eq, (shaped m hm).type,
          List.map_singleton, only, ← (shaped m hm).type, node_head_children]
      exact (reading_of_not_compound rfl).trans (congrArg (node (.ofKind .object)) (all each))

end Tree

end StructuralTypes
