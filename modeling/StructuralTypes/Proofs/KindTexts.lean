import StructuralTypes.Proofs.FullRendering

/-!
# The texts of each kind of type

The grammar puts the text of a type together from parts. For each kind this comes to a few texts of
its children between fixed ones: separated alternatives and members, labelled parameters, labelled
declared types.
-/

namespace StructuralTypes

namespace Text

/-- Some texts with a separator before each. -/
def ledBy (separator : Text) (ts : List Text) : Text := (ts.map (separator ++ ·)).flatten

theorem ledBy_cons (separator t : Text) (ts : List Text) :
    ledBy separator (t :: ts) = separator ++ (t ++ ledBy separator ts) := by
  rw [ledBy, List.map_cons, List.flatten_cons, List.append_assoc]
  rfl

theorem ledBy_append (separator : Text) (ts us : List Text) :
    ledBy separator (ts ++ us) = ledBy separator ts ++ ledBy separator us := by
  rw [ledBy, List.map_append, List.flatten_append]
  rfl

/-- Separated texts are led by a separator, except for the first of them. -/
theorem flatten_intersperse_cons (separator t : Text) (ts : List Text) :
    ((t :: ts).intersperse separator).flatten = t ++ ledBy separator ts := by
  induction ts generalizing t with
  | nil => rfl
  | cons u us ih =>
      rw [List.intersperse_cons_cons, List.flatten_cons, List.flatten_cons, ih, ledBy_cons]

/-- Separated lists of texts are put together like separated texts. -/
theorem flatten_flatten_intersperse (separator : Text) (tss : List (List Text)) :
    (tss.intersperse [separator]).flatten.flatten =
      ((tss.map List.flatten).intersperse separator).flatten := by
  induction tss with
  | nil => rfl
  | cons ts tss ih =>
      cases tss with
      | nil =>
          rw [List.map_singleton, List.intersperse_singleton, List.intersperse_singleton,
            List.flatten_singleton, List.flatten_singleton]
      | cons us uss =>
          rw [List.map_cons, List.map_cons, List.intersperse_cons_cons, List.intersperse_cons_cons,
            List.flatten_cons, List.flatten_cons, List.flatten_append, List.flatten_append, ih,
            List.flatten_singleton, List.map_cons, List.flatten_cons, List.flatten_cons]

end Text

open Text

namespace Tree

/-- What a constructor type starts with. -/
def signatureWord : Kind → Text
  | .ctor => .ofString "new "
  | _ => []

theorem fullText_signature {kind : Kind} (h : kind.isSignature = true) (result : Tree)
    (parameters : List Tree) :
    (node (.ofKind kind) (result :: parameters)).fullText =
      signatureWord kind ++ ((parameterParts (parameters.map fullText)).flatten ++
        (.ofString " => " ++ result.fullText)) := by
  rw [fullText_node]
  cases kind
  case fn => simp [parts, Head.ofKind, signatureWord]
  case ctor => simp [parts, Head.ofKind, signatureWord]
  all_goals cases h

/-- Children may be replaced by others with the same texts, as long as the same of them stand in
parentheses. -/
theorem fullText_congr (head : Head) {ts us : List Tree} (texts : ts.map fullText = us.map fullText)
    (compound : ts.map isCompound = us.map isCompound) :
    (node head ts).fullText = (node head us).fullText := by
  have wrapped : ts.head?.any isCompound = us.head?.any isCompound := by
    cases ts <;> cases us
    · rfl
    · cases compound
    · cases compound
    · exact (List.cons.inj compound).1
  have same (parameters : Text) (shown : List Text) :
      parts head ts parameters shown = parts head us parameters shown := by
    unfold parts
    simp only [wrapped]
  rw [fullText_node, fullText_node, same, texts]

theorem fullText_array (element : Tree) :
    (node (.ofKind .array) [element]).fullText =
      if element.isCompound then
        .ofString "(" ++ (element.fullText ++ (.ofString ")" ++ .ofString "[]"))
      else element.fullText ++ .ofString "[]" := by
  rw [fullText_node]
  cases compound : element.isCompound <;> simp [parts, Head.ofKind, compound]

theorem fullText_memberless : (ofMembers []).fullText = .ofString "\x7b\x7d" := rfl

theorem fullText_object (m : Tree) (ms : List Tree) :
    (ofMembers (m :: ms)).fullText =
      .ofString "\x7b " ++ (m.fullText ++ (ledBy (.ofString "; ") (ms.map fullText) ++
        .ofString " \x7d")) := by
  rw [ofMembers, fullText_node]
  have separated := flatten_intersperse_cons (.ofString "; ") m.fullText (ms.map fullText)
  simp [parts, Head.ofKind, separated]

/-- What stands before the type of a member. -/
def memberLabel (head : Head) : Text :=
  (if head.modifiers.readOnly then ofString "readonly " else []) ++ (head.name.text ++
    ((if head.modifiers.optional then ofString "?" else []) ++ ofString ": "))

theorem fullText_member {head : Head} (member : head.tag = .known .member) (type : Tree) :
    (node head [type]).fullText = memberLabel head ++ type.fullText := by
  rw [fullText_node]
  simp [parts, member, memberLabel]

/-- What stands before the type of a parameter. -/
def parameterLabel : Nat → Text
  | 0 => .ofString "arg" ++ .ofNat 0 ++ .ofString ": "
  | i + 1 => .ofString ", arg" ++ .ofNat (i + 1) ++ .ofString ": "

/-- Types with their labels, from a position on. -/
def labelled : Nat → List Text → Text
  | _, [] => []
  | i, t :: ts => parameterLabel i ++ (t ++ labelled (i + 1) ts)

theorem labelled_succ (i : Nat) (ts : List Text) :
    labelled (i + 1) ts = ledBy (.ofString ", ") ((ts.zipIdx (i + 1)).map fun (t, i) =>
      [ofString "arg", ofNat i, ofString ": ", t].flatten) := by
  induction ts generalizing i with
  | nil => rfl
  | cons t ts ih =>
      rw [labelled, ih, List.zipIdx_cons, List.map_cons, ledBy_cons]
      have comma : Text.ofString ", arg" = ofString ", " ++ ofString "arg" := rfl
      simp [parameterLabel, comma]

theorem flatten_parameterParts (types : List Text) :
    (parameterParts types).flatten = ofString "(" ++ (labelled 0 types ++ ofString ")") := by
  have list : labelled 0 types = ((types.zipIdx.map fun (t, i) =>
      [ofString "arg", ofNat i, ofString ": ", t].flatten).intersperse
        (ofString ", ")).flatten := by
    cases types with
    | nil => rfl
    | cons t ts =>
        rw [List.zipIdx_cons, List.map_cons, flatten_intersperse_cons, ← labelled_succ, labelled]
        simp [parameterLabel]
  rw [list, parameterParts, List.flatten_append, List.flatten_append, flatten_flatten_intersperse,
    List.map_map]
  simp [Function.comp_def]

end Tree

end StructuralTypes
