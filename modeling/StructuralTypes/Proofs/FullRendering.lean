import Mathlib.Data.List.Forall2
import StructuralTypes.Proofs.Relocation
import StructuralTypes.Proofs.Reordering

/-!
# The cut of a rendered type

A type is rendered through buffers inside buffers, one for every node and one for every parameter
list, and each of them drops what it has no room for. Nothing is lost that way but the end: no
buffer holds more than its parent has room for, so a text that was cut fills whatever it is appended
to. The rendered type is therefore cut once, behind its 255th byte.
-/

namespace StructuralTypes

section Lists

/-- What stands between related elements may be related, too. -/
theorem forall₂_intersperse {α β : Type} {R : α → β → Prop} {xs : List α} {ys : List β} {s : α}
    {t : β} (h : List.Forall₂ R xs ys) (between : R s t) :
    List.Forall₂ R (xs.intersperse s) (ys.intersperse t) := by
  induction h with
  | nil => exact .nil
  | cons first rest ih =>
      cases rest with
      | nil => exact .cons first .nil
      | cons => exact .cons first (.cons between ih)

theorem forall₂_flatten {α β : Type} {R : α → β → Prop} {xss : List (List α)} {yss : List (List β)}
    (h : List.Forall₂ (List.Forall₂ R) xss yss) : List.Forall₂ R xss.flatten yss.flatten := by
  induction h with
  | nil => exact .nil
  | cons first _ ih => exact List.rel_append first ih

theorem forall₂_zipIdx {α β : Type} {R : α → β → Prop} {xs : List α} {ys : List β}
    (h : List.Forall₂ R xs ys) (k : Nat) :
    List.Forall₂ (fun x y => R x.1 y.1 ∧ x.2 = y.2) (xs.zipIdx k) (ys.zipIdx k) := by
  induction h generalizing k with
  | nil => exact .nil
  | cons first _ ih => exact .cons ⟨first, rfl⟩ (ih (k + 1))

end Lists

namespace Text

/-- The first `n` bytes are the same. -/
def AgreeTo (n : Nat) (p q : Text) : Prop := p.take n = q.take n

variable {n : Nat}

theorem AgreeTo.refl (p : Text) : AgreeTo n p p := rfl

theorem agreeTo_take (p : Text) : AgreeTo n (p.take n) p := by
  rw [AgreeTo, List.take_take, Nat.min_self]

/-- Behind a text, only what is left of the first `n` bytes counts. -/
theorem take_append_take (p q : Text) : (p.take n ++ q.take n).take n = (p ++ q).take n := by
  rw [List.take_append, List.take_append, List.take_take, List.take_take, Nat.min_self,
    List.length_take]
  rcases Nat.le_total n p.length with long | short
  · rw [Nat.min_eq_left long, Nat.sub_self, Nat.sub_eq_zero_of_le long, Nat.zero_min]
  · rw [Nat.min_eq_right short, Nat.min_eq_left (Nat.sub_le _ _)]

theorem AgreeTo.append {p q p' q' : Text} (first : AgreeTo n p q) (rest : AgreeTo n p' q') :
    AgreeTo n (p ++ p') (q ++ q') :=
  calc (p ++ p').take n = (p.take n ++ p'.take n).take n := (take_append_take p p').symm
    _ = (q.take n ++ q'.take n).take n := by rw [first, rest]
    _ = (q ++ q').take n := take_append_take q q'

/-- The texts in the two lists agree one by one. -/
abbrev AllAgreeTo (n : Nat) : List Text → List Text → Prop := List.Forall₂ (AgreeTo n)

namespace AllAgreeTo

variable {ps qs : List Text}

theorem refl (ps : List Text) : AllAgreeTo n ps ps := List.forall₂_same.2 fun p _ => .refl p

theorem flatten (h : AllAgreeTo n ps qs) : AgreeTo n ps.flatten qs.flatten := by
  induction h with
  | nil => exact .refl []
  | cons first _ ih => exact first.append ih

theorem headD (h : AllAgreeTo n ps qs) : AgreeTo n (ps.headD []) (qs.headD []) := by
  cases h with
  | nil => exact .refl []
  | cons first => exact first

theorem isEmpty (h : AllAgreeTo n ps qs) : ps.isEmpty = qs.isEmpty := by
  cases h <;> rfl

end AllAgreeTo

end Text

open Text

/-- A buffer holds the first bytes of everything that is appended to it. -/
theorem Buffer.content_ofParts {cells : Nat} (parts : List Text) :
    (ofParts parts : Buffer cells).content = parts.flatten.take (cells - 1) := by
  suffices onto : ∀ b : Buffer cells,
      (parts.foldl append b).content = (b.content ++ parts.flatten).take (cells - 1) from
    onto empty
  induction parts with
  | nil =>
      intro b
      rw [List.foldl_nil, List.flatten_nil, List.append_nil, List.take_of_length_le b.fits]
  | cons part parts ih =>
      intro b
      have cut : AgreeTo (cells - 1) (b.append part).content (b.content ++ part) := by
        rw [content_append]
        exact agreeTo_take _
      calc ((part :: parts).foldl append b).content
          = ((b.append part).content ++ parts.flatten).take (cells - 1) := ih (b.append part)
        _ = ((b.content ++ part) ++ parts.flatten).take (cells - 1) := cut.append (.refl _)
        _ = (b.content ++ (part :: parts).flatten).take (cells - 1) := by
            rw [List.flatten_cons, List.append_assoc]

namespace Tree

mutual

/-- The text of a type without any limit on its length, by the same grammar. -/
def fullText : Tree → Text
  | node head children =>
    let shown := fullTexts children
    (parts head children (parameterParts (shown.drop 1)).flatten shown).flatten

/-- The texts of some types without any limit on their lengths. -/
def fullTexts : List Tree → List Text
  | [] => []
  | t :: ts => t.fullText :: fullTexts ts

end

theorem fullTexts_eq_map (ts : List Tree) : fullTexts ts = ts.map fullText := by
  induction ts with
  | nil => rfl
  | cons t ts ih => rw [fullTexts, ih, List.map_cons]

theorem fullText_node (head : Head) (children : List Tree) :
    (node head children).fullText =
      (parts head children (parameterParts ((children.map fullText).drop 1)).flatten
        (children.map fullText)).flatten := by
  rw [fullText, fullTexts_eq_map]

section Grammar

variable {n : Nat} {shown shown' : List Text}

/-- Parameter lists agree as far as the types of the parameters do. -/
theorem parameterParts_agreeTo (h : AllAgreeTo n shown shown') :
    AllAgreeTo n (parameterParts shown) (parameterParts shown') := by
  refine List.rel_append (List.rel_append (AllAgreeTo.refl _) (forall₂_flatten ?_))
    (AllAgreeTo.refl _)
  refine forall₂_intersperse ?_ (AllAgreeTo.refl _)
  rw [List.forall₂_map_left_iff, List.forall₂_map_right_iff]
  refine (forall₂_zipIdx h 0).imp ?_
  rintro ⟨p, i⟩ ⟨q, j⟩ ⟨same, rfl⟩
  exact List.rel_append (AllAgreeTo.refl [_, _, _]) (.cons same .nil)

/-- What is written for a node agrees as far as its parameter list and its children do. -/
theorem parts_agreeTo (head : Head) (children : List Tree) {parameters parameters' : Text}
    (h : AllAgreeTo n shown shown') (list : AgreeTo n parameters parameters') :
    AllAgreeTo n (parts head children parameters shown)
      (parts head children parameters' shown') := by
  have words (words : List Text) : AllAgreeTo n words words := .refl words
  have first : AllAgreeTo n [shown.headD []] [shown'.headD []] := .cons h.headD .nil
  have listed (s : Text) : AllAgreeTo n (shown.intersperse s) (shown'.intersperse s) :=
    forall₂_intersperse h (.refl s)
  unfold parts
  split
  -- Functions and constructors, arrays, unions, objects, members, and other tags show their children.
  case h_5 => exact .cons list (List.rel_append (words [_]) first)
  case h_6 => exact .cons (.refl _) (.cons list (List.rel_append (words [_]) first))
  case h_7 =>
    split
    · exact List.rel_append (words [_]) (List.rel_append first (words [_, _]))
    · exact List.rel_append first (words [_])
  case h_8 => exact listed _
  case h_9 =>
    rw [h.isEmpty]
    split
    · exact words _
    · exact List.rel_append (List.rel_append (words _) (listed _)) (words _)
  case h_10 => exact List.rel_append (words [_, _, _, _]) first
  case h_12 => exact List.rel_append (List.rel_append (words _) (listed _)) (words _)
  all_goals exact words _

end Grammar

/-- The rendered type is the beginning of the full text. -/
theorem text_eq_take (t : Tree) : t.text = t.fullText.take 255 := by
  induction t using nodeInduction with
  | node head children ih =>
      have shown : AllAgreeTo 255 (children.map text) (children.map fullText) := by
        refine List.forall₂_map_left_iff.2 (List.forall₂_map_right_iff.2 (List.forall₂_same.2 ?_))
        intro c hc
        rw [ih c hc]
        exact agreeTo_take _
      have parameters : AgreeTo 255
          (Buffer.ofParts (parameterParts ((children.map text).drop 1)) : Buffer 256).content
          (parameterParts ((children.map fullText).drop 1)).flatten := by
        rw [Buffer.content_ofParts]
        exact (agreeTo_take _).trans
          (parameterParts_agreeTo (List.forall₂_drop 1 shown)).flatten
      rw [text, render_node, Buffer.content_ofParts, fullText_node]
      exact (parts_agreeTo head children shown parameters).flatten

/-- A text that leaves room in its buffer is the full text. -/
theorem text_eq_fullText {t : Tree} (short : t.text.length < 255) : t.text = t.fullText := by
  rw [text_eq_take] at short ⊢
  apply List.take_of_length_le
  rw [List.length_take] at short
  omega

end Tree

/-- Where every node is legible, so is the tree of every node. -/
theorem Arena.legible_tree {m : Nat} {a : Arena m}
    (first : ∀ i < a.size, (a.node i).head.tag.readsFirst = true → (a.node i).children ≠ [])
    (i : Nat) : (a.tree i).Legible := by
  induction i using Nat.strongRecOn with
  | _ i ih =>
      rw [a.tree_node]
      refine .node (fun reads => ?_) (List.forall_mem_map.2 fun c hc => ih c (a.child_lt hc))
      rcases Nat.lt_or_ge i a.size with inside | outside
      · simpa using first i inside reads
      · rw [a.node_eq_default outside] at reads
        cases reads

namespace Descriptor

/-- A stored type of any tags is rendered as the first 255 bytes of its full text, although every
node and every parameter list is cut on its own. -/
theorem rendered_eq_cut {cap : Nat} (d : Descriptor cap)
    (first : ∀ i < d.arena.size, (d.arena.node i).head.tag.readsFirst = true →
      (d.arena.node i).children ≠ []) :
    ∃ b, d.rendered = some b ∧ b.content = d.tree.fullText.take 255 := by
  refine ⟨d.tree.render, ?_, d.tree.text_eq_take⟩
  exact d.arena.renderAt_of_legible (Arena.legible_tree first d.root)

/-- A function of a tuple of nine long strings. Its text is cut twice, in the tuple and in the
parameter list, and the result is never written. -/
theorem rendered_eq_cut_tuple :
    ∃ d : Descriptor 3,
      d.arena.nodes = #[
        ⟨⟨Kind.stringLiteral, ⟨List.replicate 31 (Text.byte 'a'), by decide⟩, .none⟩, []⟩,
        ⟨⟨.ofText (.ofString "tuple"), .blank, .none⟩, List.replicate 9 0⟩,
        ⟨.ofKind .fn, [0, 1]⟩] ∧
      (∃ b, d.rendered = some b ∧ b.content = d.tree.fullText.take 255) ∧
      255 < d.tree.fullText.length := by
  let d : Descriptor 3 := {
    arena := {
      nodes := #[
        ⟨⟨Kind.stringLiteral, ⟨List.replicate 31 (Text.byte 'a'), by decide⟩, .none⟩, []⟩,
        ⟨⟨.ofText (.ofString "tuple"), .blank, .none⟩, List.replicate 9 0⟩,
        ⟨.ofKind .fn, [0, 1]⟩]
      bounded := by decide
      ordered := by decide }
    root := 2
    inside := by decide }
  exact ⟨d, rfl, d.rendered_eq_cut (by decide), by decide +kernel⟩

end Descriptor

end StructuralTypes
