import StructuralTypes.Name
import StructuralTypes.Modifiers
import StructuralTypes.Tag

/-!
# Type trees

A type is a finite ordered tree. Each node has a head, made of a tag, a name and modifiers, and its
children. What a type means depends on its tree alone, never on how the tree is stored.
-/

namespace StructuralTypes

/-- What a node says without its children. -/
structure Head where
  tag : Tag
  name : Name
  modifiers : Modifiers
deriving DecidableEq

namespace Head

/-- The head of a kind, without a name and without modifiers. -/
def ofKind (kind : Kind) : Head := ⟨kind, .blank, .none⟩

instance : Inhabited Head := ⟨ofKind .never⟩

/-- The head with the given texts. The tag is cut, but a long name is a fault. -/
def ofTexts (tag name : Text) (modifiers : Modifiers) : Except Fault Head := do
  return ⟨.ofText tag, ← Name.ofText .nameTooLong name, modifiers⟩

end Head

/-- A type tree. -/
inductive Tree
  | node (head : Head) (children : List Tree)

namespace Tree

/-- The head of the root. -/
def head : Tree → Head
  | node head _ => head

/-- The subtrees below the root, in order. -/
def children : Tree → List Tree
  | node _ children => children

/-- The tag of the root. -/
def tag (t : Tree) : Tag := t.head.tag

/-- The name of the root. -/
def name (t : Tree) : Name := t.head.name

/-- The modifiers of the root. -/
def modifiers (t : Tree) : Modifiers := t.head.modifiers

/-- The root is of a kind. -/
def isKind (t : Tree) (kind : Kind) : Bool := t.tag == .known kind

/-- The tree of a single node of a kind. -/
def ofKind (kind : Kind) : Tree := node (.ofKind kind) []

instance : Inhabited Tree := ⟨ofKind .never⟩

@[simp] theorem head_node (head : Head) (children : List Tree) :
    (node head children).head = head := rfl

@[simp] theorem children_node (head : Head) (children : List Tree) :
    (node head children).children = children := rfl

@[simp] theorem node_head_children (t : Tree) : node t.head t.children = t := by
  cases t; rfl

mutual

/-- The number of nodes. -/
def size : Tree → Nat
  | node _ children => sizeAll children + 1

/-- The number of nodes of some trees. -/
def sizeAll : List Tree → Nat
  | [] => 0
  | t :: ts => t.size + sizeAll ts

end

theorem size_eq (t : Tree) : t.size = sizeAll t.children + 1 := by
  cases t; rfl

theorem size_pos (t : Tree) : 0 < t.size := by
  rw [size_eq]; omega

theorem size_le_sizeAll {t : Tree} {ts : List Tree} (h : t ∈ ts) : t.size ≤ sizeAll ts := by
  induction ts with
  | nil => cases h
  | cons u us ih =>
      rw [sizeAll]
      rcases List.mem_cons.1 h with rfl | h
      · omega
      · have := ih h
        omega

/-- A subtree below the root has fewer nodes. -/
theorem size_lt_of_mem {t u : Tree} (h : u ∈ t.children) : u.size < t.size := by
  have := size_le_sizeAll h
  rw [size_eq t]
  omega

/-- The first subtree below the root, if there is one. -/
def first? (t : Tree) : Option Tree := t.children.head?

theorem size_lt_of_first? {t u : Tree} (h : t.first? = some u) : u.size < t.size :=
  size_lt_of_mem (List.mem_of_mem_head? h)

/-- Replace the modifiers of the root. -/
def withModifiers (t : Tree) (modifiers : Modifiers) : Tree :=
  node { t.head with modifiers } t.children

/-- The first subtree below the root. A root without children counts as having nothing there. -/
def first (t : Tree) : Tree := t.first?.getD (ofKind .never)

/-- The first subtree below the root with a given name. -/
def find? (t : Tree) (key : Text) : Option Tree := t.children.find? (·.name.text == key)

theorem mem_of_find? {t u : Tree} {key : Text} (h : t.find? key = some u) : u ∈ t.children :=
  List.mem_of_find?_eq_some h

end Tree

end StructuralTypes
