import StructuralTypes.Tree.Equality

/-!
# Union alternatives

A union stands for the set of its alternatives. Normalizing opens nested unions, drops `never` and
repeated alternatives, and lets `unknown` absorb the rest. At most 16 alternatives are kept apart.
-/

namespace StructuralTypes.Tree

mutual

/-- The alternatives after opening all unions at the root, without `never`. -/
def alternatives : Tree → List Tree
  | node head children =>
    if head.tag == .known .union then alternativesAll children
    else if head.tag == .known .never then []
    else [node head children]

/-- The alternatives of some trees, one tree after the other. -/
def alternativesAll : List Tree → List Tree
  | [] => []
  | t :: ts => t.alternatives ++ alternativesAll ts

end

/-- Add an alternative behind those already found, unless an equal one is among them. -/
def addAlternative (found : List Tree) (t : Tree) : Except Fault (List Tree) :=
  if found.any (·.equiv t) then .ok found
  else if found.length < 16 then .ok (found ++ [t])
  else .error .tooManyAlternatives

mutual

/-- Add the alternatives of a tree one by one. What follows a fault is not looked at. -/
def addAlternatives (found : List Tree) : Tree → Except Fault (List Tree)
  | node head children =>
    if head.tag == .known .union then addAllAlternatives found children
    else if head.tag == .known .never then .ok found
    else addAlternative found (node head children)

/-- Add the alternatives of some trees, one tree after the other. -/
def addAllAlternatives (found : List Tree) : List Tree → Except Fault (List Tree)
  | [] => .ok found
  | t :: ts => do addAllAlternatives (← addAlternatives found t) ts

end

mutual

/-- The alternatives are added from left to right. -/
theorem addAlternatives_eq (found : List Tree) (t : Tree) :
    addAlternatives found t = t.alternatives.foldlM addAlternative found := by
  match t with
  | node head children =>
    rw [addAlternatives, alternatives]
    split
    · exact addAllAlternatives_eq found children
    · split
      · rfl
      · rw [List.foldlM_cons]
        simp only [List.foldlM_nil, bind_pure]

theorem addAllAlternatives_eq (found : List Tree) (ts : List Tree) :
    addAllAlternatives found ts = (alternativesAll ts).foldlM addAlternative found := by
  match ts with
  | [] => rfl
  | t :: ts =>
    rw [addAllAlternatives, alternativesAll, List.foldlM_append, addAlternatives_eq found t]
    congr 1
    funext found
    exact addAllAlternatives_eq found ts

end

/-- The distinct alternatives in order of their first occurrence. -/
def distinctAlternatives (t : Tree) : Except Fault (List Tree) := addAlternatives [] t

/-- The type of a list of alternatives. -/
def ofAlternatives : List Tree → Tree
  | [] => ofKind .never
  | [t] => t
  | ts => node (.ofKind .union) ts

/-- The normal form of a union. -/
def normalized (t : Tree) : Except Fault Tree := do
  let found ← t.distinctAlternatives
  return if found.any (·.isKind .unknown) then ofKind .unknown else ofAlternatives found

end StructuralTypes.Tree
