import StructuralTypes.Tree

/-!
# Equality of types

Two types are equal when their trees agree up to the order of the children of objects and unions.
Those children are matched one to one: each child on the left takes the first equal child on the
right that is still free.
-/

namespace StructuralTypes

/-- The list without the first element that satisfies a predicate, if there is one. -/
def removeFirst? {α : Type} (p : α → Bool) : List α → Option (List α)
  | [] => none
  | x :: xs => if p x then some xs else (removeFirst? p xs).map (x :: ·)

namespace Tree

mutual

/-- The trees agree up to the order of the children of objects and unions. -/
def equiv : Tree → Tree → Bool
  | node a as, node b bs =>
    a == b && as.length == bs.length && if a.tag.unordered then matchAll as bs else equivAll as bs

/-- The trees agree position by position. -/
def equivAll : List Tree → List Tree → Bool
  | [], _ => true
  | _ :: _, [] => true
  | a :: as, b :: bs => a.equiv b && equivAll as bs

/-- Every tree on the left finds a partner of its own on the right. -/
def matchAll : List Tree → List Tree → Bool
  | [], _ => true
  | a :: as, bs =>
    match removeFirst? (fun b => a.equiv b) bs with
    | some rest => matchAll as rest
    | none => false

end

end Tree

end StructuralTypes
