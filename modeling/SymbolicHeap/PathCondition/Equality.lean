import SymbolicHeap.PathCondition.Literal

/-!
Contract: contradictions among equalities and disequalities of references.

Terms are opaque here: equal terms share a class, different constants never
do. Classes are kept as links from a former representative to the next one, in
the order in which they were made.
-/

namespace SymbolicHeap

/-- A literal that equates two terms, or tells them apart. -/
structure Equation where
  literal : Term
  left : Term
  right : Term

namespace Equation

def ofEquality? : Term → Option Equation
  | .binary .equals left right => some ⟨.binary .equals left right, left, right⟩
  | _ => none

def ofDisequality? : Term → Option Equation
  | .negation (.binary .equals left right) =>
      some ⟨.negation (.binary .equals left right), left, right⟩
  | _ => none

/-- Former representatives with their successors, oldest link first. -/
abbrev Links := List (Term × Term)

/-- The representative of a term's class. A representative that was linked is
never linked again, so following the links once in order reaches it. -/
def representative (links : Links) (term : Term) : Term :=
  links.foldl (fun current link => if current = link.1 then link.2 else current) term

/-- Links the classes of all equations. The failure lists the equations up to
the one that would join two different constants. -/
def connect (links : Links) (seen : List Term) : List Equation → Except (List Term) Links
  | [] => .ok links
  | equation :: rest =>
      let left := representative links equation.left
      let right := representative links equation.right
      let seen := seen ++ [equation.literal]
      if left = right then connect links seen rest
      else if left.isConstant then
        if right.isConstant then .error seen else connect (links ++ [(right, left)]) seen rest
      else connect (links ++ [(left, right)]) seen rest

/-- Literals that contradict each other by reflexivity, symmetry, transitivity
and the difference of constants, if there are any. -/
def contradiction? (literals : List Term) : Option (List Term) :=
  let equations := literals.filterMap ofEquality?
  match connect [] [] equations with
  | .error core => some core
  | .ok links =>
      let violated := (literals.filterMap ofDisequality?).find? fun equation =>
        representative links equation.left = representative links equation.right
      violated.map fun equation => equations.map Equation.literal ++ [equation.literal]

end Equation

end SymbolicHeap
