import SymbolicHeap.Term.Simplify

/-!
Contract: conditions taken apart into literals.

A condition is split at conjunctions and at negated disjunctions. What remains
is a literal: it has no such shape at its top, and its atom tells the part of
the path condition that it belongs to.
-/

namespace SymbolicHeap

inductive ConstraintKind where
  | logical
  /-- Integer comparisons. -/
  | numeric
  /-- Equalities between references. -/
  | equality
  /-- Subtype tests. -/
  | typing
deriving DecidableEq

namespace Term

mutual

/-- Conditions that hold together exactly where the given one holds. -/
def literals : Term → List Term
  | .binary .and left right => literals left ++ literals right
  | .negation (.binary .or left right) => negatedLiterals left ++ negatedLiterals right
  | condition => [condition]

/-- The literals of the negation. -/
def negatedLiterals : Term → List Term
  | .negation operand => literals operand
  | .binary .or left right => negatedLiterals left ++ negatedLiterals right
  | condition => [condition.not]

end

/-- A condition without its negation sign. -/
def atom : Term → Term
  | .negation operand => operand
  | condition => condition

/-- The part of a path condition that a literal belongs to. -/
def kind (literal : Term) : ConstraintKind :=
  match literal.atom with
  | .binary .equals left _ =>
      if left.sort.isReference then .equality
      else if left.sort.isInteger then .numeric
      else .logical
  | .binary .lessThan _ _ | .binary .lessOrEqual _ _ => .numeric
  | .subtype _ _ => .typing
  | _ => .logical

end Term

end SymbolicHeap
