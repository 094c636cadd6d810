import SymbolicHeap.Fault
import SymbolicHeap.PathCondition.Equality
import SymbolicHeap.PathCondition.LiteralSet

/-!
Contract: the condition under which a state is reached.

A path condition is a set of literals in four parts, by their kinds. It notices
plain contradictions by itself: a literal known to fail, a literal beside its
negation, and reference equalities that cannot hold together. Once it has found
one it keeps the contradicting literals and takes nothing more.
-/

namespace SymbolicHeap

structure PathCondition where
  logical : LiteralSet
  numeric : LiteralSet
  equality : LiteralSet
  typing : LiteralSet
  /-- Literals that contradict each other. -/
  core? : Option (List Term)

/-- The conditions that a merge adds for its two sides. -/
structure MergeGuard where
  guard : Term
  this : Term
  other : Term

namespace PathCondition

def empty : PathCondition := ⟨.empty, .empty, .empty, .empty, none⟩

def isFalse (condition : PathCondition) : Bool := condition.core?.isSome

def part (condition : PathCondition) : ConstraintKind → LiteralSet
  | .logical => condition.logical
  | .numeric => condition.numeric
  | .equality => condition.equality
  | .typing => condition.typing

def parts (condition : PathCondition) : List LiteralSet :=
  [condition.logical, condition.numeric, condition.equality, condition.typing]

def setPart (condition : PathCondition) (kind : ConstraintKind) (literals : LiteralSet) :
    PathCondition :=
  match kind with
  | .logical => { condition with logical := literals }
  | .numeric => { condition with numeric := literals }
  | .equality => { condition with equality := literals }
  | .typing => { condition with typing := literals }

def contradict (condition : PathCondition) (core : List Term) : PathCondition :=
  { condition with core? := some core }

/-- Adds a literal to its part unless it is there. -/
def insert (condition : PathCondition) (literal : Term) : PathCondition :=
  condition.setPart literal.kind ((condition.part literal.kind).insert literal)

/-- Looks for a contradiction among the reference equalities. -/
def checkEqualities (condition : PathCondition) : PathCondition :=
  match Equation.contradiction? condition.equality.ordered with
  | some core => condition.contradict core
  | none => condition

def addLiteral (condition : PathCondition) (literal : Term) : PathCondition :=
  if condition.isFalse then condition
  else
    match literal.asBool? with
    | some true => condition
    | some false => condition.contradict [literal]
    | none =>
        if literal.not ∈ condition.part literal.kind then
          condition.contradict [literal.not, literal]
        else
          let extended := condition.insert literal
          if literal.kind = .equality then extended.checkEqualities else extended

/-- Goes on with a condition unless it contradicts itself. -/
@[macro_inline]
def unlessFalse (condition : PathCondition) (next : PathCondition) : PathCondition :=
  if condition.isFalse then condition else next

mutual

/-- Adds the literals of a constraint one by one, up to the first contradiction. -/
def add (condition : PathCondition) : Term → PathCondition
  | .binary .and left right =>
      let extended := add condition left
      unlessFalse extended (add extended right)
  | .negation (.binary .or left right) =>
      let extended := addNegated condition left
      unlessFalse extended (addNegated extended right)
  | constraint => condition.addLiteral constraint

/-- Adds the literals of a constraint's negation. -/
def addNegated (condition : PathCondition) : Term → PathCondition
  | .negation operand => add condition operand
  | .binary .or left right =>
      let extended := addNegated condition left
      unlessFalse extended (addNegated extended right)
  | constraint => condition.addLiteral constraint.not

end

theorem addLiteral_of_isFalse {condition : PathCondition} (isFalse : condition.isFalse)
    (literal : Term) : condition.addLiteral literal = condition := by
  simp [addLiteral, isFalse]

theorem foldl_addLiteral_of_isFalse {condition : PathCondition} (isFalse : condition.isFalse)
    (literals : List Term) : literals.foldl addLiteral condition = condition := by
  induction literals with
  | nil => rfl
  | cons literal literals inductionHypothesis =>
      rw [List.foldl_cons, addLiteral_of_isFalse isFalse, inductionHypothesis]

private theorem unlessFalse_foldl (condition : PathCondition) (literals : List Term) :
    condition.unlessFalse (literals.foldl addLiteral condition) =
      literals.foldl addLiteral condition := by
  unfold unlessFalse
  split
  · rename_i isFalse
    rw [foldl_addLiteral_of_isFalse isFalse]
  · rfl

private theorem add_and_addNegated_eq_foldl :
    (∀ (constraint : Term) (condition : PathCondition),
      condition.add constraint = constraint.literals.foldl addLiteral condition) ∧
    (∀ (constraint : Term) (condition : PathCondition),
      condition.addNegated constraint =
        constraint.negatedLiterals.foldl addLiteral condition) := by
  apply Term.literals.mutual_induct
  · intro left right leftAdded rightAdded condition
    simp only [add, Term.literals, List.foldl_append, leftAdded, rightAdded, unlessFalse_foldl]
  · intro left right leftAdded rightAdded condition
    simp only [add, Term.literals, List.foldl_append, leftAdded, rightAdded, unlessFalse_foldl]
  · intro constraint notAnd notNegatedOr condition
    rw [add, Term.literals, List.foldl_cons, List.foldl_nil] <;> assumption
  · intro operand added condition
    rw [addNegated, Term.negatedLiterals, added]
  · intro left right leftAdded rightAdded condition
    simp only [addNegated, Term.negatedLiterals, List.foldl_append, leftAdded, rightAdded,
      unlessFalse_foldl]
  · intro constraint notNegation notOr condition
    rw [addNegated, Term.negatedLiterals, List.foldl_cons, List.foldl_nil] <;> assumption

/-- Stopping at a contradiction loses nothing: a condition that has found one
takes no more literals. -/
theorem add_eq_foldl (condition : PathCondition) (constraint : Term) :
    condition.add constraint = constraint.literals.foldl addLiteral condition :=
  add_and_addNegated_eq_foldl.1 constraint condition

/-- All literals; a contradiction is the single condition `false`. -/
def constraints (condition : PathCondition) : List Term :=
  if condition.isFalse then [.ofBool false]
  else condition.parts.flatMap LiteralSet.ordered

@[simp] theorem constraints_empty : empty.constraints = [] := rfl

/-! ## Bounds on integer inputs -/

def isIntegerVariable : Term → Bool
  | .var _ sort => sort.isInteger
  | _ => false

/-- Adds a term, and what it compares or computes with, to the terms seen so
far. The latest comes first, and nothing is entered twice. -/
def see : List Term → Term → List Term
  | seen, .binary operator left right =>
      let term := .binary operator left right
      if term ∈ seen then seen else term :: see (see seen left) right
  | seen, .negation operand =>
      let term := .negation operand
      if term ∈ seen then seen else term :: see seen operand
  | seen, .conditional condition consequent alternate =>
      let term := .conditional condition consequent alternate
      if term ∈ seen then seen else term :: see (see (see seen condition) consequent) alternate
  | seen, term => if term ∈ seen then seen else term :: seen

/-- The integer variables that numeric literals compare or compute with, in the
order in which they are met. -/
def integerVariables (condition : PathCondition) : List Term :=
  (condition.numeric.ordered.foldl see []).reverse.filter isIntegerVariable

/-- Asks every integer variable of a numeric literal to lie in
`[-bound, bound]`. -/
def softConstraints (condition : PathCondition) (bound : Int64) : List Term :=
  condition.integerVariables.flatMap fun symbol =>
    [(Term.ofInt (-bound) symbol.sort).lessOrEqual symbol,
      symbol.lessOrEqual (.ofInt bound symbol.sort)]

/-! ## Merging -/

/-- The parts that may differ between the two sides of a merge. -/
def mergeableKinds : List ConstraintKind := [.logical, .numeric, .typing]

/-- The literals of those parts that the same part of the other side has too. -/
def sharedWith (condition other : PathCondition) : List Term :=
  mergeableKinds.flatMap fun kind =>
    (condition.part kind).ordered.filter (· ∈ other.part kind)

/-- The literals of those parts that the same part of the other side has not. -/
def missingFrom (condition other : PathCondition) : List Term :=
  mergeableKinds.flatMap fun kind =>
    (condition.part kind).ordered.filter (· ∉ other.part kind)

def conjunction (literals : List Term) : Term := literals.foldl Term.and (.ofBool true)

/-- One condition for two. What both sides have stays; of the rest, the left
side's holds with the guard or the right side's holds without it. -/
def merge (left right : PathCondition) (guard : Term) :
    Except Fault (PathCondition × MergeGuard) :=
  if left.isFalse || right.isFalse then .error (.merge .infeasible)
  else if !left.equality.sameMembers right.equality then .error (.merge .equalityConstraints)
  else
    let this := guard.and (conjunction (left.missingFrom right))
    let other := guard.not.and (conjunction (right.missingFrom left))
    let merged := (left.sharedWith right ++ left.equality.ordered).foldl add empty
    .ok (merged.add (this.or other), ⟨guard, this, other⟩)

end PathCondition

end SymbolicHeap
