import SymbolicHeap.Proofs.PathCondition.Merge

/-!
Contract: a path condition over well-sorted conditions records well-sorted ones.

Owns:
- properties that stay with conditions which are taken apart and joined;
- conditions, which are closed well-sorted Booleans, as such a property;
- what additions and merges record.
-/

namespace SymbolicHeap

namespace Term

/-! ## Taking conditions apart and joining them -/

/-- The property stays with conditions that are taken apart at connectives, and
with conditions that the simplifying connectives join. -/
structure ClosedUnderConnectives (property : Term → Prop) : Prop where
  ofBool : ∀ truth, property (.ofBool truth)
  not : ∀ {operand}, property operand → property operand.not
  and : ∀ {left right}, property left → property right → property (left.and right)
  or : ∀ {left right}, property left → property right → property (left.or right)
  operand : ∀ {operand}, property (.negation operand) → property operand
  operands : ∀ {operator : BinaryOp}, operator.onConstants? = none → ∀ {left right},
    property (.binary operator left right) → property left ∧ property right

namespace ClosedUnderConnectives

variable {property : Term → Prop} (closed : ClosedUnderConnectives property)

include closed

theorem conjunction {conditions : List Term} (hold : ∀ condition ∈ conditions, property condition) :
    property (PathCondition.conjunction conditions) := by
  have folded : ∀ (conditions : List Term) (start : Term), property start →
      (∀ condition ∈ conditions, property condition) →
        property (conditions.foldl Term.and start) := by
    intro conditions
    induction conditions with
    | nil => exact fun start startHolds _ => startHolds
    | cons head tail inductionHypothesis =>
        intro start startHolds hold
        rw [List.forall_mem_cons] at hold
        exact inductionHypothesis _ (closed.and startHolds hold.1) hold.2
  exact folded conditions _ (closed.ofBool true) hold

theorem literals_and_negatedLiterals :
    (∀ condition : Term, property condition → ∀ literal ∈ condition.literals, property literal) ∧
    (∀ condition : Term, property condition →
      ∀ literal ∈ condition.negatedLiterals, property literal) := by
  apply Term.literals.mutual_induct
  · intro left right leftSplit rightSplit holds
    obtain ⟨leftHolds, rightHolds⟩ := closed.operands rfl holds
    rw [Term.literals, List.forall_mem_append]
    exact ⟨leftSplit leftHolds, rightSplit rightHolds⟩
  · intro left right leftSplit rightSplit holds
    obtain ⟨leftHolds, rightHolds⟩ := closed.operands rfl (closed.operand holds)
    rw [Term.literals, List.forall_mem_append]
    exact ⟨leftSplit leftHolds, rightSplit rightHolds⟩
  · intro condition notAnd notNegatedOr holds
    rw [Term.literals, List.forall_mem_singleton]
    · exact holds
    · assumption
    · assumption
  · intro operand split holds
    rw [Term.negatedLiterals]
    exact split (closed.operand holds)
  · intro left right leftSplit rightSplit holds
    obtain ⟨leftHolds, rightHolds⟩ := closed.operands rfl holds
    rw [Term.negatedLiterals, List.forall_mem_append]
    exact ⟨leftSplit leftHolds, rightSplit rightHolds⟩
  · intro condition notNegation notOr holds
    rw [Term.negatedLiterals, List.forall_mem_singleton]
    · exact closed.not holds
    · assumption
    · assumption

/-- What a merge adds consists of what its sides recorded and of its guard. -/
theorem mergedConstraints {left right : PathCondition} {guard : Term}
    (leftHold : ∀ kind, ∀ literal ∈ left.part kind, property literal)
    (rightHold : ∀ kind, ∀ literal ∈ right.part kind, property literal)
    (guardHolds : property guard) :
    ∀ constraint ∈ left.mergedConstraints right (left.sidesOf right guard),
      property constraint := by
  have missingHold : ∀ {condition other : PathCondition},
      (∀ kind, ∀ literal ∈ condition.part kind, property literal) →
        ∀ literal ∈ condition.missingFrom other, property literal := by
    intro condition other hold literal missing
    obtain ⟨kind, _, recorded, _⟩ := PathCondition.mem_missingFrom.1 missing
    exact hold kind literal recorded
  rw [PathCondition.mergedConstraints, List.forall_mem_append, List.forall_mem_append,
    List.forall_mem_singleton]
  refine ⟨⟨?_, ?_⟩, closed.or ?_ ?_⟩
  · intro literal shared
    obtain ⟨kind, _, recorded, _⟩ := PathCondition.mem_sharedWith.1 shared
    exact leftHold kind literal recorded
  · exact fun literal recorded => leftHold .equality literal (LiteralSet.mem_ordered.1 recorded)
  · exact closed.and guardHolds (closed.conjunction (missingHold leftHold))
  · exact closed.and (closed.not guardHolds) (closed.conjunction (missingHold rightHold))

end ClosedUnderConnectives

/-! ## Conditions -/

/-- A closed Boolean over declared symbols. -/
def IsCondition (vocabulary : Vocabulary) (term : Term) : Prop :=
  term.WellSorted vocabulary [] ∧ term.sort = .bool

variable {vocabulary : Vocabulary}

namespace IsCondition

theorem ofBool (truth : Bool) : (Term.ofBool truth).IsCondition vocabulary :=
  ⟨ofBool_wellSorted truth, rfl⟩

theorem not {operand : Term} (operandSorted : operand.IsCondition vocabulary) :
    operand.not.IsCondition vocabulary :=
  not_wellSorted operandSorted.1 operandSorted.2

theorem and {left right : Term} (leftSorted : left.IsCondition vocabulary)
    (rightSorted : right.IsCondition vocabulary) : (left.and right).IsCondition vocabulary := by
  apply and_wellSorted
  simp only [WellSorted]
  exact ⟨leftSorted.1, rightSorted.1, leftSorted.2, rightSorted.2⟩

theorem or {left right : Term} (leftSorted : left.IsCondition vocabulary)
    (rightSorted : right.IsCondition vocabulary) : (left.or right).IsCondition vocabulary := by
  apply or_wellSorted
  simp only [WellSorted]
  exact ⟨leftSorted.1, rightSorted.1, leftSorted.2, rightSorted.2⟩

theorem negated {operand : Term} (wellSorted : (Term.negation operand).IsCondition vocabulary) :
    operand.IsCondition vocabulary := by
  simpa only [IsCondition, WellSorted] using wellSorted.1

theorem operands {operator : BinaryOp} (connective : operator.onConstants? = none)
    {left right : Term}
    (wellSorted : (Term.binary operator left right).IsCondition vocabulary) :
    left.IsCondition vocabulary ∧ right.IsCondition vocabulary := by
  obtain ⟨operandsSorted, _⟩ := wellSorted
  simp only [WellSorted] at operandsSorted
  obtain ⟨leftSorted, rightSorted, accepts⟩ := operandsSorted
  cases operator <;> simp only [BinaryOp.onConstants?, reduceCtorEq] at connective
  · exact ⟨⟨leftSorted, accepts.1⟩, rightSorted, accepts.2⟩
  · exact ⟨⟨leftSorted, accepts.1⟩, rightSorted, accepts.2⟩

theorem closed : ClosedUnderConnectives (IsCondition vocabulary) :=
  ⟨ofBool, not, and, or, negated, operands⟩

end IsCondition

end Term

namespace PathCondition

/-- Every recorded literal is a condition. -/
def Sorted (vocabulary : Vocabulary) (condition : PathCondition) : Prop :=
  ∀ literal ∈ condition.constraints, literal.IsCondition vocabulary

variable {vocabulary : Vocabulary}

theorem empty_sorted : empty.Sorted vocabulary := by
  simp [Sorted]

private theorem sorted_of_isFalse {condition : PathCondition} (found : condition.isFalse = true) :
    condition.Sorted vocabulary := by
  rw [Sorted, constraints, if_pos found, List.forall_mem_singleton]
  exact .ofBool false

theorem Sorted.addLiteral {condition : PathCondition} (sorted : condition.Sorted vocabulary)
    {literal : Term} (literalSorted : literal.IsCondition vocabulary) :
    (condition.addLiteral literal).Sorted vocabulary := by
  cases found : condition.isFalse with
  | true =>
      rw [addLiteral_of_isFalse found]
      exact sorted
  | false =>
      rcases addLiteral_cases found literal with ⟨_, unchanged⟩ | ⟨core, _, recorded⟩ | inserted
      · rw [unchanged]
        exact sorted
      · exact sorted_of_isFalse (by rw [isFalse, recorded]; rfl)
      · rw [inserted]
        intro member isMember
        rcases (mem_constraints_insert found).1 isMember with recorded | rfl
        · exact sorted member recorded
        · exact literalSorted

theorem Sorted.add {condition : PathCondition} (sorted : condition.Sorted vocabulary)
    {constraint : Term} (constraintSorted : constraint.IsCondition vocabulary) :
    (condition.add constraint).Sorted vocabulary := by
  have literalsSorted :=
    Term.IsCondition.closed.literals_and_negatedLiterals.1 constraint constraintSorted
  rw [add_eq_foldl]
  generalize constraint.literals = literals at literalsSorted
  induction literals generalizing condition with
  | nil => exact sorted
  | cons literal rest inductionHypothesis =>
      rw [List.forall_mem_cons] at literalsSorted
      exact inductionHypothesis (sorted.addLiteral literalsSorted.1) literalsSorted.2

theorem Sorted.foldl_add {condition : PathCondition} (sorted : condition.Sorted vocabulary)
    {constraints : List Term}
    (areConditions : ∀ constraint ∈ constraints, constraint.IsCondition vocabulary) :
    (constraints.foldl PathCondition.add condition).Sorted vocabulary := by
  induction constraints generalizing condition with
  | nil => exact sorted
  | cons constraint rest inductionHypothesis =>
      rw [List.forall_mem_cons] at areConditions
      exact inductionHypothesis (sorted.add areConditions.1) areConditions.2

theorem Sorted.part {condition : PathCondition} (sorted : condition.Sorted vocabulary)
    (feasible : condition.isFalse = false) (kind : ConstraintKind) :
    ∀ literal ∈ condition.part kind, literal.IsCondition vocabulary :=
  fun literal recorded => sorted literal ((mem_constraints feasible).2 ⟨kind, recorded⟩)

theorem Sorted.merge {left right merged : PathCondition} {guard : Term} {sides : MergeGuard}
    (leftSorted : left.Sorted vocabulary)
    (rightSorted : right.Sorted vocabulary)
    (guardSorted : guard.IsCondition vocabulary)
    (succeeds : left.merge right guard = .ok (merged, sides)) : merged.Sorted vocabulary := by
  obtain ⟨leftFeasible, rightFeasible, _, rfl, rfl⟩ := merge_eq_ok.1 succeeds
  exact empty_sorted.foldl_add (Term.IsCondition.closed.mergedConstraints
    (leftSorted.part leftFeasible) (rightSorted.part rightFeasible) guardSorted)

end PathCondition

end SymbolicHeap
