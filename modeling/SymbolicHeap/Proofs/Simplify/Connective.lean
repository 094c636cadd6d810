import SymbolicHeap.Proofs.Sorts.Refinement
import SymbolicHeap.Term.Simplify

/-!
Contract: connectives keep their meaning when they are simplified.

Once the left operand of a connective is known to be a truth value, the rules
hold for any right operand, well sorted or not, with a value or without.

Owns:
- the meaning of `Term.not`, `Term.and` and `Term.or`;
- these constructors refine the plain nodes.
-/

namespace SymbolicHeap

namespace Term

/-! ## Known Booleans -/

theorem eq_const_of_asBool? {term : Term} {truth : Bool} (known : term.asBool? = some truth) :
    term = .const (.bool truth) := by
  cases term <;> simp only [asBool?, reduceCtorEq] at known
  next value => cases value <;> simp_all [Constant.asBool?]

theorem ofBool_wellSorted {vocabulary : Vocabulary} {scope : Scope} (truth : Bool) :
    (ofBool truth).WellSorted vocabulary scope := by
  simp [ofBool, WellSorted]

variable {model : Model} {bindings : Bindings}

@[simp]
theorem eval_ofBool (truth : Bool) : model.eval bindings (ofBool truth) = .ok (.bool truth) :=
  Model.eval_const_eq_ok.2 ⟨rfl, by simp⟩

theorem eq_of_eval_ofBool {truth : Bool} {value : Constant}
    (evaluated : model.eval bindings (ofBool truth) = .ok value) : value = .bool truth := by
  rw [eval_ofBool, Except.ok.injEq] at evaluated
  exact evaluated.symm

/-! ## Negations -/

theorem not_cases (operand : Term) :
    (∃ truth, operand = ofBool truth ∧ operand.not = ofBool !truth) ∨
      (∃ inner, operand = .negation inner ∧ operand.not = inner) ∨
        operand.not = .negation operand := by
  cases known : operand.asBool? with
  | some truth => exact .inl ⟨truth, eq_const_of_asBool? known, by simp only [not, known]⟩
  | none =>
      cases operand with
      | negation inner => exact .inr (.inl ⟨inner, rfl, rfl⟩)
      | _ => exact .inr (.inr (by simp only [not, known]))

theorem eval_of_negation {operand : Term} {truth : Bool}
    (negationHolds : model.eval bindings (.negation operand) = .ok (.bool truth)) :
    model.eval bindings operand = .ok (.bool !truth) := by
  obtain ⟨opposite, operandHolds, negated⟩ := Model.eval_negation_eq_ok.1 negationHolds
  rw [operandHolds, Constant.bool.inj negated, Bool.not_not]

theorem eval_not {operand : Term} {truth : Bool}
    (operandHolds : model.eval bindings operand = .ok (.bool truth)) :
    model.eval bindings operand.not = .ok (.bool !truth) := by
  rcases not_cases operand with ⟨known, rfl, result⟩ | ⟨inner, rfl, result⟩ | result <;>
    rw [result]
  · rw [← Constant.bool.inj (eq_of_eval_ofBool operandHolds), eval_ofBool]
  · exact eval_of_negation operandHolds
  · exact Model.eval_negation_eq_ok.2 ⟨truth, operandHolds, rfl⟩

theorem not_wellSorted {vocabulary : Vocabulary} {scope : Scope} {operand : Term}
    (operandSorted : operand.WellSorted vocabulary scope)
    (operandSort : operand.sort = .bool) :
    operand.not.WellSorted vocabulary scope ∧ operand.not.sort = .bool := by
  rcases not_cases operand with ⟨known, rfl, result⟩ | ⟨inner, rfl, result⟩ | result <;>
    rw [result]
  · exact ⟨ofBool_wellSorted _, rfl⟩
  · simpa only [WellSorted] using operandSorted
  · exact ⟨by simpa only [WellSorted] using ⟨operandSorted, operandSort⟩, rfl⟩

/-! ## Conjunctions and disjunctions -/

theorem negation_of_isNegationOf {left right : Term} (negation : left.isNegationOf right = true) :
    left = .negation right ∨ right = .negation left := by
  unfold isNegationOf at negation
  split at negation <;> simp at negation <;> simp [negation]

/-- Of two terms that negate each other, one holds where the other fails. -/
private theorem eval_of_isNegationOf {left right : Term} {truth : Bool}
    (negation : left.isNegationOf right = true)
    (leftHolds : model.eval bindings left = .ok (.bool truth)) :
    model.eval bindings right = .ok (.bool !truth) := by
  rcases negation_of_isNegationOf negation with rfl | rfl
  · exact eval_of_negation leftHolds
  · exact Model.eval_negation_eq_ok.2 ⟨truth, leftHolds, rfl⟩

theorem and_cases (left right : Term) :
    (left = ofBool false ∧ left.and right = ofBool false) ∨
      (right = ofBool false ∧ left.and right = ofBool false) ∨
      (left = ofBool true ∧ left.and right = right) ∨
      (right = ofBool true ∧ left.and right = left) ∨
      (left = right ∧ left.and right = right) ∨
      (left.isNegationOf right = true ∧ left.and right = ofBool false) ∨
      left.and right = .binary .and left right := by
  cases leftKnown : left.asBool? with
  | some leftTruth =>
      rw [eq_const_of_asBool? leftKnown]
      cases leftTruth with
      | false => exact .inl ⟨rfl, rfl⟩
      | true =>
          cases rightKnown : right.asBool? with
          | none => exact .inr (.inr (.inl ⟨rfl, by simp only [and, rightKnown]; rfl⟩))
          | some rightTruth =>
              rw [eq_const_of_asBool? rightKnown]
              cases rightTruth with
              | false => exact .inr (.inl ⟨rfl, rfl⟩)
              | true => exact .inr (.inr (.inl ⟨rfl, rfl⟩))
  | none =>
      cases rightKnown : right.asBool? with
      | some rightTruth =>
          rw [eq_const_of_asBool? rightKnown]
          cases rightTruth with
          | false => exact .inr (.inl ⟨rfl, by simp only [and, leftKnown]; rfl⟩)
          | true => exact .inr (.inr (.inr (.inl ⟨rfl, by simp only [and, leftKnown]; rfl⟩)))
      | none =>
          simp only [and, leftKnown, rightKnown]
          split
          · next same => simp [same]
          · split
            · next negation => simp [negation]
            · simp

theorem or_cases (left right : Term) :
    (left = ofBool true ∧ left.or right = ofBool true) ∨
      (right = ofBool true ∧ left.or right = ofBool true) ∨
      (left = ofBool false ∧ left.or right = right) ∨
      (right = ofBool false ∧ left.or right = left) ∨
      (left = right ∧ left.or right = right) ∨
      (left.isNegationOf right = true ∧ left.or right = ofBool true) ∨
      left.or right = .binary .or left right := by
  cases leftKnown : left.asBool? with
  | some leftTruth =>
      rw [eq_const_of_asBool? leftKnown]
      cases leftTruth with
      | true => exact .inl ⟨rfl, rfl⟩
      | false =>
          cases rightKnown : right.asBool? with
          | none => exact .inr (.inr (.inl ⟨rfl, by simp only [or, rightKnown]; rfl⟩))
          | some rightTruth =>
              rw [eq_const_of_asBool? rightKnown]
              cases rightTruth with
              | true => exact .inr (.inl ⟨rfl, rfl⟩)
              | false => exact .inr (.inr (.inl ⟨rfl, rfl⟩))
  | none =>
      cases rightKnown : right.asBool? with
      | some rightTruth =>
          rw [eq_const_of_asBool? rightKnown]
          cases rightTruth with
          | true => exact .inr (.inl ⟨rfl, by simp only [or, leftKnown]; rfl⟩)
          | false => exact .inr (.inr (.inr (.inl ⟨rfl, by simp only [or, leftKnown]; rfl⟩)))
      | none =>
          simp only [or, leftKnown, rightKnown]
          split
          · next same => simp [same]
          · split
            · next negation => simp [negation]
            · simp

/-- Where the left operand is known, the result is as if it was decided first. -/
theorem eval_and {left : Term} {truth : Bool}
    (leftHolds : model.eval bindings left = .ok (.bool truth))
    (right : Term) :
    model.eval bindings (left.and right) =
      if truth then model.eval bindings right else .ok (.bool false) := by
  rcases and_cases left right with ⟨rfl, result⟩ | ⟨rfl, result⟩ | ⟨rfl, result⟩ | ⟨rfl, result⟩ |
    ⟨rfl, result⟩ | ⟨negation, result⟩ | result <;> rw [result]
  · cases eq_of_eval_ofBool leftHolds
    rfl
  · cases truth <;> rfl
  · cases eq_of_eval_ofBool leftHolds
    rfl
  · rw [leftHolds]
    cases truth <;> rfl
  · cases truth with
    | true => rfl
    | false => exact leftHolds
  · cases truth with
    | true => exact (eval_of_isNegationOf negation leftHolds).symm
    | false => rfl
  · rw [Model.eval, leftHolds]
    cases truth <;> rfl

theorem eval_or {left : Term} {truth : Bool}
    (leftHolds : model.eval bindings left = .ok (.bool truth))
    (right : Term) :
    model.eval bindings (left.or right) =
      if truth then .ok (.bool true) else model.eval bindings right := by
  rcases or_cases left right with ⟨rfl, result⟩ | ⟨rfl, result⟩ | ⟨rfl, result⟩ | ⟨rfl, result⟩ |
    ⟨rfl, result⟩ | ⟨negation, result⟩ | result <;> rw [result]
  · cases eq_of_eval_ofBool leftHolds
    rfl
  · cases truth <;> rfl
  · cases eq_of_eval_ofBool leftHolds
    rfl
  · rw [leftHolds]
    cases truth <;> rfl
  · cases truth with
    | true => exact leftHolds
    | false => rfl
  · cases truth with
    | true => rfl
    | false => exact (eval_of_isNegationOf negation leftHolds).symm
  · rw [Model.eval, leftHolds]
    cases truth <;> rfl

section Sorted

variable {vocabulary : Vocabulary} {scope : Scope} {left right : Term}

theorem and_wellSorted
    (wellSorted : (Term.binary .and left right).WellSorted vocabulary scope) :
    (left.and right).WellSorted vocabulary scope ∧ (left.and right).sort = .bool := by
  have operands := wellSorted
  simp only [WellSorted, BinaryOp.Accepts] at operands
  obtain ⟨leftSorted, rightSorted, leftSort, rightSort⟩ := operands
  rcases and_cases left right with ⟨_, result⟩ | ⟨_, result⟩ | ⟨_, result⟩ | ⟨_, result⟩ |
    ⟨_, result⟩ | ⟨_, result⟩ | result <;> rw [result]
  · exact ⟨ofBool_wellSorted _, rfl⟩
  · exact ⟨ofBool_wellSorted _, rfl⟩
  · exact ⟨rightSorted, rightSort⟩
  · exact ⟨leftSorted, leftSort⟩
  · exact ⟨rightSorted, rightSort⟩
  · exact ⟨ofBool_wellSorted _, rfl⟩
  · exact ⟨wellSorted, rfl⟩

theorem or_wellSorted
    (wellSorted : (Term.binary .or left right).WellSorted vocabulary scope) :
    (left.or right).WellSorted vocabulary scope ∧ (left.or right).sort = .bool := by
  have operands := wellSorted
  simp only [WellSorted, BinaryOp.Accepts] at operands
  obtain ⟨leftSorted, rightSorted, leftSort, rightSort⟩ := operands
  rcases or_cases left right with ⟨_, result⟩ | ⟨_, result⟩ | ⟨_, result⟩ | ⟨_, result⟩ |
    ⟨_, result⟩ | ⟨_, result⟩ | result <;> rw [result]
  · exact ⟨ofBool_wellSorted _, rfl⟩
  · exact ⟨ofBool_wellSorted _, rfl⟩
  · exact ⟨rightSorted, rightSort⟩
  · exact ⟨leftSorted, leftSort⟩
  · exact ⟨rightSorted, rightSort⟩
  · exact ⟨ofBool_wellSorted _, rfl⟩
  · exact ⟨wellSorted, rfl⟩

theorem refines_not {operand : Term}
    (wellSorted : (Term.negation operand).WellSorted vocabulary scope) :
    Refines vocabulary scope (.negation operand) operand.not := by
  simp only [WellSorted] at wellSorted
  obtain ⟨sorted, sort⟩ := not_wellSorted wellSorted.1 wellSorted.2
  apply Refines.ofScalar
  · intro model bindings indices
    rw [Model.evalSelection] <;> simp
  · exact sorted
  · exact sort
  · intro model bindings value _ _ evaluated
    obtain ⟨truth, operandHolds, rfl⟩ := Model.eval_negation_eq_ok.1 evaluated
    exact eval_not operandHolds

theorem refines_and (wellSorted : (Term.binary .and left right).WellSorted vocabulary scope) :
    Refines vocabulary scope (.binary .and left right) (left.and right) := by
  obtain ⟨sorted, sort⟩ := and_wellSorted wellSorted
  refine Refines.ofBinary sorted sort ?_
  intro model bindings value _ _ evaluated
  obtain ⟨truth, leftHolds, rest⟩ := Model.eval_and_eq_ok.1 evaluated
  rw [eval_and leftHolds]
  cases truth with
  | true => exact rest
  | false => exact congrArg Except.ok rest.symm

theorem refines_or (wellSorted : (Term.binary .or left right).WellSorted vocabulary scope) :
    Refines vocabulary scope (.binary .or left right) (left.or right) := by
  obtain ⟨sorted, sort⟩ := or_wellSorted wellSorted
  refine Refines.ofBinary sorted sort ?_
  intro model bindings value _ _ evaluated
  obtain ⟨truth, leftHolds, rest⟩ := Model.eval_or_eq_ok.1 evaluated
  rw [eval_or leftHolds]
  cases truth with
  | true => exact congrArg Except.ok rest.symm
  | false => exact rest

end Sorted

end Term

end SymbolicHeap
