import SymbolicHeap.Proofs.Simplify.Arrays

/-!
Contract: well-sorted terms with a known value.

Memories are read and written with terms of known sorts that have a value
under the model at hand. This module says once what each simplifying
constructor does to such terms, so that proofs about memories can compute with
values.

Owns:
- interpretations and environments, which carry what is assumed of a model and
  of the bindings;
- the value of a term of a known sort, constructor by constructor.
-/

namespace SymbolicHeap

/-- A model together with the vocabulary that it respects. -/
structure Interpretation where
  vocabulary : Vocabulary
  model : Model
  admissible : model.Admissible vocabulary

/-- Parameters of the lambdas around a term, with sorts and values. -/
structure Environment where
  scope : Scope
  bindings : Bindings
  respect : bindings.Respect scope

/-- No lambda around. -/
def Environment.closed : Environment := ⟨[], [], Bindings.respect_empty⟩

namespace Term

/-- The term has the sort and, in the environment, the value. -/
structure Denotes
    (interpretation : Interpretation)
    (environment : Environment)
    (term : Term)
    (sort : ValueSort)
    (value : Constant) :
    Prop where
  wellSorted : term.WellSorted interpretation.vocabulary environment.scope
  sorted : term.sort = sort
  eval : interpretation.model.eval environment.bindings term = .ok value

namespace Denotes

variable {interpretation : Interpretation} {environment : Environment}

theorem hasSort {term : Term} {sort : ValueSort} {value : Constant}
    (denotes : term.Denotes interpretation environment sort value) : value.HasSort sort :=
  denotes.sorted ▸ Model.eval_hasSort interpretation.admissible.sorted term environment.respect
    denotes.wellSorted denotes.eval

/-- A closed term means the same inside lambdas. -/
theorem widen {term : Term} {sort : ValueSort} {value : Constant}
    (denotes : term.Denotes interpretation .closed sort value) (environment : Environment) :
    term.Denotes interpretation environment sort value where
  wellSorted := denotes.wellSorted.widen term environment.scope
  sorted := denotes.sorted
  eval := Model.eval_append term denotes.eval environment.bindings

/-- What refines a term has its value. -/
theorem refine {plain other : Term} {sort : ValueSort} {value : Constant}
    (denotes : plain.Denotes interpretation environment sort value)
    (refines : Refines interpretation.vocabulary environment.scope plain other) :
    other.Denotes interpretation environment sort value where
  wellSorted := refines.wellSorted
  sorted := refines.sort.trans denotes.sorted
  eval := refines.eval interpretation.admissible environment.respect denotes.eval

/-! ## Constants and bound variables -/

theorem const {value : Constant} {sort : ValueSort} (hasSort : value.HasSort sort) :
    (Term.const value).Denotes interpretation environment sort value where
  wellSorted := by
    rw [WellSorted]
    exact hasSort.1
  sorted := hasSort.2
  eval := Model.eval_const_eq_ok.2 ⟨rfl, hasSort.1⟩

/-- The address of an allocated object. -/
theorem heap (number : UInt32) :
    (Term.const (.heap number)).Denotes interpretation environment .reference (.heap number) :=
  const ⟨by simp, rfl⟩

theorem bound {name : String} {sort : ValueSort} {value : Constant}
    (declared : environment.scope.lookup name = some sort)
    (assigned : environment.bindings.lookup name = some value) :
    (Term.bound name sort).Denotes interpretation environment sort value where
  wellSorted := by
    rw [WellSorted]
    exact declared
  sorted := rfl
  eval := Model.eval_bound_eq_ok.2
    ⟨assigned, (environment.respect name sort value declared assigned).1⟩

theorem ofBool (truth : Bool) :
    (Term.ofBool truth).Denotes interpretation environment .bool (.bool truth) :=
  const ⟨by simp, rfl⟩

theorem eq_of_asBool? {term : Term} {sort : ValueSort} {value : Constant} {truth : Bool}
    (denotes : term.Denotes interpretation environment sort value)
    (known : term.asBool? = some truth) : value = .bool truth := by
  have evaluated := denotes.eval
  rw [eq_const_of_asBool? known] at evaluated
  exact eq_of_eval_ofBool evaluated

/-- A condition is true or false. -/
theorem decided {condition : Term} {value : Constant}
    (denotes : condition.Denotes interpretation environment .bool value) :
    condition.Denotes interpretation environment .bool (.bool (value = .bool true)) := by
  obtain ⟨truth, rfl⟩ := denotes.hasSort.bool_cases
  cases truth <;> exact denotes

/-! ## Connectives and conditionals -/

theorem not {operand : Term} {truth : Bool}
    (denotes : operand.Denotes interpretation environment .bool (.bool truth)) :
    operand.not.Denotes interpretation environment .bool (.bool !truth) where
  wellSorted := (not_wellSorted denotes.wellSorted denotes.sorted).1
  sorted := (not_wellSorted denotes.wellSorted denotes.sorted).2
  eval := eval_not denotes.eval

theorem and {left right : Term} {leftTruth rightTruth : Bool}
    (leftDenotes : left.Denotes interpretation environment .bool (.bool leftTruth))
    (rightDenotes : right.Denotes interpretation environment .bool (.bool rightTruth)) :
    (left.and right).Denotes interpretation environment .bool (.bool (leftTruth && rightTruth)) := by
  have operands : (Term.binary .and left right).WellSorted interpretation.vocabulary
      environment.scope := by
    simp only [WellSorted, BinaryOp.Accepts]
    exact ⟨leftDenotes.wellSorted, rightDenotes.wellSorted, leftDenotes.sorted,
      rightDenotes.sorted⟩
  obtain ⟨sorted, sort⟩ := and_wellSorted operands
  refine ⟨sorted, sort, ?_⟩
  rw [eval_and leftDenotes.eval, rightDenotes.eval]
  cases leftTruth <;> rfl

theorem ite {condition consequent alternate : Term} {truth : Bool} {sort : ValueSort}
    {consequentValue alternateValue : Constant}
    (conditionDenotes : condition.Denotes interpretation environment .bool (.bool truth))
    (consequentDenotes : consequent.Denotes interpretation environment sort consequentValue)
    (alternateDenotes : alternate.Denotes interpretation environment sort alternateValue) :
    (condition.ite consequent alternate).Denotes interpretation environment sort
      (if truth then consequentValue else alternateValue) := by
  obtain ⟨sorted, sort⟩ := ite_wellSorted
    ⟨conditionDenotes.wellSorted, conditionDenotes.sorted⟩
    ⟨consequentDenotes.wellSorted, consequentDenotes.sorted⟩
    ⟨alternateDenotes.wellSorted, alternateDenotes.sorted⟩
  refine ⟨sorted, sort, ?_⟩
  rw [eval_ite conditionDenotes.eval]
  cases truth with
  | true => exact consequentDenotes.eval
  | false => exact alternateDenotes.eval

/-! ## Comparisons -/

theorem equals {left right : Term} {sort : ValueSort} {leftValue rightValue : Constant}
    (leftDenotes : left.Denotes interpretation environment sort leftValue)
    (rightDenotes : right.Denotes interpretation environment sort rightValue) :
    (left.equals right).Denotes interpretation environment .bool
      (.bool (leftValue = rightValue)) := by
  have plain : (Term.binary .equals left right).Denotes interpretation environment .bool
      (.bool (leftValue = rightValue)) := by
    refine ⟨?_, rfl, ?_⟩
    · simp only [WellSorted, BinaryOp.Accepts]
      exact ⟨leftDenotes.wellSorted, rightDenotes.wellSorted,
        leftDenotes.sorted.trans rightDenotes.sorted.symm⟩
    · refine (Model.eval_strict_eq_ok rfl).2 ⟨_, _, leftDenotes.eval, rightDenotes.eval, ?_, by simp⟩
      have leftProper := leftDenotes.hasSort.1
      have rightProper := rightDenotes.hasSort.1
      cases leftValue <;> cases rightValue <;> simp_all [Constant.equals, Constant.isBottom]
  exact plain.refine (refines_equals plain.wellSorted)

/-! ## Indices -/

section Indices

variable {left right : Term} {leftNumber rightNumber : Int32}
  (leftDenotes : left.Denotes interpretation environment .i32 (.i32 leftNumber))
  (rightDenotes : right.Denotes interpretation environment .i32 (.i32 rightNumber))

include leftDenotes rightDenotes

/-- A strict operator on two indices, before simplification. -/
private theorem strictIndices (operator : BinaryOp) {operation : Constant → Constant → Constant}
    (strict : operator.onConstants? = some operation)
    (accepts : operator.Accepts .i32 .i32)
    {result : Constant}
    (computed : operation (.i32 leftNumber) (.i32 rightNumber) = result)
    (proper : result ≠ .bottom) :
    (Term.binary operator left right).Denotes interpretation environment
      (operator.resultSort .i32) result := by
  refine ⟨?_, ?_, ?_⟩
  · rw [WellSorted, leftDenotes.sorted, rightDenotes.sorted]
    exact ⟨leftDenotes.wellSorted, rightDenotes.wellSorted, accepts⟩
  · rw [Term.sort, leftDenotes.sorted]
  · exact (Model.eval_strict_eq_ok strict).2
      ⟨_, _, leftDenotes.eval, rightDenotes.eval, computed, proper⟩

theorem add : (left.add right).Denotes interpretation environment .i32
    (.i32 (leftNumber + rightNumber)) := by
  have plain := strictIndices leftDenotes rightDenotes .add rfl ⟨rfl, rfl⟩ rfl
    (by simp [Constant.add])
  exact plain.refine (refines_add plain.wellSorted)

theorem sub : (left.sub right).Denotes interpretation environment .i32
    (.i32 (leftNumber - rightNumber)) := by
  have plain := strictIndices leftDenotes rightDenotes .sub rfl ⟨rfl, rfl⟩ rfl
    (by simp [Constant.sub])
  exact plain.refine (refines_sub plain.wellSorted)

theorem lessThan : (left.lessThan right).Denotes interpretation environment .bool
    (.bool (leftNumber < rightNumber)) := by
  have compared : Constant.lessThan (.i32 leftNumber) (.i32 rightNumber) =
      .bool (leftNumber < rightNumber) := by
    simp [Constant.lessThan, Constant.asInt?, Int32.toInt64_lt]
  have plain := strictIndices leftDenotes rightDenotes .lessThan rfl ⟨rfl, rfl⟩ compared
    (by simp)
  exact plain.refine (refines_lessThan plain.wellSorted)

theorem lessOrEqual : (left.lessOrEqual right).Denotes interpretation environment .bool
    (.bool (leftNumber ≤ rightNumber)) := by
  have compared : Constant.lessOrEqual (.i32 leftNumber) (.i32 rightNumber) =
      .bool (leftNumber ≤ rightNumber) := by
    simp [Constant.lessOrEqual, Constant.asInt?, Int32.toInt64_le]
  have plain := strictIndices leftDenotes rightDenotes .lessOrEqual rfl ⟨rfl, rfl⟩ compared
    (by simp)
  exact plain.refine (refines_lessOrEqual plain.wellSorted)

end Indices

end Denotes

end Term

end SymbolicHeap
