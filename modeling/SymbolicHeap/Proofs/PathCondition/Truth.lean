import SymbolicHeap.PathCondition.Basic
import SymbolicHeap.Proofs.ArrayTheory.Values
import SymbolicHeap.Proofs.Model.Cached

/-!
Contract: which conditions are true and which are false.

A condition need not have a truth value: arrays cannot be compared under a
model. What a path condition does to conditions respects truth values all the
same, whether operands have one or not. It does so for the conditions
themselves and for their encodings, so both are valuations with the same laws.

Owns:
- valuations, and the two that a model gives;
- the truth of simplified connectives, of literals and of conjunctions.
-/

namespace SymbolicHeap

/-- Truth values of conditions, as far as they have one. A connective may be
decided by one of its operands. -/
structure Valuation where
  assigns : Term → Bool → Prop
  unique : ∀ {condition}, assigns condition true → ¬ assigns condition false
  known : ∀ {truth}, assigns (.ofBool truth) truth
  negation : ∀ {operand truth}, assigns (.negation operand) truth ↔ assigns operand !truth
  and_true : ∀ {left right},
    assigns (.binary .and left right) true ↔ assigns left true ∧ assigns right true
  and_false : ∀ {left right}, assigns left false → assigns (.binary .and left right) false
  or_false : ∀ {left right},
    assigns (.binary .or left right) false ↔ assigns left false ∧ assigns right false
  or_left : ∀ {left right}, assigns left false →
    (assigns (.binary .or left right) true ↔ assigns right true)
  or_right : ∀ {left right}, assigns right false →
    (assigns (.binary .or left right) true ↔ assigns left true)

namespace Valuation

variable (valuation : Valuation)

/-! ## Simplified connectives -/

theorem assigns_ofBool {known truth : Bool} :
    valuation.assigns (.ofBool known) truth ↔ known = truth := by
  constructor
  · intro assigned
    cases known <;> cases truth
    · rfl
    · exact absurd valuation.known (valuation.unique assigned)
    · exact absurd assigned (valuation.unique valuation.known)
    · rfl
  · rintro rfl
    exact valuation.known

theorem assigns_not {operand : Term} {truth : Bool} :
    valuation.assigns operand.not truth ↔ valuation.assigns operand !truth := by
  rcases Term.not_cases operand with ⟨known, rfl, result⟩ | ⟨inner, rfl, result⟩ | result <;>
    rw [result]
  · rw [assigns_ofBool, assigns_ofBool]
    cases known <;> cases truth <;> decide
  · rw [valuation.negation, Bool.not_not]
  · exact valuation.negation

/-- Of two conditions that negate each other, one is true where the other is
false. -/
private theorem assigns_of_isNegationOf {left right : Term}
    (negation : left.isNegationOf right = true)
    {truth : Bool} : valuation.assigns left truth ↔ valuation.assigns right !truth := by
  rcases Term.negation_of_isNegationOf negation with rfl | rfl
  · exact valuation.negation
  · rw [valuation.negation, Bool.not_not]

theorem assigns_and {left right : Term} :
    valuation.assigns (left.and right) true ↔
      valuation.assigns left true ∧ valuation.assigns right true := by
  rcases Term.and_cases left right with ⟨rfl, result⟩ | ⟨rfl, result⟩ | ⟨rfl, result⟩ |
    ⟨rfl, result⟩ | ⟨rfl, result⟩ | ⟨negation, result⟩ | result <;> rw [result]
  · simp [assigns_ofBool]
  · simp [assigns_ofBool]
  · simp [assigns_ofBool]
  · simp [assigns_ofBool]
  · rw [and_self]
  · rw [valuation.assigns_of_isNegationOf negation]
    have contradicting := @valuation.unique right
    simp only [assigns_ofBool, Bool.false_eq_true, Bool.not_true, false_iff]
    exact fun ⟨rightFalse, rightTrue⟩ => contradicting rightTrue rightFalse
  · exact valuation.and_true

theorem assigns_and_false {left right : Term} (leftFalse : valuation.assigns left false) :
    valuation.assigns (left.and right) false := by
  rcases Term.and_cases left right with ⟨rfl, result⟩ | ⟨rfl, result⟩ | ⟨rfl, result⟩ |
    ⟨rfl, result⟩ | ⟨rfl, result⟩ | ⟨negation, result⟩ | result <;> rw [result]
  · exact valuation.known
  · exact valuation.known
  · simp [assigns_ofBool] at leftFalse
  · exact leftFalse
  · exact leftFalse
  · exact valuation.known
  · exact valuation.and_false leftFalse

theorem assigns_or_false {left right : Term} :
    valuation.assigns (left.or right) false ↔
      valuation.assigns left false ∧ valuation.assigns right false := by
  rcases Term.or_cases left right with ⟨rfl, result⟩ | ⟨rfl, result⟩ | ⟨rfl, result⟩ |
    ⟨rfl, result⟩ | ⟨rfl, result⟩ | ⟨negation, result⟩ | result <;> rw [result]
  · simp [assigns_ofBool]
  · simp [assigns_ofBool]
  · simp [assigns_ofBool]
  · simp [assigns_ofBool]
  · rw [and_self]
  · rw [valuation.assigns_of_isNegationOf negation]
    have contradicting := @valuation.unique right
    simp only [assigns_ofBool, Bool.true_eq_false, Bool.not_false, false_iff]
    exact fun ⟨rightTrue, rightFalse⟩ => contradicting rightTrue rightFalse
  · exact valuation.or_false

/-- With a false operand on the left, a disjunction says what the right one
says. -/
theorem assigns_or_left {left right : Term} (leftFalse : valuation.assigns left false) :
    valuation.assigns (left.or right) true ↔ valuation.assigns right true := by
  rcases Term.or_cases left right with ⟨rfl, result⟩ | ⟨rfl, result⟩ | ⟨rfl, result⟩ |
    ⟨rfl, result⟩ | ⟨rfl, result⟩ | ⟨negation, result⟩ | result <;> rw [result]
  · simp [assigns_ofBool] at leftFalse
  · simp only [assigns_ofBool, Bool.false_eq_true, iff_false]
    exact fun leftTrue => valuation.unique leftTrue leftFalse
  · have rightTrue := (valuation.assigns_of_isNegationOf negation).1 leftFalse
    exact iff_of_true valuation.known rightTrue
  · exact valuation.or_left leftFalse

/-- With a false operand on the right, a disjunction says what the left one
says, also where that has no truth value. -/
theorem assigns_or_right {left right : Term} (rightFalse : valuation.assigns right false) :
    valuation.assigns (left.or right) true ↔ valuation.assigns left true := by
  rcases Term.or_cases left right with ⟨rfl, result⟩ | ⟨rfl, result⟩ | ⟨rfl, result⟩ |
    ⟨rfl, result⟩ | ⟨rfl, result⟩ | ⟨negation, result⟩ | result <;> rw [result]
  · simp [assigns_ofBool] at rightFalse
  · simp only [assigns_ofBool, Bool.false_eq_true, iff_false]
    exact fun rightTrue => valuation.unique rightTrue rightFalse
  · have leftTrue : valuation.assigns left true :=
      (valuation.assigns_of_isNegationOf negation).2 rightFalse
    exact iff_of_true valuation.known leftTrue
  · exact valuation.or_right rightFalse

/-! ## Literals -/

/-- Every one of some conditions is true. -/
def All (conditions : List Term) : Prop :=
  ∀ condition ∈ conditions, valuation.assigns condition true

theorem all_append {first second : List Term} :
    valuation.All (first ++ second) ↔ valuation.All first ∧ valuation.All second := by
  simp only [All, List.forall_mem_append]

theorem all_cons {condition : Term} {rest : List Term} :
    valuation.All (condition :: rest) ↔
      valuation.assigns condition true ∧ valuation.All rest := by
  simp only [All, List.forall_mem_cons]

theorem all_singleton {condition : Term} :
    valuation.All [condition] ↔ valuation.assigns condition true := by
  simp only [All, List.forall_mem_singleton]

private theorem all_literals_and_negatedLiterals :
    (∀ condition : Term,
      valuation.All condition.literals ↔ valuation.assigns condition true) ∧
    (∀ condition : Term,
      valuation.All condition.negatedLiterals ↔ valuation.assigns condition false) := by
  apply Term.literals.mutual_induct
  · intro left right leftSplit rightSplit
    rw [Term.literals, all_append, leftSplit, rightSplit, valuation.and_true]
  · intro left right leftSplit rightSplit
    rw [Term.literals, all_append, leftSplit, rightSplit, valuation.negation]
    exact valuation.or_false.symm
  · intro condition notAnd notNegatedOr
    rw [Term.literals, all_singleton] <;> assumption
  · intro operand split
    rw [Term.negatedLiterals, split, valuation.negation]
    rfl
  · intro left right leftSplit rightSplit
    rw [Term.negatedLiterals, all_append, leftSplit, rightSplit, valuation.or_false]
  · intro condition notNegation notOr
    rw [Term.negatedLiterals, all_singleton, assigns_not]
    · rfl
    · assumption
    · assumption

/-- A condition is true where all its literals are. -/
theorem all_literals {condition : Term} :
    valuation.All condition.literals ↔ valuation.assigns condition true :=
  valuation.all_literals_and_negatedLiterals.1 condition

theorem assigns_conjunction {conditions : List Term} :
    valuation.assigns (PathCondition.conjunction conditions) true ↔ valuation.All conditions := by
  have folded : ∀ (conditions : List Term) (start : Term),
      valuation.assigns (conditions.foldl Term.and start) true ↔
        valuation.assigns start true ∧ valuation.All conditions := by
    intro conditions
    induction conditions with
    | nil => simp [All]
    | cons head tail inductionHypothesis =>
        intro start
        rw [List.foldl_cons, inductionHypothesis, assigns_and, all_cons, and_assoc]
  rw [PathCondition.conjunction, folded]
  exact and_iff_right valuation.known

end Valuation

/-! ## Valuations of a model -/

/-- The term is true under the model. -/
def Model.Satisfies (model : Model) (condition : Term) : Prop :=
  model.evaluate condition = .ok (some (.bool true))

/-- The truth values of closed conditions under a model. -/
def Model.valuation (model : Model) : Valuation where
  assigns := fun condition truth => model.eval [] condition = .ok (.bool truth)
  unique := by
    intro condition isTrue isFalse
    rw [isTrue] at isFalse
    simp at isFalse
  known := Term.eval_ofBool _
  negation := by
    intro operand truth
    rw [Model.eval_negation_eq_ok]
    constructor
    · rintro ⟨operandTruth, operandHolds, opposite⟩
      rw [operandHolds, Constant.bool.inj opposite, Bool.not_not]
    · intro operandHolds
      exact ⟨!truth, operandHolds, by rw [Bool.not_not]⟩
  and_true := by
    intro left right
    rw [Model.eval_and_eq_ok]
    simp
  and_false := by
    intro left right leftFalse
    exact Model.eval_and_eq_ok.2 ⟨false, leftFalse, rfl⟩
  or_false := by
    intro left right
    rw [Model.eval_or_eq_ok]
    simp
  or_left := by
    intro left right leftFalse
    rw [Model.eval_or_eq_ok, leftFalse]
    simp
  or_right := by
    intro left right rightFalse
    rw [Model.eval_or_eq_ok]
    constructor
    · rintro ⟨leftTruth, leftHolds, rest⟩
      cases leftTruth with
      | true => exact leftHolds
      | false => simp [rightFalse] at rest
    · exact fun leftTrue => ⟨true, leftTrue, rfl⟩

theorem Model.satisfies_iff {model : Model} {condition : Term} :
    model.Satisfies condition ↔ model.valuation.assigns condition true :=
  Model.evaluate_eq_some

/-- The truth values of encoded conditions. The encoding simplifies every
connective, and simplified connectives have the laws of plain ones. -/
def Valuation.encoded (valuation : Valuation) : Valuation where
  assigns := fun condition truth => valuation.assigns condition.encoded truth
  unique := valuation.unique
  known := by
    intro truth
    rw [Term.ofBool, Term.encoded]
    exact valuation.known
  negation := by
    intro operand truth
    rw [Term.encoded, assigns_not]
  and_true := by
    intro left right
    rw [Term.encoded]
    exact valuation.assigns_and
  and_false := by
    intro left right leftFalse
    rw [Term.encoded]
    exact valuation.assigns_and_false leftFalse
  or_false := by
    intro left right
    rw [Term.encoded]
    exact valuation.assigns_or_false
  or_left := by
    intro left right leftFalse
    rw [Term.encoded]
    exact valuation.assigns_or_left leftFalse
  or_right := by
    intro left right rightFalse
    rw [Term.encoded]
    exact valuation.assigns_or_right rightFalse

end SymbolicHeap
