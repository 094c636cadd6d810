import Mathlib.Algebra.Group.Int.Defs
import SymbolicHeap.Proofs.PathCondition.Conditions
import SymbolicHeap.Proofs.Sorts.Subterms

/-!
Contract: what soft constraints ask of integer variables.

They bound the variables that numeric literals compare or compute with, each
within what its sort keeps of the bound. That is every integer variable of the
literals, and the bound itself, unless a variable occurs only where the input is
read or an array is selected from, or a 32-bit variable meets a bound that does
not fit into its sort.

Owns:
- the terms that operators work on, and that exactly these are visited;
- the truth of the two constraints of a variable;
- exactness of soft constraints, and two ways in which they miss the plain bound.
-/

namespace SymbolicHeap

namespace Term

/-! ## Operands -/

/-- A term with the terms that its operators work on. Keys and arrays are not
entered. -/
def operands : Term → List Term
  | .binary operator left right => .binary operator left right :: (left.operands ++ right.operands)
  | .negation operand => .negation operand :: operand.operands
  | .conditional condition consequent alternate =>
      .conditional condition consequent alternate ::
        (condition.operands ++ consequent.operands ++ alternate.operands)
  | term => [term]

/-- Operands of operands are operands. -/
private theorem operands_subset_of_mem (term : Term) {member : Term}
    (isOperand : member ∈ term.operands) :
    member.operands ⊆ term.operands := by
  fun_induction operands term with
  | case1 operator left right leftClosed rightClosed =>
      rcases List.mem_cons.1 isOperand with rfl | inside
      · rw [operands]
        exact List.Subset.refl _
      · apply List.subset_cons_of_subset
        rcases List.mem_append.1 inside with inLeft | inRight
        · exact List.subset_append_of_subset_left _ (leftClosed inLeft)
        · exact List.subset_append_of_subset_right _ (rightClosed inRight)
  | case2 operand closed =>
      rcases List.mem_cons.1 isOperand with rfl | inside
      · rw [operands]
        exact List.Subset.refl _
      · exact List.subset_cons_of_subset _ (closed inside)
  | case3 condition consequent alternate conditionClosed consequentClosed alternateClosed =>
      rcases List.mem_cons.1 isOperand with rfl | inside
      · rw [operands]
        exact List.Subset.refl _
      · apply List.subset_cons_of_subset
        rw [List.append_assoc] at inside ⊢
        rcases List.mem_append.1 inside with inCondition | inBranches
        · exact List.subset_append_of_subset_left _ (conditionClosed inCondition)
        · apply List.subset_append_of_subset_right
          rcases List.mem_append.1 inBranches with inConsequent | inAlternate
          · exact List.subset_append_of_subset_left _ (consequentClosed inConsequent)
          · exact List.subset_append_of_subset_right _ (alternateClosed inAlternate)
  | case4 term noBinary noNegation noConditional =>
      rw [List.mem_singleton.1 isOperand, operands]
      · exact List.Subset.refl _
      all_goals assumption

private theorem operands_subset_subterms (term : Term) : term.operands ⊆ term.subterms := by
  fun_induction operands term with
  | case1 operator left right leftInside rightInside =>
      simp only [subterms, inner] at leftInside rightInside ⊢
      exact List.cons_subset_cons _ (List.append_subset.2
        ⟨List.subset_append_of_subset_left _ leftInside,
          List.subset_append_of_subset_right _ rightInside⟩)
  | case2 operand inside => exact List.cons_subset_cons _ inside
  | case3 condition consequent alternate conditionInside consequentInside alternateInside =>
      simp only [subterms, inner] at conditionInside consequentInside alternateInside ⊢
      refine List.cons_subset_cons _ (List.append_subset.2 ⟨List.append_subset.2 ⟨?_, ?_⟩, ?_⟩)
      · exact List.subset_append_of_subset_left _
          (List.subset_append_of_subset_left _ conditionInside)
      · exact List.subset_append_of_subset_left _
          (List.subset_append_of_subset_right _ consequentInside)
      · exact List.subset_append_of_subset_right _ alternateInside
  | case4 term => exact List.cons_subset.2 ⟨self_mem_subterms term, List.nil_subset _⟩

/-- Operators bind no names, so operands are well-sorted in the scope of the
term. -/
private theorem wellSorted_of_mem_operands {vocabulary : Vocabulary} {scope : Scope} (term : Term)
    (wellSorted : term.WellSorted vocabulary scope) {member : Term}
    (isOperand : member ∈ term.operands) : member.WellSorted vocabulary scope := by
  fun_induction operands term with
  | case1 operator left right leftSorted rightSorted =>
      rcases List.mem_cons.1 isOperand with rfl | inside
      · exact wellSorted
      · simp only [WellSorted] at wellSorted
        rcases List.mem_append.1 inside with inLeft | inRight
        · exact leftSorted wellSorted.1 inLeft
        · exact rightSorted wellSorted.2.1 inRight
  | case2 operand sorted =>
      rcases List.mem_cons.1 isOperand with rfl | inside
      · exact wellSorted
      · simp only [WellSorted] at wellSorted
        exact sorted wellSorted.1 inside
  | case3 condition consequent alternate conditionSorted consequentSorted alternateSorted =>
      rcases List.mem_cons.1 isOperand with rfl | inside
      · exact wellSorted
      · simp only [WellSorted] at wellSorted
        simp only [List.mem_append] at inside
        rcases inside with (inCondition | inConsequent) | inAlternate
        · exact conditionSorted wellSorted.1 inCondition
        · exact consequentSorted wellSorted.2.1 inConsequent
        · exact alternateSorted wellSorted.2.2.1 inAlternate
  | case4 term => rwa [List.mem_singleton.1 isOperand]

end Term

namespace PathCondition

/-! ## Variables that are met -/

/-- What was seen was seen with its operands. -/
def Whole (seen : List Term) : Prop := ∀ term ∈ seen, term.operands ⊆ seen

/-- A term and its operands are added to what was seen, and nothing else. -/
def Adds (term : Term) (seen after : List Term) : Prop :=
  ∀ member, member ∈ after ↔ member ∈ seen ∨ member ∈ term.operands

theorem Adds.whole {term : Term} {seen after : List Term} (adds : Adds term seen after)
    (whole : Whole seen) : Whole after := by
  intro member isMember other isOperand
  rw [adds]
  rcases (adds member).1 isMember with earlier | added
  · exact .inl (whole member earlier isOperand)
  · exact .inr (term.operands_subset_of_mem added isOperand)

/-- A term that was seen brings nothing new. -/
private theorem Whole.adds_self {seen : List Term} (whole : Whole seen) {term : Term}
    (present : term ∈ seen) : Adds term seen seen := by
  intro member
  constructor
  · exact .inl
  · rintro (earlier | isOperand)
    · exact earlier
    · exact whole term present isOperand

private theorem Whole.adds_see {seen : List Term} (whole : Whole seen) (term : Term) :
    Adds term seen (see seen term) := by
  fun_induction see seen term with
  | case1 seen operator left right term present => exact whole.adds_self present
  | case2 seen operator left right term absent leftSeen rightSeen =>
      have leftAdded := leftSeen whole
      have rightAdded := rightSeen (leftAdded.whole whole)
      intro member
      rw [List.mem_cons, rightAdded, leftAdded, Term.operands, List.mem_cons, List.mem_append]
      tauto
  | case3 seen operand term present => exact whole.adds_self present
  | case4 seen operand term absent operandSeen =>
      intro member
      rw [List.mem_cons, operandSeen whole, Term.operands, List.mem_cons]
      tauto
  | case5 seen condition consequent alternate term present => exact whole.adds_self present
  | case6 seen condition consequent alternate term absent conditionSeen consequentSeen
      alternateSeen =>
      have conditionAdded := conditionSeen whole
      have consequentAdded := consequentSeen (conditionAdded.whole whole)
      have alternateAdded :=
        alternateSeen (consequentAdded.whole (conditionAdded.whole whole))
      intro member
      rw [List.mem_cons, alternateAdded, consequentAdded, conditionAdded, Term.operands,
        List.mem_cons, List.mem_append, List.mem_append]
      tauto
  | case7 seen term _ _ _ present => exact whole.adds_self present
  | case8 seen term noBinary noNegation noConditional absent =>
      intro member
      rw [Term.operands, List.mem_cons, List.mem_singleton, or_comm] <;> assumption

private theorem mem_foldl_see {literals seen : List Term} (whole : Whole seen) {member : Term} :
    member ∈ literals.foldl see seen ↔
      member ∈ seen ∨ ∃ literal ∈ literals, member ∈ literal.operands := by
  induction literals generalizing seen with
  | nil => simp
  | cons literal rest inductionHypothesis =>
      have added := whole.adds_see literal
      rw [List.foldl_cons, inductionHypothesis (added.whole whole), added, or_assoc,
        List.exists_mem_cons_iff]

/-- The integer variable is one that a numeric literal compares or computes
with. -/
def ComputesWith (condition : PathCondition) (name : String) (sort : ValueSort) : Prop :=
  sort.isInteger = true ∧ ∃ literal ∈ condition.numeric.ordered, .var name sort ∈ literal.operands

/-- The integer variable occurs in a numeric literal, no matter where. -/
def Mentions (condition : PathCondition) (name : String) (sort : ValueSort) : Prop :=
  sort.isInteger = true ∧ ∃ literal ∈ condition.numeric.ordered, .var name sort ∈ literal.subterms

private theorem ComputesWith.mentions {condition : PathCondition} {name : String} {sort : ValueSort}
    (computes : condition.ComputesWith name sort) : condition.Mentions name sort := by
  obtain ⟨isInteger, literal, recorded, isOperand⟩ := computes
  exact ⟨isInteger, literal, recorded, literal.operands_subset_subterms isOperand⟩

private theorem mem_integerVariables {condition : PathCondition} {symbol : Term} :
    symbol ∈ condition.integerVariables ↔
      ∃ name sort, symbol = .var name sort ∧ condition.ComputesWith name sort := by
  have startWhole : Whole [] := by simp [Whole]
  rw [integerVariables, List.mem_filter, List.mem_reverse, mem_foldl_see startWhole]
  constructor
  · rintro ⟨met, isVariable⟩
    cases symbol <;> simp only [isIntegerVariable, Bool.false_eq_true] at isVariable
    next name sort => exact ⟨name, sort, rfl, isVariable, by simpa using met⟩
  · rintro ⟨name, sort, rfl, isInteger, met⟩
    exact ⟨.inr met, isInteger⟩

end PathCondition

/-! ## The two constraints of a variable -/

/-- What a sort keeps of a bound. -/
def ValueSort.kept (bound : Int64) : ValueSort → Int
  | .i32 => bound.toInt32.toInt
  | _ => bound.toInt

/-- A bound that fits into the sort is kept. -/
private theorem ValueSort.kept_of_fits {bound : Int64} (nonnegative : 0 ≤ bound) {sort : ValueSort}
    (fits : sort = .i32 → bound.toInt < 2 ^ 31) :
    sort.kept (-bound) = -bound.toInt ∧ sort.kept bound = bound.toInt := by
  have low : 0 ≤ bound.toInt := by simpa using Int64.le_iff_toInt_le.1 nonnegative
  have high : bound.toInt < 2 ^ 63 := bound.toInt_lt
  have negated : (-bound).toInt = -bound.toInt := by
    rw [Int64.toInt_neg, Int.bmod_eq_of_le] <;> omega
  cases sort with
  | i32 =>
      have small := fits rfl
      simp only [kept, Int64.toInt_toInt32, negated]
      constructor
      · rw [Int.bmod_eq_of_le] <;> omega
      · rw [Int.bmod_eq_of_le] <;> omega
  | _ => exact ⟨negated, rfl⟩

theorem Constant.asInt?_ofInt (bound : Int64) (sort : ValueSort) :
    ∃ number, (Constant.ofInt bound sort).asInt? = some number ∧
      number.toInt = sort.kept bound := by
  cases sort with
  | i32 => exact ⟨_, rfl, Int32.toInt_toInt64 _⟩
  | _ => exact ⟨bound, rfl, rfl⟩

namespace Model

/-- The variable has a value, and that lies between two integers. -/
def Bounds (model : Model) (low high : Int) (name : String) (sort : ValueSort) : Prop :=
  ∃ value number, model.evaluate (.var name sort) = .ok (some value) ∧
    value.asInt? = some number ∧ low ≤ number.toInt ∧ number.toInt ≤ high

variable {vocabulary : Vocabulary} {model : Model}

private theorem satisfies_lessOrEqual {left right : Term} {low high : Constant}
    {lowest highest : Int64}
    (leftHolds : model.eval [] left = .ok low)
    (rightHolds : model.eval [] right = .ok high)
    (lowNumber : low.asInt? = some lowest)
    (highNumber : high.asInt? = some highest) :
    model.Satisfies (.binary .lessOrEqual left right) ↔ lowest.toInt ≤ highest.toInt := by
  have compared : low.lessOrEqual high = .bool (lowest ≤ highest) := by
    simp only [Constant.lessOrEqual, lowNumber, highNumber]
  rw [Satisfies, evaluate_eq_some, eval_strict_eq_ok rfl,
    ← Int64.le_iff_toInt_le]
  constructor
  · rintro ⟨leftValue, rightValue, leftSame, rightSame, isTrue, _⟩
    rw [leftHolds, Except.ok.injEq] at leftSame
    rw [rightHolds, Except.ok.injEq] at rightSame
    subst leftSame rightSame
    rw [compared] at isTrue
    simpa using isTrue
  · intro inOrder
    exact ⟨low, high, leftHolds, rightHolds, by simp [compared, inOrder], by simp⟩

/-- A declared integer variable has a number for its value. -/
private theorem eval_integer (sorted : model.Sorted vocabulary) {name : String} {sort : ValueSort}
    (isInteger : sort.isInteger = true)
    (wellSorted : (Term.var name sort).WellSorted vocabulary []) :
    ∃ value number, model.eval [] (.var name sort) = .ok value ∧ value.asInt? = some number := by
  have scalar : sort.isArray = false := by
    cases sort <;> simp [ValueSort.isInteger] at isInteger <;> rfl
  obtain ⟨value, evaluated⟩ :=
    eval_ok sorted (.var name sort) Bindings.cover_empty wellSorted
      (by cases sort <;> simp [ValueSort.isInteger] at isInteger <;> rfl) scalar
  have hasSort := eval_hasSort sorted _ Bindings.respect_empty wellSorted evaluated
  cases sort <;> simp [ValueSort.isInteger] at isInteger
  · obtain ⟨number, rfl⟩ := hasSort.i32_cases
    exact ⟨_, _, evaluated, rfl⟩
  · obtain ⟨number, rfl⟩ := hasSort.i64_cases
    exact ⟨_, _, evaluated, rfl⟩

/-- The constraints of a variable say that its value lies within what the sort
keeps of the bound. -/
private theorem satisfies_soft_iff_bounds (sorted : model.Sorted vocabulary) {name : String}
    {sort : ValueSort}
    (isInteger : sort.isInteger = true)
    (wellSorted : (Term.var name sort).WellSorted vocabulary [])
    (bound : Int64) :
    (model.Satisfies ((Term.ofInt (-bound) sort).lessOrEqual (.var name sort)) ∧
      model.Satisfies ((Term.var name sort).lessOrEqual (.ofInt bound sort))) ↔
      model.Bounds (sort.kept (-bound)) (sort.kept bound) name sort := by
  obtain ⟨value, number, evaluated, isNumber⟩ := eval_integer sorted isInteger wellSorted
  have constant : ∀ limit, ∃ kept, model.eval [] (.ofInt limit sort) = .ok (.ofInt limit sort) ∧
      (Constant.ofInt limit sort).asInt? = some kept ∧ kept.toInt = sort.kept limit := by
    intro limit
    obtain ⟨kept, isKept, same⟩ := Constant.asInt?_ofInt limit sort
    refine ⟨kept, eval_const_eq_ok.2 ⟨rfl, ?_⟩, isKept, same⟩
    cases sort <;> simp [Constant.ofInt]
  obtain ⟨lowest, lowEvaluated, lowNumber, lowKept⟩ := constant (-bound)
  obtain ⟨highest, highEvaluated, highNumber, highKept⟩ := constant bound
  have lowPlain : (Term.ofInt (-bound) sort).lessOrEqual (.var name sort) =
      .binary .lessOrEqual (.ofInt (-bound) sort) (.var name sort) := rfl
  have highPlain : (Term.var name sort).lessOrEqual (.ofInt bound sort) =
      .binary .lessOrEqual (.var name sort) (.ofInt bound sort) := rfl
  rw [lowPlain, highPlain, satisfies_lessOrEqual lowEvaluated evaluated lowNumber isNumber,
    satisfies_lessOrEqual evaluated highEvaluated isNumber highNumber, lowKept, highKept]
  constructor
  · rintro ⟨aboveLow, belowHigh⟩
    exact ⟨value, number, evaluate_of_eval evaluated, isNumber, aboveLow, belowHigh⟩
  · rintro ⟨other, otherNumber, otherEvaluated, otherIsNumber, aboveLow, belowHigh⟩
    rw [evaluate_of_eval evaluated, Except.ok.injEq, Option.some.injEq] at otherEvaluated
    rw [← otherEvaluated, isNumber, Option.some.injEq] at otherIsNumber
    rw [otherIsNumber]
    exact ⟨aboveLow, belowHigh⟩

end Model

/-! ## Exactness -/

namespace PathCondition

variable {vocabulary : Vocabulary} {condition : PathCondition}

/-- Variables that are computed with are declared. -/
theorem ComputesWith.wellSorted {name : String} {sort : ValueSort}
    (computes : condition.ComputesWith name sort)
    (conditionSorted : condition.Sorted vocabulary)
    (feasible : condition.isFalse = false) : (Term.var name sort).WellSorted vocabulary [] := by
  obtain ⟨_, literal, recorded, isOperand⟩ := computes
  have isCondition := conditionSorted literal
    ((mem_constraints feasible).2 ⟨.numeric, LiteralSet.mem_ordered.1 recorded⟩)
  exact Term.wellSorted_of_mem_operands literal isCondition.1 isOperand

private theorem all_softConstraints_iff (conditionSorted : condition.Sorted vocabulary)
    (feasible : condition.isFalse = false)
    {model : Model} (sorted : model.Sorted vocabulary) (bound : Int64) :
    (∀ soft ∈ condition.softConstraints bound, model.Satisfies soft) ↔
      ∀ name sort, condition.ComputesWith name sort →
        model.Bounds (sort.kept (-bound)) (sort.kept bound) name sort := by
  have pairs : (∀ soft ∈ condition.softConstraints bound, model.Satisfies soft) ↔
      ∀ name sort, condition.ComputesWith name sort →
        model.Satisfies ((Term.ofInt (-bound) sort).lessOrEqual (.var name sort)) ∧
          model.Satisfies ((Term.var name sort).lessOrEqual (.ofInt bound sort)) := by
    simp only [softConstraints, List.forall_mem_flatMap, mem_integerVariables]
    constructor
    · intro satisfied name sort computes
      simpa [Term.sort] using satisfied _ ⟨name, sort, rfl, computes⟩
    · rintro satisfied _ ⟨name, sort, rfl, computes⟩
      simpa [Term.sort] using satisfied name sort computes
  rw [pairs]
  refine forall_congr' fun name => forall_congr' fun sort => forall_congr' fun computes => ?_
  exact Model.satisfies_soft_iff_bounds sorted computes.1
    (computes.wellSorted conditionSorted feasible) bound

/-- Soft constraints ask of exactly the variables that numeric literals compute
with to lie within what their sort keeps of the bound. Where no integer variable
occurs elsewhere, and the bound fits into every variable's sort, they ask of
exactly the variables that occur to lie within the bound. -/
theorem softConstraints_exact
    (vocabulary : Vocabulary)
    (constraints : List Term)
    (areConditions : ∀ constraint ∈ constraints, constraint.IsCondition vocabulary)
    (feasible : (constraints.foldl add empty).isFalse = false)
    (bound : Int64)
    (nonnegative : 0 ≤ bound)
    (model : Model)
    (sorted : model.Sorted vocabulary) :
    let condition := constraints.foldl add empty
    ((∀ soft ∈ condition.softConstraints bound, model.Satisfies soft) ↔
      ∀ name sort, condition.ComputesWith name sort →
        model.Bounds (sort.kept (-bound)) (sort.kept bound) name sort) ∧
    ((∀ name sort, condition.Mentions name sort →
        condition.ComputesWith name sort ∧ (sort = .i32 → bound.toInt < 2 ^ 31)) →
      ((∀ soft ∈ condition.softConstraints bound, model.Satisfies soft) ↔
        ∀ name sort, condition.Mentions name sort →
          model.Bounds (-bound.toInt) bound.toInt name sort)) := by
  intro condition
  have conditionSorted : condition.Sorted vocabulary := empty_sorted.foldl_add areConditions
  have exactly := all_softConstraints_iff conditionSorted feasible sorted bound
  refine ⟨exactly, fun regular => ?_⟩
  rw [exactly]
  refine forall_congr' fun name => forall_congr' fun sort => ?_
  constructor
  · intro bounded mentions
    obtain ⟨computes, fits⟩ := regular name sort mentions
    obtain ⟨low, high⟩ := ValueSort.kept_of_fits nonnegative fits
    rw [← low, ← high]
    exact bounded computes
  · intro bounded computes
    have mentions := computes.mentions
    obtain ⟨low, high⟩ := ValueSort.kept_of_fits nonnegative (regular name sort mentions).2
    rw [low, high]
    exact bounded mentions

/-- Integers of both sorts, and an object that an array may be. -/
def integerSymbols : Vocabulary where
  scalar := fun name sort =>
    (name, sort) ∈ [("x", .i32), ("i", .i32), ("z", .i64), ("p", ValueSort.reference)]
  array := fun _ _ => True

def integers (x i : Int32) (z : Int64) : Model :=
  ((Model.empty.assign "x" (.i32 x)).assign "i" (.i32 i)).assign "z" (.i64 z)

private theorem integers_sorted (x i : Int32) (z : Int64) :
    (integers x i z).Sorted integerSymbols := by
  refine ((((Model.empty_admissible integerSymbols).assign ?_).assign ?_).assign ?_).sorted
  all_goals
    intro sort declared
    simp [integerSymbols] at declared
    subst declared
    exact ⟨⟨by simp, rfl⟩, rfl⟩

private theorem evaluate_integers (x i : Int32) (z : Int64) :
    (integers x i z).evaluate (.var "x" .i32) = .ok (some (.i32 x)) ∧
      (integers x i z).evaluate (.var "i" .i32) = .ok (some (.i32 i)) := by
  rw [Model.evaluate_eq, Model.evaluate_eq]
  exact ⟨rfl, rfl⟩

/-- A 32-bit variable in a sum, and a 64-bit one. -/
def computedIntegers : List Term :=
  [.binary .lessThan (.binary .add (.var "x" .i32) (.const (.i32 1))) (.const (.i32 5)),
    .binary .lessOrEqual (.const (.i64 7)) (.var "z" .i64)]

theorem softConstraints_computedIntegers :
    (computedIntegers.foldl add empty).isFalse = false ∧
      ((∀ soft ∈ (computedIntegers.foldl add empty).softConstraints 10,
        (integers (-10) 0 10).Satisfies soft) ↔
        ∀ name sort, (computedIntegers.foldl add empty).Mentions name sort →
          (integers (-10) 0 10).Bounds (-10) 10 name sort) := by
  have feasible : (computedIntegers.foldl add empty).isFalse = false := by decide +kernel
  have numeric : (computedIntegers.foldl add empty).numeric.ordered = computedIntegers := by
    decide +kernel
  have areConditions : ∀ constraint ∈ computedIntegers, constraint.IsCondition integerSymbols := by
    simp [computedIntegers, Term.IsCondition, Term.WellSorted, BinaryOp.Accepts, integerSymbols,
      Term.sort, BinaryOp.resultSort, Constant.sort, ValueSort.isInteger, ValueSort.isArray]
  refine ⟨feasible, (softConstraints_exact integerSymbols computedIntegers areConditions feasible
    10 (by decide) _ (integers_sorted (-10) 0 10)).2 ?_⟩
  rintro name sort ⟨isInteger, literal, recorded, occurs⟩
  refine ⟨⟨isInteger, literal, recorded, ?_⟩, fun _ => by decide⟩
  rw [numeric, computedIntegers] at recorded
  simp only [List.mem_cons, List.not_mem_nil, or_false] at recorded
  rcases recorded with rfl | rfl
  · simpa [Term.subterms, Term.inner, Term.operands] using occurs
  · simpa [Term.subterms, Term.inner, Term.operands] using occurs

/-- An element of an input array, compared at a symbolic index. -/
def comparedElement : List Term :=
  [.binary .lessThan (.inputRead (.arrayElement "A" .i32) [.var "p" .reference, .var "i" .i32])
    (.const (.i32 5))]

/-- The index occurs, but no soft constraint is about it. -/
private theorem comparedElement_index_unseen :
    (comparedElement.foldl add empty).Mentions "i" .i32 ∧
      (comparedElement.foldl add empty).softConstraints 10 = [] := by
  have numeric : (comparedElement.foldl add empty).numeric.ordered = comparedElement := by
    decide +kernel
  refine ⟨?_, by decide +kernel⟩
  rw [Mentions, numeric]
  decide +kernel

def comparedInteger : List Term := [.binary .lessThan (.var "x" .i32) (.const (.i32 5))]

private theorem comparedInteger_mentions {name : String} {sort : ValueSort}
    (mentions : (comparedInteger.foldl add empty).Mentions name sort) :
    name = "x" ∧ sort = .i32 := by
  obtain ⟨_, literal, recorded, occurs⟩ := mentions
  have numeric : (comparedInteger.foldl add empty).numeric.ordered = comparedInteger := by
    decide +kernel
  rw [numeric, comparedInteger, List.mem_singleton] at recorded
  subst recorded
  simpa [Term.subterms, Term.inner] using occurs

/-- A variable that occurs in a key only is not bounded, and a bound that does
not fit into 32 bits excludes values that lie within it. -/
theorem softConstraints_miss_key_and_wrap :
    (∀ constraint ∈ comparedElement ++ comparedInteger,
      constraint.IsCondition integerSymbols) ∧
    ((comparedElement.foldl add empty).isFalse = false ∧
      (integers 0 11 0).Sorted integerSymbols ∧
      (∀ soft ∈ (comparedElement.foldl add empty).softConstraints 10,
        (integers 0 11 0).Satisfies soft) ∧
      (comparedElement.foldl add empty).Mentions "i" .i32 ∧
      ¬ (integers 0 11 0).Bounds (-10) 10 "i" .i32) ∧
    ((comparedInteger.foldl add empty).isFalse = false ∧
      (integers 1 0 0).Sorted integerSymbols ∧
      (∀ name sort, (comparedInteger.foldl add empty).Mentions name sort →
        (integers 1 0 0).Bounds (-2 ^ 32) (2 ^ 32) name sort) ∧
      ¬ ∀ soft ∈ (comparedInteger.foldl add empty).softConstraints 4294967296,
        (integers 1 0 0).Satisfies soft) := by
  obtain ⟨indexOccurs, noneAsked⟩ := comparedElement_index_unseen
  refine ⟨?_, ⟨by decide +kernel, integers_sorted 0 11 0, ?_, indexOccurs, ?_⟩,
    by decide +kernel, integers_sorted 1 0 0, ?_, ?_⟩
  · simp [comparedElement, comparedInteger, Term.IsCondition, Term.WellSorted,
      Term.AllWellSorted, BinaryOp.Accepts, integerSymbols, Term.sort, Term.sorts,
      BinaryOp.resultSort, Constant.sort, ValueSort.isInteger, ValueSort.isArray,
      ValueSort.domain, RegionId.inputArraySort, RegionId.secondarySort, RegionId.valueSort,
      Vocabulary.Declares]
  · rw [noneAsked]
    exact List.forall_mem_nil _
  · rintro ⟨value, number, evaluated, isNumber, _, inside⟩
    rw [(evaluate_integers 0 11 0).2] at evaluated
    cases evaluated
    cases isNumber
    revert inside
    decide
  · intro name sort mentions
    obtain ⟨rfl, rfl⟩ := comparedInteger_mentions mentions
    exact ⟨.i32 1, 1, (evaluate_integers 1 0 0).1, rfl, by decide, by decide⟩
  · intro satisfied
    have upper := satisfied (.binary .lessOrEqual (.var "x" .i32) (.const (.i32 0)))
      (by decide +kernel)
    rw [Model.Satisfies, Model.evaluate_eq] at upper
    cases upper

end PathCondition

end SymbolicHeap
