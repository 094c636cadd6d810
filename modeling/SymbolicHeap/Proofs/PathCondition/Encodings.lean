import SymbolicHeap.Proofs.PathCondition.Conditions

/-!
Contract: a contradiction among conditions is one among their encodings too.

Contradictions are looked for among the conditions as they were added, while a
solver sees their encodings. An encoded equality can be true although one of its
sides has no value: a comparison is pushed into the branches of a conditional,
and what is left of it need not ask for the condition any more. So conditions
get a truth value in any case here, and every term stands for what the branches
that are chosen by these truth values come to. Encoded equalities respect that.

Owns:
- truth values for all conditions, and what a term stands for under them;
- what encoded equalities say about that;
- exactness of additions for the encodings under admissible models.
-/

namespace SymbolicHeap

namespace Model

variable (model : Model)

/-! ## Truth values for all conditions -/

/-- The truth of a condition. An atom without a truth value counts as false. -/
def truth : Term → Bool
  | .negation operand => !truth operand
  | .binary .and left right => truth left && truth right
  | .binary .or left right => truth left || truth right
  | .conditional condition consequent alternate =>
      if truth condition then truth consequent else truth alternate
  | atom =>
      match model.eval [] atom with
      | .ok (.bool value) => value
      | _ => false

private theorem truth_of_eval {condition : Term} {value : Bool}
    (evaluated : model.eval [] condition = .ok (.bool value)) :
    model.truth condition = value := by
  fun_induction model.truth condition generalizing value with
  | case1 operand inductionHypothesis =>
      rw [inductionHypothesis (Term.eval_of_negation evaluated), Bool.not_not]
  | case2 left right leftHypothesis rightHypothesis =>
      obtain ⟨leftTruth, leftHolds, rest⟩ := eval_and_eq_ok.1 evaluated
      rw [leftHypothesis leftHolds]
      cases leftTruth with
      | true => rw [rightHypothesis rest, Bool.true_and]
      | false => exact (Constant.bool.inj rest).symm
  | case3 left right leftHypothesis rightHypothesis =>
      obtain ⟨leftTruth, leftHolds, rest⟩ := eval_or_eq_ok.1 evaluated
      rw [leftHypothesis leftHolds]
      cases leftTruth with
      | true => exact (Constant.bool.inj rest).symm
      | false => rw [rightHypothesis rest, Bool.false_or]
  | case4 condition consequent alternate holds conditionHypothesis consequentHypothesis =>
      obtain ⟨chosen, conditionHolds, branchHolds⟩ := eval_conditional_eq_ok.1 evaluated
      rw [conditionHypothesis conditionHolds] at holds
      subst holds
      exact consequentHypothesis branchHolds
  | case5 condition consequent alternate fails conditionHypothesis alternateHypothesis =>
      obtain ⟨chosen, conditionHolds, branchHolds⟩ := eval_conditional_eq_ok.1 evaluated
      rw [conditionHypothesis conditionHolds] at fails
      rw [Bool.not_eq_true] at fails
      subst fails
      exact alternateHypothesis branchHolds
  | case6 atom _ _ _ _ found isValue =>
      rw [isValue] at evaluated
      simpa using evaluated
  | case7 atom _ _ _ _ noValue => exact absurd evaluated (noValue value)

/-- The truth of all conditions, as a valuation. -/
def truths : Valuation where
  assigns := fun condition value => model.truth condition = value
  unique := by
    intro condition isTrue
    rw [isTrue]
    exact Bool.false_ne_true.symm
  known := model.truth_of_eval (Term.eval_ofBool _)
  negation := by
    intro operand value
    rw [truth]
    cases model.truth operand <;> cases value <;> decide
  and_true := by
    intro left right
    rw [truth, Bool.and_eq_true]
  and_false := by
    intro left right leftFalse
    rw [truth, leftFalse, Bool.false_and]
  or_false := by
    intro left right
    rw [truth, Bool.or_eq_false_iff]
  or_left := by
    intro left right leftFalse
    rw [truth, leftFalse, Bool.false_or]
  or_right := by
    intro left right rightFalse
    rw [truth, rightFalse, Bool.or_false]

private theorem truth_ofBool (value : Bool) : model.truth (.ofBool value) = value :=
  model.truths.known

private theorem truth_not (operand : Term) : model.truth operand.not = !model.truth operand := by
  apply model.truths.assigns_not.2
  show model.truth operand = !!model.truth operand
  rw [Bool.not_not]

private theorem truth_and (left right : Term) :
    model.truth (left.and right) = (model.truth left && model.truth right) := by
  rw [Bool.eq_iff_iff, Bool.and_eq_true]
  exact model.truths.assigns_and

private theorem truth_or (left right : Term) :
    model.truth (left.or right) = (model.truth left || model.truth right) := by
  apply Bool.eq_iff_iff.2
  have bothFalse : model.truth (left.or right) = false ↔ _ := model.truths.assigns_or_false
  rw [← not_iff_not, Bool.not_eq_true, bothFalse, Bool.not_eq_true, Bool.or_eq_false_iff]
  rfl

/-- Conditionals between conditions, looked at for their truth. -/
def truthObservation : Term.Observation Bool where
  decides := fun condition value => model.truth condition = value
  known := fun decided => (model.truth_ofBool _).symm.trans decided
  negation := by
    intro operand value decided
    rw [← decided, truth, Bool.not_not]
  observe := model.truth
  Fits := fun _ => True
  conditional := by
    rintro condition value rfl consequent alternate
    rw [truth]
    split <;> rfl
  settled := by
    intro condition value decided consequent alternate result settled _
    rcases Term.settled?_cases settled with ⟨rfl, rfl⟩ | ⟨_, ⟨rfl, rfl, rfl⟩ | ⟨rfl, rfl, rfl⟩ |
      ⟨rfl, rfl⟩ | ⟨rfl, rfl⟩ | ⟨rfl, rfl⟩ | ⟨rfl, rfl⟩⟩
    · rw [ite_self]
    all_goals
      cases value <;> simp [decided, truth_ofBool, truth_not, truth_and, truth_or]

private theorem truth_ite (condition consequent alternate : Term) :
    model.truth (condition.ite consequent alternate) =
      if model.truth condition then model.truth consequent else model.truth alternate := by
  rw [← apply_ite model.truth]
  exact model.truthObservation.ite rfl trivial trivial

/-! ## What terms stand for -/

/-- The value that the chosen branch of a term comes to, or the branch itself if
it has no value. -/
def chosen : Term → Constant ⊕ Term
  | .conditional condition consequent alternate =>
      if model.truth condition then chosen consequent else chosen alternate
  | term =>
      match model.eval [] term with
      | .ok value => .inl value
      | .error _ => .inr term

/-- What a term stands for: every condition for its truth value. -/
def standsFor (term : Term) : Constant ⊕ Term :=
  if term.sort = .bool then .inl (.bool (model.truth term)) else model.chosen term

private theorem chosen_of_not_conditional {term : Term} (flat : term.isConditional = false) :
    model.chosen term =
      match model.eval [] term with
      | .ok value => .inl value
      | .error _ => .inr term := by
  cases term with
  | conditional => simp [Term.isConditional] at flat
  | _ => rfl

private theorem chosen_of_eval {term : Term} {value : Constant}
    (evaluated : model.eval [] term = .ok value) : model.chosen term = .inl value := by
  induction term using Term.branchInduction with
  | flat term isFlat => rw [model.chosen_of_not_conditional isFlat, evaluated]
  | conditional condition consequent alternate consequentHypothesis alternateHypothesis =>
      obtain ⟨decided, conditionHolds, branchHolds⟩ := eval_conditional_eq_ok.1 evaluated
      rw [chosen, model.truth_of_eval conditionHolds]
      cases decided with
      | true => exact consequentHypothesis branchHolds
      | false => exact alternateHypothesis branchHolds

variable {model} {vocabulary : Vocabulary}

private theorem standsFor_of_eval (admissible : model.Admissible vocabulary) {term : Term}
    {value : Constant}
    (wellSorted : term.WellSorted vocabulary [])
    (evaluated : model.eval [] term = .ok value) : model.standsFor term = .inl value := by
  rw [standsFor]
  split
  · next isBool =>
      obtain ⟨decided, rfl⟩ := Term.eval_bool_cases admissible Bindings.respect_empty wellSorted
        isBool evaluated
      rw [model.truth_of_eval evaluated]
  · exact model.chosen_of_eval evaluated

private theorem standsFor_of_not_bool {term : Term} (notBool : term.sort ≠ .bool) :
    model.standsFor term = model.chosen term :=
  if_neg notBool

private theorem standsFor_const {value : Constant} (proper : value ≠ .bottom) :
    model.standsFor (.const value) = .inl value := by
  cases value with
  | bottom => exact absurd rfl proper
  | _ => rfl

/-! ## Equalities -/

/-- An input is no allocated object, whether it has a value or not. -/
private theorem chosen_input_ne_heap (admissible : model.Admissible vocabulary) {term : Term}
    (isInput : term.isInputReference = true)
    (wellSorted : term.WellSorted vocabulary [])
    (address : UInt32) : model.chosen term ≠ .inl (.heap address) := by
  have isFlat : term.isConditional = false := by
    cases term <;> simp_all [Term.isInputReference, Term.isConditional]
  rw [model.chosen_of_not_conditional isFlat]
  split
  · next value evaluated =>
      have notHeap :=
        Term.eval_isInputReference_not_heap admissible isInput wellSorted evaluated
      intro same
      cases same
      cases notHeap
  · simp

/-- An allocated object and an input stand for different things. -/
private theorem standsFor_heap_ne_input (admissible : model.Admissible vocabulary)
    {left right : Term}
    (rightSorted : right.WellSorted vocabulary [])
    (sameSort : left.sort = right.sort)
    (isHeap : left.isHeapAddress = true)
    (isInput : right.isInputReference = true) :
    model.standsFor left ≠ model.standsFor right := by
  obtain ⟨address, rfl⟩ := Term.eq_const_of_isHeapAddress isHeap
  have notBool : (Term.const (.heap address)).sort ≠ .bool := by
    simp [Term.sort, Constant.sort]
  rw [sameSort] at notBool
  rw [standsFor_const (by simp), standsFor_of_not_bool notBool]
  exact (chosen_input_ne_heap admissible isInput rightSorted address).symm

private theorem standsFor_of_equalsKnown (admissible : model.Admissible vocabulary)
    {left right result : Term}
    (leftSorted : left.WellSorted vocabulary [])
    (rightSorted : right.WellSorted vocabulary [])
    (sameSort : left.sort = right.sort)
    (known : left.equalsKnown? right = some result) :
    model.standsFor left = model.standsFor right ↔ model.truth result = true := by
  rcases Term.equalsKnown?_cases known with ⟨rfl, rfl⟩ | folded | ⟨isHeap, isInput, rfl⟩ |
    ⟨isHeap, isInput, rfl⟩ | ⟨isBool, shapes⟩
  · simp [truth_ofBool]
  · obtain ⟨leftValue, rightValue, rfl, rfl, rfl, compared⟩ := Term.eq_const_of_folded? folded
    rw [Term.WellSorted] at leftSorted rightSorted
    have compares : model.truth (.ofBool (leftValue = rightValue)) = _ := model.truth_ofBool _
    rw [Term.ofBool] at compares
    rw [Term.equals_of_ne_bottom compared, standsFor_const leftSorted,
      standsFor_const rightSorted, compares]
    simp
  · have different := standsFor_heap_ne_input admissible rightSorted sameSort isHeap isInput
    simp [truth_ofBool, different]
  · have different := standsFor_heap_ne_input admissible leftSorted sameSort.symm isHeap isInput
    simp [truth_ofBool, different.symm]
  · have rightBool : right.sort = .bool := sameSort ▸ isBool
    simp only [standsFor, isBool, rightBool, if_true]
    rcases shapes with ⟨rfl, rfl⟩ | ⟨rfl, rfl⟩ | ⟨rfl, rfl⟩ | ⟨rfl, rfl⟩
    · simp [truth_ofBool]
    · simp [truth_ofBool, truth_not]
    · rw [eq_comm]
      simp [truth_ofBool]
    · rw [eq_comm]
      simp [truth_ofBool, truth_not]

/-- A plain equality is true where both sides have one value, and only there. -/
private theorem truth_equals {left right : Term} :
    model.truth (.binary .equals left right) = true ↔
      ∃ value, model.eval [] left = .ok value ∧ model.eval [] right = .ok value := by
  constructor
  · intro isTrue
    have evaluated : model.eval [] (.binary .equals left right) = .ok (.bool true) := by
      simp only [truth] at isTrue
      split at isTrue
      · next value evaluated => rw [evaluated, isTrue]
      · cases isTrue
    obtain ⟨value, other, leftHolds, rightHolds, same⟩ := Term.eval_equals_cases evaluated
    have isSame : value = other := of_decide_eq_true (Constant.bool.inj same).symm
    exact ⟨value, leftHolds, isSame ▸ rightHolds⟩
  · rintro ⟨value, leftHolds, rightHolds⟩
    have proper := eval_ne_bottom left leftHolds
    apply model.truth_of_eval
    refine (eval_strict_eq_ok rfl).2 ⟨value, value, leftHolds, rightHolds, ?_, by simp⟩
    cases value <;> simp_all [Constant.equals, Constant.isBottom]

private theorem truth_equalsOrdered {before : Term → Term → Bool} {left right : Term} :
    model.truth (left.equalsOrdered before right) = true ↔
      ∃ value, model.eval [] left = .ok value ∧ model.eval [] right = .ok value := by
  rw [Term.equalsOrdered]
  split
  · rw [truth_equals]
    exact exists_congr fun value => and_comm
  · exact truth_equals

/-- Pushed into branches or not, a comparison with a constant asks what the
chosen branch comes to. -/
private theorem truth_equalsConstant (admissible : model.Admissible vocabulary)
    {before : Term → Term → Bool} {value : Constant} {term : Term}
    (termSorted : term.WellSorted vocabulary [])
    (valueSorted : (Term.const value).WellSorted vocabulary [])
    (sameSort : term.sort = (Term.const value).sort)
    (notBool : term.sort ≠ .bool) :
    model.truth (Term.equalsConstant before value term) = true ↔
      model.chosen term = .inl value := by
  have proper := valueSorted
  rw [Term.WellSorted] at proper
  have ofKnown : ∀ {term result : Term}, term.WellSorted vocabulary [] →
      term.sort = (Term.const value).sort → term.sort ≠ .bool →
      term.equalsKnown? (.const value) = some result →
        (model.truth result = true ↔ model.chosen term = .inl value) := by
    intro term result termSorted sameSort notBool known
    rw [← standsFor_of_equalsKnown admissible termSorted valueSorted sameSort known,
      standsFor_of_not_bool notBool, standsFor_const proper]
  induction term using Term.branchInduction with
  | flat term isFlat =>
      rw [Term.equalsConstant_of_not_conditional before isFlat]
      cases known : Term.equalsKnown? term (.const value) with
      | some result => exact ofKnown termSorted sameSort notBool known
      | none =>
          rw [Option.getD_none, truth_equalsOrdered, model.chosen_of_not_conditional isFlat,
            eval_const_eq_ok.2 ⟨rfl, proper⟩]
          cases model.eval [] term with
          | ok found => simp [eq_comm]
          | error cause => simp
  | conditional condition consequent alternate consequentHypothesis alternateHypothesis =>
      simp only [Term.equalsConstant]
      split
      · next known => exact ofKnown termSorted sameSort notBool known
      · rw [Term.WellSorted] at termSorted
        obtain ⟨_, consequentSorted, alternateSorted, _, branchSort⟩ := termSorted
        rw [Term.sort] at sameSort notBool
        rw [truth_ite, chosen]
        cases model.truth condition with
        | true => exact consequentHypothesis consequentSorted sameSort notBool
        | false =>
            rw [branchSort] at sameSort notBool
            exact alternateHypothesis alternateSorted sameSort notBool

private theorem standsFor_of_equalsConstant (admissible : model.Admissible vocabulary)
    {before : Term → Term → Bool} {term : Term} {value : Constant}
    (termSorted : term.WellSorted vocabulary [])
    (valueSorted : (Term.const value).WellSorted vocabulary [])
    (sameSort : term.sort = (Term.const value).sort)
    (notBool : term.sort ≠ .bool) :
    model.standsFor term = model.standsFor (.const value) ↔
      model.truth (Term.equalsConstant before value term) = true := by
  rw [truth_equalsConstant admissible termSorted valueSorted sameSort notBool,
    standsFor_of_not_bool notBool]
  rw [Term.WellSorted] at valueSorted
  rw [standsFor_const valueSorted]

private theorem asBool?_const_of_hasSort {value : Constant} (hasSort : value.HasSort .bool) :
    (Term.const value).asBool? ≠ none := by
  obtain ⟨known, rfl⟩ := hasSort.bool_cases
  simp [Term.asBool?, Constant.asBool?]

private theorem standsFor_of_equalsOrdered (admissible : model.Admissible vocabulary)
    {before : Term → Term → Bool} {left right : Term} {value : Bool}
    (leftSorted : left.WellSorted vocabulary [])
    (rightSorted : right.WellSorted vocabulary [])
    (evaluated : model.eval [] (left.equalsOrdered before right) = .ok (.bool value)) :
    model.standsFor left = model.standsFor right ↔ value = true := by
  unfold Term.equalsOrdered at evaluated
  split at evaluated
  · obtain ⟨rightValue, leftValue, rightHolds, leftHolds, compared⟩ :=
      Term.eval_equals_cases evaluated
    rw [standsFor_of_eval admissible leftSorted leftHolds,
      standsFor_of_eval admissible rightSorted rightHolds, Constant.bool.inj compared]
    simp [eq_comm]
  · obtain ⟨leftValue, rightValue, leftHolds, rightHolds, compared⟩ :=
      Term.eval_equals_cases evaluated
    rw [standsFor_of_eval admissible leftSorted leftHolds,
      standsFor_of_eval admissible rightSorted rightHolds, Constant.bool.inj compared]
    simp

/-- An equality between well-sorted terms that has a truth value tells whether
they stand for the same. -/
private theorem standsFor_of_equals (admissible : model.Admissible vocabulary) {left right : Term}
    {value : Bool}
    (wellSorted : (Term.binary .equals left right).WellSorted vocabulary [])
    (evaluated : model.eval [] (left.equals right) = .ok (.bool value)) :
    model.standsFor left = model.standsFor right ↔ value = true := by
  simp only [Term.WellSorted, BinaryOp.Accepts] at wellSorted
  obtain ⟨leftSorted, rightSorted, sameSort⟩ := wellSorted
  have isTruth := model.truth_of_eval evaluated
  revert evaluated isTruth
  rw [Term.equals]
  fun_cases Term.equalsBy Term.precedes left right with
  | case1 =>
      rename_i known
      intro _ isTruth
      rw [← isTruth]
      exact standsFor_of_equalsKnown admissible leftSorted rightSorted sameSort known
  | case2 condition consequent alternate constant unknown =>
      intro _ isTruth
      rw [← isTruth]
      apply standsFor_of_equalsConstant admissible leftSorted rightSorted sameSort
      intro isBool
      rw [Term.WellSorted] at rightSorted
      exact asBool?_const_of_hasSort ⟨rightSorted, sameSort.symm.trans isBool⟩
        (Term.asBool?_of_unknown unknown isBool).2
  | case3 constant condition consequent alternate unknown =>
      intro _ isTruth
      rw [← isTruth, eq_comm]
      apply standsFor_of_equalsConstant admissible rightSorted leftSorted sameSort.symm
      intro isBool
      rw [Term.WellSorted] at leftSorted
      exact asBool?_const_of_hasSort ⟨leftSorted, sameSort.trans isBool⟩
        (Term.asBool?_of_unknown unknown (sameSort.trans isBool)).1
  | case4 =>
      intro evaluated _
      exact standsFor_of_equalsOrdered admissible leftSorted rightSorted evaluated

/-! ## Encodings as readings -/

variable (model) in
/-- Terms read as what their encodings stand for. -/
def encodedReading : Equation.Reading (Constant ⊕ Term) where
  denotes := fun term value => term ≠ .const .bottom ∧ model.standsFor term.encoded = value
  unique := fun denotes otherwise => denotes.2.symm.trans otherwise.2
  distinct := by
    intro left right value ⟨leftProper, leftDenotes⟩ ⟨rightProper, rightDenotes⟩
    rw [Term.encoded, standsFor_const (fun bottom => leftProper (congrArg _ bottom))]
      at leftDenotes
    rw [Term.encoded, standsFor_const (fun bottom => rightProper (congrArg _ bottom)),
      ← leftDenotes] at rightDenotes
    exact (Sum.inl.inj rightDenotes).symm

/-- An encoded equality with a truth value tells whether its sides stand for the
same. -/
private theorem standsFor_of_assigns (admissible : model.Admissible vocabulary) {left right : Term}
    {value : Bool}
    (leftSorted : left.WellSorted vocabulary [])
    (rightSorted : right.WellSorted vocabulary [])
    (sameSort : left.sort = right.sort)
    (assigned : model.valuation.encoded.assigns (.binary .equals left right) value) :
    model.standsFor left.encoded = model.standsFor right.encoded ↔ value = true := by
  have leftRefines := Term.encoded_refines left leftSorted
  have rightRefines := Term.encoded_refines right rightSorted
  have evaluated : model.eval [] (Term.binary .equals left right).encoded = .ok (.bool value) :=
    assigned
  rw [Term.encoded] at evaluated
  apply standsFor_of_equals admissible _ evaluated
  simp only [Term.WellSorted, BinaryOp.Accepts]
  refine ⟨leftRefines.wellSorted, rightRefines.wellSorted, ?_⟩
  rw [leftRefines.sort, rightRefines.sort, sameSort]

private theorem encodedReading_holds (admissible : model.Admissible vocabulary) {literal : Term}
    (isCondition : literal.IsCondition vocabulary)
    (isTrue : model.valuation.encoded.assigns literal true) :
    model.encodedReading.Holds literal := by
  have proper : ∀ {term : Term}, term.WellSorted vocabulary [] → term ≠ .const .bottom := by
    rintro term wellSorted rfl
    simp [Term.WellSorted] at wellSorted
  unfold Equation.Reading.Holds
  split
  · next left right =>
      have wellSorted := isCondition.1
      simp only [Term.WellSorted, BinaryOp.Accepts] at wellSorted
      obtain ⟨leftSorted, rightSorted, sameSort⟩ := wellSorted
      have same := (standsFor_of_assigns admissible leftSorted rightSorted sameSort isTrue).2 rfl
      exact ⟨_, ⟨proper leftSorted, same⟩, proper rightSorted, rfl⟩
  · next left right =>
      have wellSorted := isCondition.negated.1
      simp only [Term.WellSorted, BinaryOp.Accepts] at wellSorted
      obtain ⟨leftSorted, rightSorted, sameSort⟩ := wellSorted
      have isFalse := model.valuation.encoded.negation.1 isTrue
      refine ⟨_, _, ⟨proper leftSorted, rfl⟩, ⟨proper rightSorted, rfl⟩, ?_⟩
      intro same
      have contradiction :=
        (standsFor_of_assigns admissible leftSorted rightSorted sameSort isFalse).1 same
      cases contradiction
  · trivial

/-- Encoded conditions that contradict each other are not all true. -/
theorem Admissible.deniesContradictions (admissible : model.Admissible vocabulary) :
    model.valuation.encoded.DeniesContradictions fun literal =>
      literal.IsCondition vocabulary := by
  intro literals core areConditions found allTrue
  apply Equation.not_hold_of_contradiction? model.encodedReading found
  intro literal inCore
  have isCondition := areConditions literal (Equation.subset_of_contradiction? found inCore)
  exact encodedReading_holds admissible isCondition (allTrue literal inCore)

/-- Under an admissible model a constraint adds to the encoded condition what
its encoding says, contradicting or not. -/
theorem Admissible.all_add (admissible : model.Admissible vocabulary)
    {condition : PathCondition} {constraint : Term}
    (sorted : condition.Sorted vocabulary)
    (isCondition : constraint.IsCondition vocabulary) :
    model.valuation.encoded.All (condition.add constraint).constraints ↔
      model.valuation.encoded.All condition.constraints ∧
        model.valuation.encoded.assigns constraint true := by
  apply model.valuation.encoded.all_add_of_denies admissible.deniesContradictions
  · intro feasible
    exact sorted.part feasible .equality
  · exact Term.IsCondition.closed.literals_and_negatedLiterals.1 constraint isCondition

theorem Admissible.all_foldl_add (admissible : model.Admissible vocabulary)
    {condition : PathCondition} {constraints : List Term}
    (sorted : condition.Sorted vocabulary)
    (areConditions : ∀ constraint ∈ constraints, constraint.IsCondition vocabulary) :
    model.valuation.encoded.All (constraints.foldl PathCondition.add condition).constraints ↔
      model.valuation.encoded.All condition.constraints ∧
        model.valuation.encoded.All constraints := by
  induction constraints generalizing condition with
  | nil => simp [Valuation.All]
  | cons constraint rest inductionHypothesis =>
      rw [List.forall_mem_cons] at areConditions
      rw [List.foldl_cons, inductionHypothesis (sorted.add areConditions.1) areConditions.2,
        admissible.all_add sorted areConditions.1, Valuation.all_cons, and_assoc]

end Model

end SymbolicHeap
