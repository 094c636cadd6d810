import SymbolicHeap.Proofs.Simplify.Connective

/-!
Contract: conditionals keep their meaning when they are simplified.

A conditional is looked at in two ways: for its value, and for an element of
the array that it chooses. Both pass through the condition to the chosen
branch, so the rules are proved once, for any such observation.

Owns:
- observations of a term and what simplified conditionals show to them;
- the value of `Term.ite`, for operands of any sort;
- `Term.ite` refines the plain conditional.
-/

namespace SymbolicHeap

namespace Term

/-- Induction over the branches of nested conditionals. -/
theorem branchInduction {motive : Term → Prop}
    (flat : ∀ term, term.isConditional = false → motive term)
    (conditional : ∀ condition consequent alternate, motive consequent → motive alternate →
      motive (.conditional condition consequent alternate)) :
    (term : Term) → motive term
  | .conditional condition consequent alternate =>
      conditional condition consequent alternate (branchInduction flat conditional consequent)
        (branchInduction flat conditional alternate)
  | .const _ | .var _ _ | .bound _ _ | .binary _ _ _ | .negation _ | .subtype _ _
  | .inputRead _ _ | .arrayConst _ _ | .constArray _ _ | .selection _ _ | .update _ _ _
  | .lambda _ _ => flat _ rfl

/-! ## Branches that settle a conditional -/

theorem settled?_cases {condition consequent alternate result : Term}
    (settled : settled? condition consequent alternate = some result) :
    (consequent = alternate ∧ result = consequent) ∨
      consequent.sort = .bool ∧
        ((consequent = ofBool true ∧ alternate = ofBool false ∧ result = condition) ∨
          (consequent = ofBool false ∧ alternate = ofBool true ∧ result = condition.not) ∨
          (consequent = ofBool true ∧ result = condition.or alternate) ∨
          (consequent = ofBool false ∧ result = condition.not.and alternate) ∨
          (alternate = ofBool false ∧ result = condition.and consequent) ∨
          (alternate = ofBool true ∧ result = condition.not.or consequent)) := by
  unfold settled? at settled
  split at settled
  · next same => exact .inl ⟨same, by simpa using settled.symm⟩
  · split at settled
    · next isBool =>
        refine .inr ⟨isBool, ?_⟩
        split at settled
        · next consequentKnown alternateKnown =>
            exact .inl ⟨eq_const_of_asBool? consequentKnown,
              eq_const_of_asBool? alternateKnown, by simpa using settled.symm⟩
        · next consequentKnown alternateKnown =>
            exact .inr (.inl ⟨eq_const_of_asBool? consequentKnown,
              eq_const_of_asBool? alternateKnown, by simpa using settled.symm⟩)
        · next consequentKnown _ =>
            exact .inr (.inr (.inl
              ⟨eq_const_of_asBool? consequentKnown, by simpa using settled.symm⟩))
        · next consequentKnown _ =>
            exact .inr (.inr (.inr (.inl
              ⟨eq_const_of_asBool? consequentKnown, by simpa using settled.symm⟩)))
        · next _ alternateKnown =>
            exact .inr (.inr (.inr (.inr (.inl
              ⟨eq_const_of_asBool? alternateKnown, by simpa using settled.symm⟩))))
        · next _ alternateKnown =>
            exact .inr (.inr (.inr (.inr (.inr
              ⟨eq_const_of_asBool? alternateKnown, by simpa using settled.symm⟩))))
        · simp at settled
    · simp at settled

private theorem iteAlternate_of_not_conditional {alternate : Term}
    (flat : alternate.isConditional = false)
    (condition consequent : Term) :
    iteAlternate condition consequent alternate =
      (settled? condition consequent alternate).getD
        (.conditional condition consequent alternate) := by
  cases alternate with
  | conditional => simp [isConditional] at flat
  | _ =>
      simp only [iteAlternate]
      cases settled? condition consequent _ <;> rfl

/-- A conditional is settled, asks the condition of its alternate again, or stays
a plain node. -/
theorem iteAlternate_induction {condition consequent : Term} {motive : Term → Term → Prop}
    (settled : ∀ {alternate result}, settled? condition consequent alternate = some result →
      motive alternate result)
    (again : ∀ {innerConsequent innerAlternate result}, motive innerAlternate result →
      motive (.conditional condition innerConsequent innerAlternate) result)
    (plain : ∀ alternate, motive alternate (.conditional condition consequent alternate))
    (alternate : Term) :
    motive alternate (iteAlternate condition consequent alternate) := by
  induction alternate using branchInduction with
  | flat alternate isFlat =>
      rw [iteAlternate_of_not_conditional isFlat]
      cases known : settled? condition consequent alternate with
      | some result => exact settled known
      | none => exact plain alternate
  | conditional inner innerConsequent innerAlternate _ inductionHypothesis =>
      simp only [iteAlternate]
      split
      · next known => exact settled known
      · split
        · next same =>
            subst same
            exact again inductionHypothesis
        · exact plain _

/-! ## Observations -/

/-- A way of looking at terms that goes through a decided condition to the
chosen branch. Settled conditionals show what the chosen branch shows, at least
when the branches have a sort that fits the observation. -/
structure Observation (α : Type) where
  decides : Term → Bool → Prop
  known : ∀ {value truth}, decides (ofBool value) truth → value = truth
  negation : ∀ {operand truth}, decides (.negation operand) truth → decides operand !truth
  observe : Term → α
  Fits : ValueSort → Prop
  conditional : ∀ {condition truth}, decides condition truth →
    ∀ consequent alternate, observe (.conditional condition consequent alternate) =
      observe (if truth then consequent else alternate)
  settled : ∀ {condition truth}, decides condition truth →
    ∀ {consequent alternate result}, settled? condition consequent alternate = some result →
      Fits consequent.sort → observe result = observe (if truth then consequent else alternate)

variable {model : Model} {bindings : Bindings}

private theorem eval_settled {condition consequent alternate result : Term} {truth : Bool}
    (conditionHolds : model.eval bindings condition = .ok (.bool truth))
    (settled : settled? condition consequent alternate = some result) :
    model.eval bindings result =
      model.eval bindings (if truth then consequent else alternate) := by
  have negationHolds := eval_not conditionHolds
  rcases settled?_cases settled with ⟨rfl, rfl⟩ | ⟨_, ⟨rfl, rfl, rfl⟩ | ⟨rfl, rfl, rfl⟩ |
    ⟨rfl, rfl⟩ | ⟨rfl, rfl⟩ | ⟨rfl, rfl⟩ | ⟨rfl, rfl⟩⟩
  · rw [ite_self]
  · rw [conditionHolds]
    cases truth <;> rfl
  · rw [negationHolds]
    cases truth <;> rfl
  · rw [eval_or conditionHolds]
    cases truth <;> rfl
  · rw [eval_and negationHolds]
    cases truth <;> rfl
  · rw [eval_and conditionHolds]
    cases truth <;> rfl
  · rw [eval_or negationHolds]
    cases truth <;> rfl

/-- The value of a term. -/
def Observation.value (model : Model) (bindings : Bindings) :
    Observation (Except Unevaluated Constant) where
  decides := fun condition truth => model.eval bindings condition = .ok (.bool truth)
  known := fun holds => (Constant.bool.inj (eq_of_eval_ofBool holds)).symm
  negation := eval_of_negation
  observe := model.eval bindings
  Fits := fun _ => True
  conditional := by
    intro condition truth conditionHolds consequent alternate
    rw [Model.eval, conditionHolds]
    cases truth <;> rfl
  settled := fun conditionHolds _ _ _ settled _ => eval_settled conditionHolds settled

/-- An element of a term as an array. A Boolean has none. -/
def Observation.element (model : Model) (bindings : Bindings) (indices : List Constant) :
    Observation (Except Unevaluated Constant) where
  decides := fun condition truth => model.eval bindings condition = .ok (.bool truth)
  known := fun holds => (Constant.bool.inj (eq_of_eval_ofBool holds)).symm
  negation := eval_of_negation
  observe := fun term => model.evalSelection bindings term indices
  Fits := fun sort => sort ≠ .bool
  conditional := by
    intro condition truth conditionHolds consequent alternate
    rw [Model.evalSelection, conditionHolds]
    cases truth <;> rfl
  settled := by
    intro condition truth _ consequent alternate result settled notBool
    rcases settled?_cases settled with ⟨rfl, rfl⟩ | ⟨isBool, _⟩
    · rw [ite_self]
    · exact absurd isBool notBool

namespace Observation

variable {α : Type} (observation : Observation α) {condition : Term} {truth : Bool}
  (decided : observation.decides condition truth)

include decided

theorem iteAlternate {consequent : Term}
    (fits : observation.Fits consequent.sort)
    (alternate : Term) :
    observation.observe (Term.iteAlternate condition consequent alternate) =
      observation.observe (if truth then consequent else alternate) := by
  refine iteAlternate_induction (motive := fun alternate result =>
    observation.observe result = observation.observe (if truth then consequent else alternate))
    ?_ ?_ ?_ alternate
  · intro alternate result settled
    exact observation.settled decided settled fits
  · intro innerConsequent innerAlternate result inductionHypothesis
    rw [inductionHypothesis]
    cases truth with
    | true => rfl
    | false => exact (observation.conditional decided innerConsequent innerAlternate).symm
  · intro alternate
    exact observation.conditional decided _ _

theorem iteConsequent {alternate : Term}
    (consequent : Term)
    (fits : observation.Fits consequent.sort) :
    observation.observe (Term.iteConsequent condition alternate consequent) =
      observation.observe (if truth then consequent else alternate) := by
  fun_induction Term.iteConsequent condition alternate consequent with
  | case1 inner innerConsequent innerAlternate whole result settled =>
      exact observation.settled decided settled fits
  | case2 innerConsequent innerAlternate whole unsettled inductionHypothesis =>
      rw [inductionHypothesis fits]
      cases truth with
      | true => exact (observation.conditional decided innerConsequent innerAlternate).symm
      | false => rfl
  | case3 inner innerConsequent innerAlternate whole unsettled different =>
      exact observation.iteAlternate decided fits alternate
  | case4 consequent notConditional =>
      exact observation.iteAlternate decided fits alternate

theorem ite {consequent alternate : Term}
    (consequentFits : observation.Fits consequent.sort)
    (alternateFits : observation.Fits alternate.sort) :
    observation.observe (condition.ite consequent alternate) =
      observation.observe (if truth then consequent else alternate) := by
  fun_induction Term.ite condition consequent alternate generalizing truth with
  | case1 known consequent alternate isTrue =>
      rw [@eq_const_of_asBool? (.const known) true isTrue] at decided
      have truthIs : true = truth := observation.known decided
      rw [← truthIs]
      rfl
  | case2 known consequent alternate isFalse =>
      rw [@eq_const_of_asBool? (.const known) false isFalse] at decided
      have truthIs : false = truth := observation.known decided
      rw [← truthIs]
      rfl
  | case3 known consequent alternate notBool =>
      exact observation.iteConsequent decided consequent consequentFits
  | case4 operand consequent => rw [ite_self]
  | case5 operand consequent alternate different inductionHypothesis =>
      rw [inductionHypothesis (observation.negation decided) alternateFits consequentFits]
      cases truth <;> rfl
  | case6 condition consequent alternate =>
      exact observation.iteConsequent decided consequent consequentFits

end Observation

/-- A simplified conditional shows what the chosen branch shows: its value, or
that it has none. -/
theorem eval_ite {condition : Term} {truth : Bool}
    (conditionHolds : model.eval bindings condition = .ok (.bool truth))
    (consequent alternate : Term) :
    model.eval bindings (condition.ite consequent alternate) =
      model.eval bindings (if truth then consequent else alternate) :=
  (Observation.value model bindings).ite conditionHolds trivial trivial

/-! ## Sorts -/

section Sorted

variable {vocabulary : Vocabulary} {scope : Scope} {condition : Term} {sort : ValueSort}

private theorem settled_wellSorted {consequent alternate result : Term}
    (settled : settled? condition consequent alternate = some result)
    (conditionSorted : condition.WellSorted vocabulary scope ∧ condition.sort = .bool)
    (consequentSorted : consequent.WellSorted vocabulary scope ∧ consequent.sort = sort)
    (alternateSorted : alternate.WellSorted vocabulary scope ∧ alternate.sort = sort) :
    result.WellSorted vocabulary scope ∧ result.sort = sort := by
  obtain ⟨negationSorted, negationSort⟩ :=
    not_wellSorted conditionSorted.1 conditionSorted.2
  rcases settled?_cases settled with ⟨_, rfl⟩ | ⟨isBool, shapes⟩
  · exact consequentSorted
  · have sortBool : sort = .bool := consequentSorted.2.symm.trans isBool
    subst sortBool
    rcases shapes with ⟨_, _, rfl⟩ | ⟨_, _, rfl⟩ | ⟨_, rfl⟩ | ⟨_, rfl⟩ | ⟨_, rfl⟩ | ⟨_, rfl⟩
    · exact conditionSorted
    · exact ⟨negationSorted, negationSort⟩
    · apply or_wellSorted
      simp only [WellSorted, BinaryOp.Accepts]
      exact ⟨conditionSorted.1, alternateSorted.1, conditionSorted.2, alternateSorted.2⟩
    · apply and_wellSorted
      simp only [WellSorted, BinaryOp.Accepts]
      exact ⟨negationSorted, alternateSorted.1, negationSort, alternateSorted.2⟩
    · apply and_wellSorted
      simp only [WellSorted, BinaryOp.Accepts]
      exact ⟨conditionSorted.1, consequentSorted.1, conditionSorted.2, consequentSorted.2⟩
    · apply or_wellSorted
      simp only [WellSorted, BinaryOp.Accepts]
      exact ⟨negationSorted, consequentSorted.1, negationSort, consequentSorted.2⟩

private theorem conditional_wellSorted {consequent alternate : Term}
    (conditionSorted : condition.WellSorted vocabulary scope ∧ condition.sort = .bool)
    (consequentSorted : consequent.WellSorted vocabulary scope ∧ consequent.sort = sort)
    (alternateSorted : alternate.WellSorted vocabulary scope ∧ alternate.sort = sort) :
    (Term.conditional condition consequent alternate).WellSorted vocabulary scope ∧
      (Term.conditional condition consequent alternate).sort = sort := by
  simp only [WellSorted, Term.sort]
  exact ⟨⟨conditionSorted.1, consequentSorted.1, alternateSorted.1, conditionSorted.2,
    consequentSorted.2.trans alternateSorted.2.symm⟩, consequentSorted.2⟩

private theorem branches_wellSorted {consequent alternate : Term}
    (sorted : (Term.conditional condition consequent alternate).WellSorted vocabulary scope ∧
      (Term.conditional condition consequent alternate).sort = sort) :
    (consequent.WellSorted vocabulary scope ∧ consequent.sort = sort) ∧
      (alternate.WellSorted vocabulary scope ∧ alternate.sort = sort) := by
  simp only [WellSorted, Term.sort] at sorted
  obtain ⟨⟨_, consequentSorted, alternateSorted, _, sameSort⟩, consequentSort⟩ := sorted
  exact ⟨⟨consequentSorted, consequentSort⟩, alternateSorted, sameSort.symm.trans consequentSort⟩

private theorem iteAlternate_wellSorted {consequent : Term}
    (alternate : Term)
    (conditionSorted : condition.WellSorted vocabulary scope ∧ condition.sort = .bool)
    (consequentSorted : consequent.WellSorted vocabulary scope ∧ consequent.sort = sort)
    (alternateSorted : alternate.WellSorted vocabulary scope ∧ alternate.sort = sort) :
    (iteAlternate condition consequent alternate).WellSorted vocabulary scope ∧
      (iteAlternate condition consequent alternate).sort = sort := by
  revert alternateSorted
  refine iteAlternate_induction (motive := fun alternate result =>
    alternate.WellSorted vocabulary scope ∧ alternate.sort = sort →
      result.WellSorted vocabulary scope ∧ result.sort = sort) ?_ ?_ ?_ alternate
  · intro alternate result settled alternateSorted
    exact settled_wellSorted settled conditionSorted consequentSorted alternateSorted
  · intro innerConsequent innerAlternate result inductionHypothesis alternateSorted
    exact inductionHypothesis (branches_wellSorted alternateSorted).2
  · intro alternate alternateSorted
    exact conditional_wellSorted conditionSorted consequentSorted alternateSorted

private theorem iteConsequent_wellSorted {alternate : Term}
    (consequent : Term)
    (conditionSorted : condition.WellSorted vocabulary scope ∧ condition.sort = .bool)
    (consequentSorted : consequent.WellSorted vocabulary scope ∧ consequent.sort = sort)
    (alternateSorted : alternate.WellSorted vocabulary scope ∧ alternate.sort = sort) :
    (iteConsequent condition alternate consequent).WellSorted vocabulary scope ∧
      (iteConsequent condition alternate consequent).sort = sort := by
  fun_induction iteConsequent condition alternate consequent with
  | case1 inner innerConsequent innerAlternate whole result settled =>
      exact settled_wellSorted settled conditionSorted consequentSorted alternateSorted
  | case2 innerConsequent innerAlternate whole unsettled inductionHypothesis =>
      exact inductionHypothesis (branches_wellSorted consequentSorted).1
  | case3 inner innerConsequent innerAlternate whole unsettled different =>
      exact iteAlternate_wellSorted alternate conditionSorted consequentSorted alternateSorted
  | case4 consequent notConditional =>
      exact iteAlternate_wellSorted alternate conditionSorted consequentSorted alternateSorted

theorem ite_wellSorted {consequent alternate : Term}
    (conditionSorted : condition.WellSorted vocabulary scope ∧ condition.sort = .bool)
    (consequentSorted : consequent.WellSorted vocabulary scope ∧ consequent.sort = sort)
    (alternateSorted : alternate.WellSorted vocabulary scope ∧ alternate.sort = sort) :
    (condition.ite consequent alternate).WellSorted vocabulary scope ∧
      (condition.ite consequent alternate).sort = sort := by
  fun_induction Term.ite condition consequent alternate with
  | case1 => exact consequentSorted
  | case2 => exact alternateSorted
  | case3 => exact iteConsequent_wellSorted _ conditionSorted consequentSorted alternateSorted
  | case4 => exact consequentSorted
  | case5 operand consequent alternate different inductionHypothesis =>
      simp only [WellSorted] at conditionSorted
      exact inductionHypothesis conditionSorted.1 alternateSorted consequentSorted
  | case6 => exact iteConsequent_wellSorted _ conditionSorted consequentSorted alternateSorted

theorem refines_ite {consequent alternate : Term}
    (wellSorted :
      (Term.conditional condition consequent alternate).WellSorted vocabulary scope) :
    Refines vocabulary scope (.conditional condition consequent alternate)
      (condition.ite consequent alternate) := by
  have operands := wellSorted
  simp only [WellSorted] at operands
  obtain ⟨conditionSorted, consequentSorted, alternateSorted, conditionSort, sameSort⟩ := operands
  obtain ⟨sorted, sort⟩ := ite_wellSorted ⟨conditionSorted, conditionSort⟩
    ⟨consequentSorted, rfl⟩ ⟨alternateSorted, sameSort.symm⟩
  refine ⟨sorted, sort, ?_, ?_⟩
  · intro model bindings value _ _ evaluated
    obtain ⟨truth, conditionHolds, chosen⟩ := Model.eval_conditional_eq_ok.1 evaluated
    rw [eval_ite conditionHolds]
    exact chosen
  · intro model bindings indices value _ _ selected
    have notBool : consequent.sort ≠ .bool := by
      intro isBool
      have isArray := Model.isArray_of_evalSelection _ wellSorted selected
      simp [Term.sort, isBool, ValueSort.isArray] at isArray
    obtain ⟨truth, conditionHolds, chosen⟩ :=
      Model.evalSelection_conditional_eq_ok.1 selected
    exact ((Observation.element model bindings indices).ite conditionHolds notBool
      (sameSort ▸ notBool)).trans chosen

end Sorted

end Term

end SymbolicHeap
