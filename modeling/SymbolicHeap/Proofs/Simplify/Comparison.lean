import SymbolicHeap.Proofs.Simplify.Conditional
import SymbolicHeap.Proofs.Simplify.Offset

/-!
Contract: comparisons keep their meaning when they are simplified.

One rule needs more than sorts: an object that the run allocates differs from
everything that existed before it, which admissible models guarantee.

Owns:
- inputs are no allocated objects;
- `Term.equals`, `Term.lessThan` and `Term.lessOrEqual` refine the plain nodes.
-/

namespace SymbolicHeap

namespace Term

variable {vocabulary : Vocabulary} {scope : Scope} {left right : Term}

/-! ## Inputs and allocated objects -/

theorem eq_const_of_isHeapAddress {term : Term} (isHeap : term.isHeapAddress = true) :
    ∃ address, term = .const (.heap address) := by
  unfold isHeapAddress at isHeap
  split at isHeap
  · exact ⟨_, rfl⟩
  · simp at isHeap

/-- A reference into input memory is never an object that the run allocates. -/
theorem eval_isInputReference_not_heap
    {model : Model}
    (admissible : model.Admissible vocabulary)
    {bindings : Bindings}
    {term : Term}
    (isInput : term.isInputReference = true)
    (wellSorted : term.WellSorted vocabulary scope)
    {value : Constant}
    (evaluated : model.eval bindings term = .ok value) :
    value.isHeap = false := by
  unfold isInputReference at isInput
  split at isInput
  · next name sort =>
      obtain ⟨scalar, _, assigned | ⟨_, initial⟩⟩ := Model.eval_var_eq_ok.1 evaluated
      · simp only [WellSorted, scalar, Bool.false_eq_true, ↓reduceIte] at wellSorted
        exact (admissible.scalars wellSorted assigned).2
      · exact Constant.default_not_heap initial
  · next region key =>
      simp only [WellSorted] at wellSorted
      obtain ⟨_, _, _, found⟩ := Model.eval_inputRead_eq_ok.1 evaluated
      exact Model.lookupArray_not_heap admissible wellSorted.2.2 found
  · simp at isInput

/-! ## Equality -/

theorem equals_of_ne_bottom {left right : Constant} (proper : left.equals right ≠ .bottom) :
    left.equals right = .bool (left = right) := by
  rw [Constant.equals] at proper ⊢
  split at proper
  · exact absurd rfl proper
  · next bothProper => rw [if_neg bothProper]

/-- An equality with a value compares the values of its operands. -/
theorem eval_equals_cases {model : Model} {bindings : Bindings} {value : Constant}
    (evaluated : model.eval bindings (.binary .equals left right) = .ok value) :
    ∃ leftValue rightValue, model.eval bindings left = .ok leftValue ∧
      model.eval bindings right = .ok rightValue ∧ value = .bool (leftValue = rightValue) := by
  obtain ⟨leftValue, rightValue, leftHolds, rightHolds, result, proper⟩ :=
    (Model.eval_strict_eq_ok rfl).1 evaluated
  refine ⟨leftValue, rightValue, leftHolds, rightHolds, ?_⟩
  rw [← result] at proper ⊢
  exact equals_of_ne_bottom proper

theorem equalsKnown?_cases {result : Term} (known : equalsKnown? left right = some result) :
    (left = right ∧ result = ofBool true) ∨
      folded? Constant.equals left right = some result ∨
      (left.isHeapAddress = true ∧ right.isInputReference = true ∧ result = ofBool false) ∨
      (right.isHeapAddress = true ∧ left.isInputReference = true ∧ result = ofBool false) ∨
      left.sort = .bool ∧
        ((right = ofBool true ∧ result = left) ∨
          (right = ofBool false ∧ result = left.not) ∨
          (left = ofBool true ∧ result = right) ∨
          (left = ofBool false ∧ result = right.not)) := by
  unfold equalsKnown? at known
  split at known
  · next same => exact .inl ⟨same.1, by simpa using known.symm⟩
  · split at known
    · next folded => exact .inr (.inl (folded.trans known))
    · split at known
      · next apart => exact .inr (.inr (.inl ⟨apart.1, apart.2, by simpa using known.symm⟩))
      · split at known
        · next apart =>
            exact .inr (.inr (.inr (.inl ⟨apart.1, apart.2, by simpa using known.symm⟩)))
        · split at known
          · next isBool =>
              refine .inr (.inr (.inr (.inr ⟨isBool, ?_⟩)))
              split at known
              · next rightKnown =>
                  exact .inl ⟨eq_const_of_asBool? rightKnown, by simpa using known.symm⟩
              · next rightKnown =>
                  exact .inr (.inl ⟨eq_const_of_asBool? rightKnown, by simpa using known.symm⟩)
              · next leftKnown _ =>
                  exact .inr (.inr (.inl
                    ⟨eq_const_of_asBool? leftKnown, by simpa using known.symm⟩))
              · next leftKnown _ =>
                  exact .inr (.inr (.inr
                    ⟨eq_const_of_asBool? leftKnown, by simpa using known.symm⟩))
              · simp at known
          · simp at known

/-- An equality of conditions that is not known has no known side. -/
theorem asBool?_of_unknown (unknown : equalsKnown? left right = none) (isBool : left.sort = .bool) :
    left.asBool? = none ∧ right.asBool? = none := by
  unfold equalsKnown? at unknown
  split at unknown
  · cases unknown
  · split at unknown
    · cases unknown
    · split at unknown
      · cases unknown
      · split at unknown
        · cases unknown
        · split at unknown
          · cases unknown
          · cases unknown
          · cases unknown
          · cases unknown
          · next leftOpen rightOpen => exact ⟨leftOpen, rightOpen⟩

/-- An operand of Boolean sort holds a truth value. -/
theorem eval_bool_cases
    {model : Model}
    (admissible : model.Admissible vocabulary)
    {bindings : Bindings}
    (respect : bindings.Respect scope)
    {term : Term}
    (wellSorted : term.WellSorted vocabulary scope)
    (isBool : term.sort = .bool)
    {value : Constant}
    (evaluated : model.eval bindings term = .ok value) :
    ∃ truth, value = .bool truth :=
  (isBool ▸ Model.eval_hasSort admissible.sorted term respect wellSorted evaluated).bool_cases

private theorem equalsKnown_wellSorted {result : Term}
    (wellSorted : (Term.binary .equals left right).WellSorted vocabulary scope)
    (known : equalsKnown? left right = some result) :
    result.WellSorted vocabulary scope ∧ result.sort = .bool := by
  simp only [WellSorted, BinaryOp.Accepts] at wellSorted
  obtain ⟨leftSorted, rightSorted, sameSort⟩ := wellSorted
  rcases equalsKnown?_cases known with ⟨_, rfl⟩ | folded | ⟨_, _, rfl⟩ | ⟨_, _, rfl⟩ |
    ⟨isBool, shapes⟩
  · exact ⟨ofBool_wellSorted _, rfl⟩
  · have refines : Refines vocabulary scope (.binary .equals left right) result :=
      refines_of_folded? rfl folded
    exact ⟨refines.wellSorted, refines.sort⟩
  · exact ⟨ofBool_wellSorted _, rfl⟩
  · exact ⟨ofBool_wellSorted _, rfl⟩
  · have rightBool : right.sort = .bool := sameSort ▸ isBool
    rcases shapes with ⟨_, rfl⟩ | ⟨_, rfl⟩ | ⟨_, rfl⟩ | ⟨_, rfl⟩
    · exact ⟨leftSorted, isBool⟩
    · exact not_wellSorted leftSorted isBool
    · exact ⟨rightSorted, rightBool⟩
    · exact not_wellSorted rightSorted rightBool

private theorem refines_equalsKnown {result : Term}
    (wellSorted : (Term.binary .equals left right).WellSorted vocabulary scope)
    (known : equalsKnown? left right = some result) :
    Refines vocabulary scope (.binary .equals left right) result := by
  obtain ⟨sorted, sort⟩ := equalsKnown_wellSorted wellSorted known
  refine Refines.ofBinary sorted sort ?_
  intro model bindings value admissible respect evaluated
  simp only [WellSorted, BinaryOp.Accepts] at wellSorted
  obtain ⟨leftSorted, rightSorted, sameSort⟩ := wellSorted
  have whole := evaluated
  obtain ⟨leftValue, rightValue, leftHolds, rightHolds, rfl⟩ := eval_equals_cases evaluated
  rcases equalsKnown?_cases known with ⟨rfl, rfl⟩ | folded | ⟨isHeap, isInput, rfl⟩ |
    ⟨isHeap, isInput, rfl⟩ | ⟨isBool, shapes⟩
  · rw [leftHolds, Except.ok.injEq] at rightHolds
    simp [rightHolds]
  · exact (refines_of_folded? rfl folded).eval admissible respect whole
  · obtain ⟨address, rfl⟩ := eq_const_of_isHeapAddress isHeap
    obtain ⟨rfl, _⟩ := Model.eval_const_eq_ok.1 leftHolds
    have notHeap := eval_isInputReference_not_heap admissible isInput rightSorted rightHolds
    cases rightValue <;> simp_all [Constant.isHeap]
  · obtain ⟨address, rfl⟩ := eq_const_of_isHeapAddress isHeap
    obtain ⟨rfl, _⟩ := Model.eval_const_eq_ok.1 rightHolds
    have notHeap := eval_isInputReference_not_heap admissible isInput leftSorted leftHolds
    cases leftValue <;> simp_all [Constant.isHeap]
  · obtain ⟨leftTruth, rfl⟩ := eval_bool_cases admissible respect leftSorted isBool leftHolds
    obtain ⟨rightTruth, rfl⟩ :=
      eval_bool_cases admissible respect rightSorted (sameSort ▸ isBool) rightHolds
    rcases shapes with ⟨rfl, rfl⟩ | ⟨rfl, rfl⟩ | ⟨rfl, rfl⟩ | ⟨rfl, rfl⟩
    · cases eq_of_eval_ofBool rightHolds
      simp [leftHolds]
    · cases eq_of_eval_ofBool rightHolds
      rw [eval_not leftHolds]
      cases leftTruth <;> simp
    · cases eq_of_eval_ofBool leftHolds
      rw [rightHolds]
      cases rightTruth <;> simp
    · cases eq_of_eval_ofBool leftHolds
      rw [eval_not rightHolds]
      cases rightTruth <;> simp

/-- Both ways of writing an equality mean the same. -/
private theorem refines_equals_swap
    (wellSorted : (Term.binary .equals left right).WellSorted vocabulary scope) :
    Refines vocabulary scope (.binary .equals left right) (.binary .equals right left) := by
  apply Refines.ofBinary
  · simp only [WellSorted, BinaryOp.Accepts] at wellSorted ⊢
    exact ⟨wellSorted.2.1, wellSorted.1, wellSorted.2.2.symm⟩
  · rfl
  · intro model bindings value _ _ evaluated
    obtain ⟨leftValue, rightValue, leftHolds, rightHolds, rfl, proper⟩ :=
      (Model.eval_strict_eq_ok rfl).1 evaluated
    refine (Model.eval_strict_eq_ok rfl).2 ⟨_, _, rightHolds, leftHolds, ?_, proper⟩
    simp only [Constant.equals, Bool.or_comm, eq_comm]

private theorem refines_equalsOrdered (before : Term → Term → Bool)
    (wellSorted : (Term.binary .equals left right).WellSorted vocabulary scope) :
    Refines vocabulary scope (.binary .equals left right) (left.equalsOrdered before right) := by
  rw [equalsOrdered]
  split
  · exact refines_equals_swap wellSorted
  · exact Refines.refl wellSorted

theorem equalsConstant_of_not_conditional (before : Term → Term → Bool) {term : Term}
    (flat : term.isConditional = false) (value : Constant) :
    equalsConstant before value term =
      (equalsKnown? term (.const value)).getD (equalsOrdered before term (.const value)) := by
  cases term with
  | conditional => simp [isConditional] at flat
  | _ =>
      simp only [equalsConstant]
      cases equalsKnown? _ (.const value) <;> rfl

/-- Comparing with a constant can be done in each branch. -/
private theorem refines_equalsConstant (before : Term → Term → Bool) (value : Constant)
    (term : Term)
    (wellSorted : (Term.binary .equals term (.const value)).WellSorted vocabulary scope) :
    Refines vocabulary scope (.binary .equals term (.const value))
      (equalsConstant before value term) := by
  induction term using branchInduction with
  | flat term isFlat =>
      rw [equalsConstant_of_not_conditional before isFlat]
      cases known : equalsKnown? term (.const value) with
      | some result => exact refines_equalsKnown wellSorted known
      | none => exact refines_equalsOrdered before wellSorted
  | conditional condition consequent alternate consequentHypothesis alternateHypothesis =>
      simp only [equalsConstant]
      split
      · next known => exact refines_equalsKnown wellSorted known
      · simp only [WellSorted, BinaryOp.Accepts] at wellSorted
        obtain ⟨⟨conditionSorted, consequentSorted, alternateSorted, conditionSort, sameSort⟩,
          valueSorted, valueSort⟩ := wellSorted
        have consequentRefines := consequentHypothesis (by
          simp only [WellSorted, BinaryOp.Accepts]
          exact ⟨consequentSorted, valueSorted, valueSort⟩)
        have alternateRefines := alternateHypothesis (by
          simp only [WellSorted, BinaryOp.Accepts]
          exact ⟨alternateSorted, valueSorted, sameSort.symm.trans valueSort⟩)
        obtain ⟨sorted, sort⟩ := ite_wellSorted ⟨conditionSorted, conditionSort⟩
          ⟨consequentRefines.wellSorted, consequentRefines.sort⟩
          ⟨alternateRefines.wellSorted, alternateRefines.sort⟩
        refine Refines.ofBinary sorted sort ?_
        intro model bindings result admissible respect evaluated
        obtain ⟨termValue, _, termHolds, valueHolds, compared⟩ :=
          (Model.eval_strict_eq_ok rfl).1 evaluated
        obtain ⟨truth, conditionHolds, chosen⟩ := Model.eval_conditional_eq_ok.1 termHolds
        rw [eval_ite conditionHolds]
        cases truth with
        | true =>
            exact consequentRefines.eval admissible respect
              ((Model.eval_strict_eq_ok rfl).2 ⟨_, _, chosen, valueHolds, compared⟩)
        | false =>
            exact alternateRefines.eval admissible respect
              ((Model.eval_strict_eq_ok rfl).2 ⟨_, _, chosen, valueHolds, compared⟩)

/-- The order of operands is no matter of meaning. -/
private theorem refines_equalsBy (before : Term → Term → Bool)
    (wellSorted : (Term.binary .equals left right).WellSorted vocabulary scope) :
    Refines vocabulary scope (.binary .equals left right) (left.equalsBy before right) := by
  fun_cases equalsBy before left right with
  | case1 =>
      rename_i known
      exact refines_equalsKnown wellSorted known
  | case2 condition consequent alternate value unknown =>
      exact refines_equalsConstant before value _ wellSorted
  | case3 value condition consequent alternate unknown =>
      have swapped := refines_equals_swap wellSorted
      exact swapped.trans (refines_equalsConstant before value _ swapped.wellSorted)
  | case4 => exact refines_equalsOrdered before wellSorted

theorem refines_equals
    (wellSorted : (Term.binary .equals left right).WellSorted vocabulary scope) :
    Refines vocabulary scope (.binary .equals left right) (left.equals right) :=
  refines_equalsBy precedes wellSorted

/-! ## Order -/

/-- What a comparison of a term with itself comes to. -/
private theorem refines_reflexive
    {operator : BinaryOp}
    {operation : Constant → Constant → Constant}
    (strict : operator.onConstants? = some operation)
    (predicate : ∀ sort, operator.resultSort sort = .bool)
    {truth : Bool}
    (reflexive : ∀ value, operation value value ≠ .bottom → operation value value = .bool truth)
    (term : Term) :
    Refines vocabulary scope (.binary operator term term) (ofBool truth) := by
  apply Refines.ofBinary
  · exact ofBool_wellSorted truth
  · exact (predicate term.sort).symm
  · intro model bindings result _ _ evaluated
    obtain ⟨value, again, holds, holdsAgain, rfl, proper⟩ :=
      (Model.eval_strict_eq_ok strict).1 evaluated
    rw [holds, Except.ok.injEq] at holdsAgain
    subst holdsAgain
    rw [reflexive value proper, eval_ofBool]

theorem refines_lessThan
    (wellSorted : (Term.binary .lessThan left right).WellSorted vocabulary scope) :
    Refines vocabulary scope (.binary .lessThan left right) (left.lessThan right) := by
  rw [lessThan]
  split
  · next folded => exact refines_of_folded? rfl folded
  · split
    · next same =>
        subst same
        apply refines_reflexive rfl (fun _ => rfl)
        intro value proper
        rw [Constant.lessThan] at proper ⊢
        split at proper <;> simp_all
    · exact Refines.refl wellSorted

theorem refines_lessOrEqual
    (wellSorted : (Term.binary .lessOrEqual left right).WellSorted vocabulary scope) :
    Refines vocabulary scope (.binary .lessOrEqual left right) (left.lessOrEqual right) := by
  rw [lessOrEqual]
  split
  · next folded => exact refines_of_folded? rfl folded
  · split
    · next same =>
        subst same
        apply refines_reflexive rfl (fun _ => rfl)
        intro value proper
        rw [Constant.lessOrEqual] at proper ⊢
        split at proper <;> simp_all
    · exact Refines.refl wellSorted

end Term

end SymbolicHeap
