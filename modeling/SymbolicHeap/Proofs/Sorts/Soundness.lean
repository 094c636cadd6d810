import SymbolicHeap.Proofs.Sorts.Evaluation

/-!
Contract: evaluation respects sorts.

Owns:
- the value of a well-sorted term has the sort of the term;
- the value of a term stays the same under further bindings outside;
- a term has a value when its operands have one, shape by shape, so every
  well-sorted value of a memory has one under a sorted model.
-/

namespace SymbolicHeap

/-! ## Sorts of results -/

namespace Constant

private theorem add_sort {left right : Constant} (proper : left.add right ≠ .bottom) :
    (left.add right).sort = left.sort := by
  cases left <;> cases right <;> simp_all [add, sort]

private theorem sub_sort {left right : Constant} (proper : left.sub right ≠ .bottom) :
    (left.sub right).sort = left.sort := by
  cases left <;> cases right <;> simp_all [sub, sort]

private theorem equals_sort (left right : Constant) : (left.equals right).sort = .bool := by
  unfold equals
  split <;> rfl

private theorem lessThan_sort (left right : Constant) : (left.lessThan right).sort = .bool := by
  unfold lessThan
  split <;> rfl

private theorem lessOrEqual_sort (left right : Constant) :
    (left.lessOrEqual right).sort = .bool := by
  unfold lessOrEqual
  split <;> rfl

/-- The result of a strict operator has the sort that the operator announces. -/
theorem onConstants_sort
    {operator : BinaryOp}
    {operation : Constant → Constant → Constant}
    (strict : operator.onConstants? = some operation)
    {left right : Constant}
    (proper : operation left right ≠ .bottom) :
    (operation left right).sort = operator.resultSort left.sort := by
  cases operator <;> simp only [BinaryOp.onConstants?, Option.some.injEq, reduceCtorEq] at strict <;>
    subst strict
  · exact add_sort proper
  · exact sub_sort proper
  · exact equals_sort left right
  · exact lessThan_sort left right
  · exact lessOrEqual_sort left right

end Constant

namespace Model

variable {vocabulary : Vocabulary} {model : Model}

/-- An element of an array is an entry, the fallback, or the default. -/
private theorem holds_or_default_of_lookupArray
    {name : String}
    {indices : List Constant}
    {range : ValueSort}
    {value : Constant}
    (found : model.lookupArray name indices range = .ok value) :
    (model.array name).Holds value ∨ Constant.default range = .ok value := by
  unfold lookupArray at found
  cases entry : (model.array name).entries.find? indices with
  | some stored =>
      simp only [entry, Option.some_or, Except.ok.injEq] at found
      subst found
      exact .inl (.inl ⟨indices, entry⟩)
  | none =>
      cases fallback : (model.array name).fallback with
      | some stored =>
          simp only [entry, fallback, Option.none_or, Except.ok.injEq] at found
          subst found
          exact .inl (.inr fallback)
      | none =>
          simp only [entry, fallback, Option.none_or] at found
          exact .inr found

theorem lookupArray_hasSort
    (sorted : model.Sorted vocabulary)
    {name : String}
    {sort : ValueSort}
    (declared : vocabulary.array name sort)
    {indices : List Constant}
    {value : Constant}
    (found : model.lookupArray name indices sort.range = .ok value) :
    value.HasSort sort.range := by
  rcases holds_or_default_of_lookupArray found with holds | initial
  · exact sorted.arrays declared holds
  · exact Constant.hasSort_of_default initial

/-- What input memory holds is no object that the run allocates. -/
theorem lookupArray_not_heap
    (admissible : model.Admissible vocabulary)
    {region : RegionId}
    (declared : vocabulary.Declares region)
    {indices : List Constant}
    {value : Constant}
    (found : model.lookupArray region.baseArrayName indices region.valueSort = .ok value) :
    value.isHeap = false := by
  rcases holds_or_default_of_lookupArray found with holds | initial
  · exact admissible.inputs declared holds
  · exact Constant.default_not_heap initial

theorem lookupArray_ok
    {name : String}
    {indices : List Constant}
    {range : ValueSort}
    (scalar : range.isArray = false) :
    ∃ value, model.lookupArray name indices range = .ok value := by
  simp only [lookupArray]
  split
  · exact ⟨_, rfl⟩
  · cases range <;> simp_all [Constant.default, ValueSort.isArray]

/-! ## Values have the sort of their term -/

mutual

theorem eval_hasSort (sorted : model.Sorted vocabulary) :
    (term : Term) → {scope : Scope} → {bindings : Bindings} → {value : Constant} →
      bindings.Respect scope → term.WellSorted vocabulary scope →
        model.eval bindings term = .ok value → value.HasSort term.sort
  | .const _, _, _, _, _, wellSorted, evaluated => by
      obtain ⟨rfl, proper⟩ := eval_const_eq_ok.1 evaluated
      exact ⟨proper, rfl⟩
  | .var name sort, _, _, _, _, wellSorted, evaluated => by
      obtain ⟨scalar, _, assigned | ⟨_, initial⟩⟩ := eval_var_eq_ok.1 evaluated
      · simp only [Term.WellSorted, scalar, Bool.false_eq_true, ↓reduceIte] at wellSorted
        exact sorted.scalars wellSorted assigned
      · exact Constant.hasSort_of_default initial
  | .bound name sort, _, _, _, respect, wellSorted, evaluated => by
      simp only [Term.WellSorted] at wellSorted
      exact respect name sort _ wellSorted (eval_bound_eq_ok.1 evaluated).1
  | .binary operator left right, _, _, _, respect, wellSorted, evaluated => by
      simp only [Term.WellSorted] at wellSorted
      obtain ⟨leftSorted, rightSorted, accepts⟩ := wellSorted
      cases strict : operator.onConstants? with
      | some operation =>
          obtain ⟨leftValue, rightValue, leftHolds, _, rfl, proper⟩ :=
            (eval_strict_eq_ok strict).1 evaluated
          have leftHasSort := eval_hasSort sorted left respect leftSorted leftHolds
          refine ⟨proper, ?_⟩
          rw [Constant.onConstants_sort strict proper, leftHasSort.2]
          rfl
      | none =>
          obtain ⟨truth, _, rest⟩ := (eval_connective_eq_ok strict).1 evaluated
          have resultSort : (Term.binary operator left right).sort = .bool := by
            cases operator <;> simp [BinaryOp.onConstants?] at strict <;> rfl
          have rightSort : right.sort = .bool := by
            cases operator <;> simp [BinaryOp.onConstants?] at strict <;> exact accepts.2
          rw [resultSort]
          split at rest
          · rw [rest]
            exact ⟨by simp, rfl⟩
          · rw [← rightSort]
            exact eval_hasSort sorted right respect rightSorted rest
  | .negation operand, _, _, _, _, _, evaluated => by
      obtain ⟨truth, _, rfl⟩ := eval_negation_eq_ok.1 evaluated
      exact ⟨by simp, rfl⟩
  | .conditional condition consequent alternate, _, _, _, respect, wellSorted, evaluated => by
      simp only [Term.WellSorted] at wellSorted
      obtain ⟨_, consequentSorted, alternateSorted, _, sameSort⟩ := wellSorted
      obtain ⟨truth, _, rest⟩ := eval_conditional_eq_ok.1 evaluated
      cases truth with
      | true => exact eval_hasSort sorted consequent respect consequentSorted rest
      | false =>
          have alternateHasSort :=
            eval_hasSort sorted alternate respect alternateSorted rest
          rw [← sameSort] at alternateHasSort
          exact alternateHasSort
  | .subtype operand _, _, _, _, _, _, evaluated => by
      obtain ⟨address, _, rfl⟩ := eval_subtype_eq_ok.1 evaluated
      exact ⟨by simp, rfl⟩
  | .inputRead region key, _, _, _, _, wellSorted, evaluated => by
      simp only [Term.WellSorted] at wellSorted
      obtain ⟨_, indices, _, found⟩ := eval_inputRead_eq_ok.1 evaluated
      exact lookupArray_hasSort sorted wellSorted.2.2 found
  | .selection array indices, _, _, _, respect, wellSorted, evaluated => by
      simp only [Term.WellSorted] at wellSorted
      obtain ⟨arraySorted, indicesSorted, arraySort⟩ := wellSorted
      obtain ⟨_, values, indicesHold, selected⟩ := eval_selection_eq_ok.1 evaluated
      have haveSorts := evalAll_haveSorts sorted indices respect indicesSorted indicesHold
      have domain : array.sort.domain = Term.sorts indices := by rw [arraySort, ValueSort.domain]
      rw [← domain] at haveSorts
      exact evalSelection_hasSort sorted array respect arraySorted haveSorts selected
  | .arrayConst _ _, _, _, _, _, _, evaluated | .constArray _ _, _, _, _, _, _, evaluated
  | .update _ _ _, _, _, _, _, _, evaluated | .lambda _ _, _, _, _, _, _, evaluated => by
      simp [eval] at evaluated

theorem evalAll_haveSorts (sorted : model.Sorted vocabulary) :
    (terms : List Term) → {scope : Scope} → {bindings : Bindings} → {values : List Constant} →
      bindings.Respect scope → Term.AllWellSorted vocabulary scope terms →
        model.evalAll bindings terms = .ok values → Constant.HaveSorts values (Term.sorts terms)
  | [], _, _, _, _, _, evaluated => by
      simp only [evalAll, Except.ok.injEq] at evaluated
      subst evaluated
      simp [Term.sorts, Constant.HaveSorts]
  | head :: tail, _, _, _, respect, wellSorted, evaluated => by
      simp only [Term.AllWellSorted] at wellSorted
      obtain ⟨value, values, headHolds, tailHolds, rfl⟩ := evalAll_cons_eq_ok.1 evaluated
      exact ⟨eval_hasSort sorted head respect wellSorted.1 headHolds,
        evalAll_haveSorts sorted tail respect wellSorted.2 tailHolds⟩

theorem evalSelection_hasSort (sorted : model.Sorted vocabulary) :
    (array : Term) → {scope : Scope} → {bindings : Bindings} → {indices : List Constant} →
      {value : Constant} → bindings.Respect scope → array.WellSorted vocabulary scope →
        Constant.HaveSorts indices array.sort.domain →
          model.evalSelection bindings array indices = .ok value →
            value.HasSort array.sort.range
  | .arrayConst name sort, _, _, _, _, _, wellSorted, _, selected => by
      simp only [Term.WellSorted] at wellSorted
      rw [evalSelection, orFault_eq_ok] at selected
      exact lookupArray_hasSort sorted wellSorted.2 selected
  | .var name sort, _, _, _, _, _, wellSorted, _, selected => by
      rw [evalSelection] at selected
      simp only [Term.WellSorted] at wellSorted
      split at selected
      · next isArray =>
          rw [orFault_eq_ok] at selected
          rw [if_pos isArray] at wellSorted
          exact lookupArray_hasSort sorted wellSorted selected
      · simp at selected
  | .constArray element sort, _, _, _, _, respect, wellSorted, _, selected => by
      simp only [Term.WellSorted] at wellSorted
      rw [evalSelection] at selected
      have range : sort.range = element.sort := by
        rw [wellSorted.2, ValueSort.range]
      rw [Term.sort, range]
      exact eval_hasSort sorted element respect wellSorted.1 selected
  | .update array stored element, _, _, _, _, respect, wellSorted, haveSorts, selected => by
      simp only [Term.WellSorted] at wellSorted
      obtain ⟨arraySorted, _, elementSorted, arraySort⟩ := wellSorted
      obtain ⟨places, _, rest⟩ := evalSelection_update_eq_ok.1 selected
      rw [Term.sort] at haveSorts ⊢
      split at rest
      · rw [arraySort, ValueSort.range]
        exact eval_hasSort sorted element respect elementSorted rest
      · exact evalSelection_hasSort sorted array respect arraySorted haveSorts rest
  | .lambda parameters body, _, _, _, _, respect, wellSorted, haveSorts, selected => by
      simp only [Term.WellSorted] at wellSorted
      rw [evalSelection] at selected
      rw [Term.sort, ValueSort.domain] at haveSorts
      exact eval_hasSort sorted body (respect.bindParameters haveSorts) wellSorted.2 selected
  | .conditional condition consequent alternate, _, _, _, _, respect, wellSorted, haveSorts,
      selected => by
      simp only [Term.WellSorted] at wellSorted
      obtain ⟨_, consequentSorted, alternateSorted, _, sameSort⟩ := wellSorted
      obtain ⟨truth, _, rest⟩ := evalSelection_conditional_eq_ok.1 selected
      rw [Term.sort] at haveSorts ⊢
      cases truth with
      | true => exact evalSelection_hasSort sorted consequent respect consequentSorted haveSorts rest
      | false =>
          rw [sameSort] at haveSorts ⊢
          exact evalSelection_hasSort sorted alternate respect alternateSorted haveSorts rest
  | .const _, _, _, _, _, _, _, _, selected | .bound _ _, _, _, _, _, _, _, _, selected
  | .binary _ _ _, _, _, _, _, _, _, _, selected | .negation _, _, _, _, _, _, _, _, selected
  | .subtype _ _, _, _, _, _, _, _, _, selected | .inputRead _ _, _, _, _, _, _, _, _, selected
  | .selection _ _, _, _, _, _, _, _, _, selected => by
      simp [evalSelection] at selected

end

/-- Only arrays have elements. -/
theorem isArray_of_evalSelection {indices : List Constant} :
    (array : Term) → {scope : Scope} → {bindings : Bindings} → {value : Constant} →
      array.WellSorted vocabulary scope →
        model.evalSelection bindings array indices = .ok value → array.sort.isArray = true
  | .arrayConst _ _, _, _, _, wellSorted, _ => by
      simp only [Term.WellSorted] at wellSorted
      exact wellSorted.1
  | .var _ sort, _, _, _, _, selected => by
      rw [evalSelection] at selected
      split at selected
      · next isArray => exact isArray
      · simp at selected
  | .constArray _ sort, _, _, _, wellSorted, _ => by
      simp only [Term.WellSorted] at wellSorted
      rw [Term.sort, wellSorted.2, ValueSort.isArray]
  | .update _ _ _, _, _, _, wellSorted, _ => by
      simp only [Term.WellSorted] at wellSorted
      rw [Term.sort, wellSorted.2.2.2, ValueSort.isArray]
  | .lambda _ _, _, _, _, _, _ => by
      rw [Term.sort, ValueSort.isArray]
  | .conditional _ consequent alternate, _, _, _, wellSorted, selected => by
      simp only [Term.WellSorted] at wellSorted
      obtain ⟨_, consequentSorted, alternateSorted, _, sameSort⟩ := wellSorted
      obtain ⟨truth, _, rest⟩ := evalSelection_conditional_eq_ok.1 selected
      rw [Term.sort]
      cases truth with
      | true => exact isArray_of_evalSelection consequent consequentSorted rest
      | false =>
          rw [sameSort]
          exact isArray_of_evalSelection alternate alternateSorted rest
  | .const _, _, _, _, _, selected | .bound _ _, _, _, _, _, selected
  | .binary _ _ _, _, _, _, _, selected | .negation _, _, _, _, _, selected
  | .subtype _ _, _, _, _, _, selected | .inputRead _ _, _, _, _, _, selected
  | .selection _ _, _, _, _, _, selected => by
      simp [evalSelection] at selected

/-! ## Bindings further outside -/

private theorem bindParameters_append
    (parameters : List Term)
    (values : List Constant)
    (bindings outer : Bindings) :
    bindParameters parameters values (bindings ++ outer) =
      bindParameters parameters values bindings ++ outer := by
  induction parameters generalizing values bindings with
  | nil => cases values <;> rfl
  | cons parameter parameters inductionHypothesis =>
      cases values with
      | nil => cases parameter <;> rfl
      | cons value values =>
          cases parameter with
          | bound name sort =>
              simp only [bindParameters]
              exact inductionHypothesis values ((name, value) :: bindings)
          | _ =>
              simp only [bindParameters]
              exact inductionHypothesis values bindings

mutual

/-- A term that has a value keeps it under further bindings outside. -/
theorem eval_append :
    (term : Term) → {bindings : Bindings} → {value : Constant} →
      model.eval bindings term = .ok value → (outer : Bindings) →
        model.eval (bindings ++ outer) term = .ok value
  | .const _, _, _, evaluated, _ => by
      simpa only [eval] using evaluated
  | .var _ _, _, _, evaluated, _ => by
      simpa only [eval] using evaluated
  | .bound _ _, _, _, evaluated, _ => by
      rw [eval_bound_eq_ok] at evaluated ⊢
      rw [List.lookup_append, evaluated.1, Option.some_or]
      exact ⟨rfl, evaluated.2⟩
  | .binary operator left right, _, _, evaluated, outer => by
      cases strict : operator.onConstants? with
      | some operation =>
          rw [eval_strict_eq_ok strict] at evaluated ⊢
          obtain ⟨leftValue, rightValue, leftHolds, rightHolds, result⟩ := evaluated
          exact ⟨leftValue, rightValue, eval_append left leftHolds outer,
            eval_append right rightHolds outer, result⟩
      | none =>
          rw [eval_connective_eq_ok strict] at evaluated ⊢
          obtain ⟨truth, leftHolds, rest⟩ := evaluated
          refine ⟨truth, eval_append left leftHolds outer, ?_⟩
          split at rest
          · next absorbed => rw [if_pos absorbed, rest]
          · next undecided =>
              rw [if_neg undecided]
              exact eval_append right rest outer
  | .negation operand, _, _, evaluated, outer => by
      rw [eval_negation_eq_ok] at evaluated ⊢
      obtain ⟨truth, operandHolds, result⟩ := evaluated
      exact ⟨truth, eval_append operand operandHolds outer, result⟩
  | .conditional condition consequent alternate, _, _, evaluated, outer => by
      rw [eval_conditional_eq_ok] at evaluated ⊢
      obtain ⟨truth, conditionHolds, rest⟩ := evaluated
      refine ⟨truth, eval_append condition conditionHolds outer, ?_⟩
      cases truth with
      | true => exact eval_append consequent rest outer
      | false => exact eval_append alternate rest outer
  | .subtype operand _, _, _, evaluated, outer => by
      rw [eval_subtype_eq_ok] at evaluated ⊢
      obtain ⟨address, operandHolds, result⟩ := evaluated
      exact ⟨address, eval_append operand operandHolds outer, result⟩
  | .inputRead _ key, _, _, evaluated, outer => by
      rw [eval_inputRead_eq_ok] at evaluated ⊢
      obtain ⟨proper, indices, keyHolds, found⟩ := evaluated
      exact ⟨proper, indices, evalAll_append key keyHolds outer, found⟩
  | .selection array indices, _, _, evaluated, outer => by
      rw [eval_selection_eq_ok] at evaluated ⊢
      obtain ⟨proper, values, indicesHold, selected⟩ := evaluated
      exact ⟨proper, values, evalAll_append indices indicesHold outer,
        evalSelection_append array selected outer⟩
  | .arrayConst _ _, _, _, evaluated, _ | .constArray _ _, _, _, evaluated, _
  | .update _ _ _, _, _, evaluated, _ | .lambda _ _, _, _, evaluated, _ => by
      simp [eval] at evaluated

private theorem evalAll_append :
    (terms : List Term) → {bindings : Bindings} → {values : List Constant} →
      model.evalAll bindings terms = .ok values → (outer : Bindings) →
        model.evalAll (bindings ++ outer) terms = .ok values
  | [], _, _, evaluated, _ => by
      simpa only [evalAll] using evaluated
  | head :: tail, _, _, evaluated, outer => by
      rw [evalAll_cons_eq_ok] at evaluated ⊢
      obtain ⟨value, values, headHolds, tailHolds, result⟩ := evaluated
      exact ⟨value, values, eval_append head headHolds outer,
        evalAll_append tail tailHolds outer, result⟩

theorem evalSelection_append :
    (array : Term) → {bindings : Bindings} → {indices : List Constant} → {value : Constant} →
      model.evalSelection bindings array indices = .ok value → (outer : Bindings) →
        model.evalSelection (bindings ++ outer) array indices = .ok value
  | .arrayConst _ _, _, _, _, selected, _ => by
      simpa only [evalSelection] using selected
  | .var _ _, _, _, _, selected, _ => by
      simpa only [evalSelection] using selected
  | .constArray element _, _, _, _, selected, outer => by
      rw [evalSelection] at selected ⊢
      exact eval_append element selected outer
  | .update array stored element, _, _, _, selected, outer => by
      rw [evalSelection_update_eq_ok] at selected ⊢
      obtain ⟨places, storedHold, rest⟩ := selected
      refine ⟨places, evalAll_append stored storedHold outer, ?_⟩
      split at rest
      · next same =>
          rw [if_pos same]
          exact eval_append element rest outer
      · next different =>
          rw [if_neg different]
          exact evalSelection_append array rest outer
  | .lambda parameters body, bindings, indices, _, selected, outer => by
      rw [evalSelection] at selected ⊢
      rw [bindParameters_append]
      exact eval_append body selected outer
  | .conditional condition consequent alternate, _, _, _, selected, outer => by
      rw [evalSelection_conditional_eq_ok] at selected ⊢
      obtain ⟨truth, conditionHolds, rest⟩ := selected
      refine ⟨truth, eval_append condition conditionHolds outer, ?_⟩
      cases truth with
      | true => exact evalSelection_append consequent rest outer
      | false => exact evalSelection_append alternate rest outer
  | .const _, _, _, _, selected, _ | .bound _ _, _, _, _, selected, _
  | .binary _ _ _, _, _, _, selected, _ | .negation _, _, _, _, selected, _
  | .subtype _ _, _, _, _, selected, _ | .inputRead _ _, _, _, _, selected, _
  | .selection _ _, _, _, _, selected, _ => by
      simp [evalSelection] at selected

end

/-! ## Terms that have a value -/

private theorem onConstants_proper
    {operator : BinaryOp}
    {operation : Constant → Constant → Constant}
    (strict : operator.onConstants? = some operation)
    {left right : Constant}
    (leftProper : left ≠ .bottom)
    (rightProper : right ≠ .bottom)
    (accepts : operator.Accepts left.sort right.sort) :
    operation left right ≠ .bottom := by
  cases operator <;> simp only [BinaryOp.onConstants?, Option.some.injEq, reduceCtorEq] at strict <;>
    subst strict <;> cases left <;> cases right <;>
    simp_all [BinaryOp.Accepts, Constant.sort, ValueSort.isInteger, Constant.add, Constant.sub,
      Constant.equals, Constant.lessThan, Constant.lessOrEqual, Constant.isBottom,
      Constant.asInt?]

theorem eval_var_ok (sorted : model.Sorted vocabulary) {bindings : Bindings} {name : String}
    {sort : ValueSort}
    (scalar : sort.isArray = false)
    (declared : vocabulary.scalar name sort) :
    ∃ value, model.eval bindings (.var name sort) = .ok value := by
  cases assigned : model.assignment.find? name with
  | some value =>
      have hasSort := sorted.scalars declared assigned
      exact ⟨value, eval_var_eq_ok.2 ⟨scalar, hasSort.1, .inl assigned⟩⟩
  | none =>
      obtain ⟨value, initial⟩ : ∃ value, Constant.default sort = .ok value := by
        cases sort <;> simp_all [Constant.default, ValueSort.isArray]
      exact ⟨value, eval_var_eq_ok.2
        ⟨scalar, (Constant.hasSort_of_default initial).1, .inr ⟨assigned, initial⟩⟩⟩

section Operands

variable {scope : Scope} {bindings : Bindings} (sorted : model.Sorted vocabulary)
  (respect : bindings.Respect scope)

include sorted respect

/-- A Boolean with a value is true or false. -/
theorem eval_bool_ok {term : Term}
    (wellSorted : term.WellSorted vocabulary scope)
    (isBool : term.sort = .bool)
    (hasValue : ∃ value, model.eval bindings term = .ok value) :
    ∃ truth, model.eval bindings term = .ok (.bool truth) := by
  obtain ⟨value, evaluated⟩ := hasValue
  have hasSort := eval_hasSort sorted term respect wellSorted evaluated
  rw [isBool] at hasSort
  obtain ⟨truth, rfl⟩ := hasSort.bool_cases
  exact ⟨truth, evaluated⟩

theorem eval_binary_ok {operator : BinaryOp} {left right : Term}
    (leftSorted : left.WellSorted vocabulary scope)
    (rightSorted : right.WellSorted vocabulary scope)
    (accepts : operator.Accepts left.sort right.sort)
    (leftHasValue : ∃ value, model.eval bindings left = .ok value)
    (rightHasValue : ∃ value, model.eval bindings right = .ok value) :
    ∃ value, model.eval bindings (.binary operator left right) = .ok value := by
  cases strict : operator.onConstants? with
  | some operation =>
      obtain ⟨leftValue, leftHolds⟩ := leftHasValue
      obtain ⟨rightValue, rightHolds⟩ := rightHasValue
      have leftHasSort := eval_hasSort sorted left respect leftSorted leftHolds
      have rightHasSort := eval_hasSort sorted right respect rightSorted rightHolds
      rw [← leftHasSort.2, ← rightHasSort.2] at accepts
      have proper := onConstants_proper strict leftHasSort.1 rightHasSort.1 accepts
      exact ⟨operation leftValue rightValue, (eval_strict_eq_ok strict).2
        ⟨leftValue, rightValue, leftHolds, rightHolds, rfl, proper⟩⟩
  | none =>
      obtain ⟨rightValue, rightHolds⟩ := rightHasValue
      have leftSort : left.sort = .bool := by
        cases operator <;> simp [BinaryOp.onConstants?] at strict <;> exact accepts.1
      obtain ⟨truth, leftHolds⟩ := eval_bool_ok sorted respect leftSorted leftSort leftHasValue
      by_cases absorbed : truth = operator.absorbing
      · exact ⟨.bool truth, (eval_connective_eq_ok strict).2
          ⟨truth, leftHolds, by rw [if_pos absorbed]⟩⟩
      · exact ⟨rightValue, (eval_connective_eq_ok strict).2
          ⟨truth, leftHolds, by rw [if_neg absorbed]; exact rightHolds⟩⟩

theorem eval_negation_ok {operand : Term}
    (operandSorted : operand.WellSorted vocabulary scope)
    (isBool : operand.sort = .bool)
    (hasValue : ∃ value, model.eval bindings operand = .ok value) :
    ∃ value, model.eval bindings (.negation operand) = .ok value := by
  obtain ⟨truth, operandHolds⟩ := eval_bool_ok sorted respect operandSorted isBool hasValue
  exact ⟨.bool !truth, eval_negation_eq_ok.2 ⟨truth, operandHolds, rfl⟩⟩

theorem eval_conditional_ok {condition consequent alternate : Term}
    (conditionSorted : condition.WellSorted vocabulary scope)
    (isBool : condition.sort = .bool)
    (hasValue : ∃ value, model.eval bindings condition = .ok value)
    (consequentHasValue : ∃ value, model.eval bindings consequent = .ok value)
    (alternateHasValue : ∃ value, model.eval bindings alternate = .ok value) :
    ∃ value, model.eval bindings (.conditional condition consequent alternate) = .ok value := by
  obtain ⟨truth, conditionHolds⟩ := eval_bool_ok sorted respect conditionSorted isBool hasValue
  simp only [eval_conditional_eq_ok]
  cases truth with
  | true =>
      obtain ⟨value, holds⟩ := consequentHasValue
      exact ⟨value, true, conditionHolds, holds⟩
  | false =>
      obtain ⟨value, holds⟩ := alternateHasValue
      exact ⟨value, false, conditionHolds, holds⟩

end Operands

theorem eval_subtype_ok {bindings : Bindings} {operand : Term} {typeName : String}
    (hasValue : ∃ value, model.eval bindings operand = .ok value) :
    ∃ value, model.eval bindings (.subtype operand typeName) = .ok value := by
  obtain ⟨address, operandHolds⟩ := hasValue
  exact ⟨_, eval_subtype_eq_ok.2 ⟨address, operandHolds, rfl⟩⟩

theorem eval_inputRead_ok (sorted : model.Sorted vocabulary) {bindings : Bindings}
    {region : RegionId} {key : List Term}
    (declared : vocabulary.Declares region)
    (scalar : region.valueSort.isArray = false)
    (keyHasValues : ∃ values, model.evalAll bindings key = .ok values) :
    ∃ value, model.eval bindings (.inputRead region key) = .ok value := by
  obtain ⟨indices, keyHolds⟩ := keyHasValues
  obtain ⟨value, found⟩ :
      ∃ value, model.lookupArray region.baseArrayName indices region.valueSort = .ok value :=
    lookupArray_ok scalar
  have hasSort := lookupArray_hasSort sorted declared found
  exact ⟨value, eval_inputRead_eq_ok.2 ⟨hasSort.1, indices, keyHolds, found⟩⟩

theorem evalAll_cons_ok {bindings : Bindings} {head : Term} {tail : List Term}
    (headHasValue : ∃ value, model.eval bindings head = .ok value)
    (tailHasValues : ∃ values, model.evalAll bindings tail = .ok values) :
    ∃ values, model.evalAll bindings (head :: tail) = .ok values := by
  obtain ⟨value, headHolds⟩ := headHasValue
  obtain ⟨values, tailHolds⟩ := tailHasValues
  exact ⟨value :: values, evalAll_cons_eq_ok.2 ⟨value, values, headHolds, tailHolds, rfl⟩⟩

mutual

/-- A value of a memory has a value under every sorted model. -/
theorem eval_ok_of_isMemoryLevel (sorted : model.Sorted vocabulary) :
    (term : Term) → {scope : Scope} → {bindings : Bindings} →
      bindings.Respect scope → term.WellSorted vocabulary scope → term.isMemoryLevel = true →
        ∃ value, model.eval bindings term = .ok value
  | .const value, _, _, _, wellSorted, _ =>
      ⟨value, eval_const_eq_ok.2 ⟨rfl, by simpa only [Term.WellSorted] using wellSorted⟩⟩
  | .var name sort, _, _, _, wellSorted, memoryLevel => by
      have scalar : sort.isArray = false := by simpa [Term.isMemoryLevel] using memoryLevel
      simp only [Term.WellSorted, scalar, Bool.false_eq_true, ↓reduceIte] at wellSorted
      exact eval_var_ok sorted scalar wellSorted
  | .binary operator left right, _, _, respect, wellSorted, memoryLevel => by
      simp only [Term.WellSorted] at wellSorted
      obtain ⟨leftSorted, rightSorted, accepts⟩ := wellSorted
      simp only [Term.isMemoryLevel, Bool.and_eq_true] at memoryLevel
      exact eval_binary_ok sorted respect leftSorted rightSorted accepts
        (eval_ok_of_isMemoryLevel sorted left respect leftSorted memoryLevel.1)
        (eval_ok_of_isMemoryLevel sorted right respect rightSorted memoryLevel.2)
  | .negation operand, _, _, respect, wellSorted, memoryLevel => by
      simp only [Term.WellSorted] at wellSorted
      simp only [Term.isMemoryLevel] at memoryLevel
      exact eval_negation_ok sorted respect wellSorted.1 wellSorted.2
        (eval_ok_of_isMemoryLevel sorted operand respect wellSorted.1 memoryLevel)
  | .conditional condition consequent alternate, _, _, respect, wellSorted, memoryLevel => by
      simp only [Term.WellSorted] at wellSorted
      obtain ⟨conditionSorted, consequentSorted, alternateSorted, isBool, _⟩ := wellSorted
      simp only [Term.isMemoryLevel, Bool.and_eq_true] at memoryLevel
      exact eval_conditional_ok sorted respect conditionSorted isBool
        (eval_ok_of_isMemoryLevel sorted condition respect conditionSorted memoryLevel.1.1)
        (eval_ok_of_isMemoryLevel sorted consequent respect consequentSorted memoryLevel.1.2)
        (eval_ok_of_isMemoryLevel sorted alternate respect alternateSorted memoryLevel.2)
  | .subtype operand typeName, _, _, respect, wellSorted, memoryLevel => by
      simp only [Term.WellSorted] at wellSorted
      simp only [Term.isMemoryLevel] at memoryLevel
      exact eval_subtype_ok
        (eval_ok_of_isMemoryLevel sorted operand respect wellSorted.1 memoryLevel)
  | .inputRead region key, _, _, respect, wellSorted, memoryLevel => by
      simp only [Term.WellSorted] at wellSorted
      simp only [Term.isMemoryLevel, Bool.and_eq_true] at memoryLevel
      exact eval_inputRead_ok sorted wellSorted.2.2 (RegionId.scalar_of_isScalar memoryLevel.1)
        (evalAll_ok_of_areMemoryLevel sorted key respect wellSorted.1 memoryLevel.2)
  | .bound _ _, _, _, _, _, memoryLevel | .arrayConst _ _, _, _, _, _, memoryLevel
  | .constArray _ _, _, _, _, _, memoryLevel | .selection _ _, _, _, _, _, memoryLevel
  | .update _ _ _, _, _, _, _, memoryLevel | .lambda _ _, _, _, _, _, memoryLevel => by
      simp [Term.isMemoryLevel] at memoryLevel

private theorem evalAll_ok_of_areMemoryLevel (sorted : model.Sorted vocabulary) :
    (terms : List Term) → {scope : Scope} → {bindings : Bindings} →
      bindings.Respect scope → Term.AllWellSorted vocabulary scope terms →
        Term.areMemoryLevel terms = true →
          ∃ values, model.evalAll bindings terms = .ok values
  | [], _, _, _, _, _ => ⟨[], by rw [evalAll]⟩
  | head :: tail, _, _, respect, wellSorted, memoryLevel => by
      simp only [Term.AllWellSorted] at wellSorted
      simp only [Term.areMemoryLevel, Bool.and_eq_true] at memoryLevel
      exact evalAll_cons_ok
        (eval_ok_of_isMemoryLevel sorted head respect wellSorted.1 memoryLevel.1)
        (evalAll_ok_of_areMemoryLevel sorted tail respect wellSorted.2 memoryLevel.2)

end

end Model

end SymbolicHeap
