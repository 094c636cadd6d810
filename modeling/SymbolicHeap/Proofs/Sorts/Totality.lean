import SymbolicHeap.Proofs.Sorts.Soundness

/-!
Contract: terms that have a value under every sorted model.

Evaluation is partial in two places only. Arrays have no value of their own, so
they cannot be compared; and an element that is an array again has none either.
A term without these has a value as soon as the names that it uses are bound.

Owns:
- flat terms, which compare scalars and whose arrays hold scalars;
- a well-sorted flat term of a scalar sort has a value;
- a well-sorted condition that is not flat.
-/

namespace SymbolicHeap

/-- A scalar, or an array that holds scalars at scalar indices. -/
def ValueSort.isFlat : ValueSort → Bool
  | .array indices elements => !elements.isArray && indices.all fun sort => !sort.isArray
  | _ => true

namespace Term

mutual

/-- Operators take scalars, and every array holds scalars at scalar indices. -/
def isFlat : Term → Bool
  | .const _ => true
  | .var _ sort | .arrayConst _ sort => sort.isFlat
  | .bound _ sort => !sort.isArray
  | .binary _ left right => left.isFlat && right.isFlat && !left.sort.isArray
  | .negation operand | .subtype operand _ => operand.isFlat
  | .conditional condition consequent alternate =>
      condition.isFlat && consequent.isFlat && alternate.isFlat
  | .inputRead region key => region.isScalar && areFlat key
  | .constArray value sort => value.isFlat && sort.isFlat
  | .selection array indices => array.isFlat && areFlat indices && array.sort.isFlat
  | .update array indices value =>
      array.isFlat && areFlat indices && value.isFlat && array.sort.isFlat
  | .lambda parameters body =>
      body.isFlat && (ValueSort.array (sorts parameters) body.sort).isFlat

def areFlat : List Term → Bool
  | [] => true
  | head :: tail => head.isFlat && areFlat tail

end

end Term

/-- Every name of the scope is bound to a value of its sort. -/
def Bindings.Cover (scope : Scope) (bindings : Bindings) : Prop :=
  ∀ name sort, scope.lookup name = some sort →
    ∃ value, bindings.lookup name = some value ∧ value.HasSort sort

namespace Bindings

theorem cover_empty : Cover [] [] := by
  intro name sort declared
  simp at declared

theorem Cover.respect {scope : Scope} {bindings : Bindings} (cover : Cover scope bindings) :
    Respect scope bindings := by
  intro name sort value declared bound
  obtain ⟨other, isOther, hasSort⟩ := cover name sort declared
  rw [isOther, Option.some.injEq] at bound
  rw [← bound]
  exact hasSort

theorem Cover.cons {scope : Scope} {bindings : Bindings} (cover : Cover scope bindings)
    (name : String) {sort : ValueSort} {value : Constant} (hasSort : value.HasSort sort) :
    Cover ((name, sort) :: scope) ((name, value) :: bindings) := by
  intro probe probeSort declared
  rw [List.lookup_cons] at declared ⊢
  by_cases same : probe = name
  · simp only [same, beq_self_eq_true, Option.some.injEq] at declared ⊢
    exact ⟨value, rfl, declared ▸ hasSort⟩
  · simp only [beq_false_of_ne same] at declared ⊢
    exact cover probe probeSort declared

theorem Cover.bindParameters {parameters : List Term} {scope : Scope} {bindings : Bindings}
    {values : List Constant}
    (cover : Cover scope bindings)
    (haveSorts : Constant.HaveSorts values (Term.sorts parameters)) :
    Cover (bindScope parameters scope) (bindParameters parameters values bindings) :=
  bindParameters_induction (fun name cover hasSort => cover.cons name hasSort) cover haveSorts

end Bindings

/-! ## Scalar operands -/

private theorem BinaryOp.Accepts.scalar_right {operator : BinaryOp} {left right : ValueSort}
    (accepts : operator.Accepts left right) (leftScalar : left.isArray = false) :
    right.isArray = false := by
  cases operator with
  | equals => exact accepts ▸ leftScalar
  | and | or => rw [accepts.2]; rfl
  | add | sub | lessThan | lessOrEqual => exact accepts.2 ▸ leftScalar

private theorem BinaryOp.scalar_resultSort {sort : ValueSort} (scalar : sort.isArray = false)
    (operator : BinaryOp) : (operator.resultSort sort).isArray = false := by
  cases operator with
  | add | sub => exact scalar
  | equals | lessThan | lessOrEqual | and | or => rfl

private theorem RegionId.scalar_indices {region : RegionId} (isScalar : region.isScalar = true) :
    (region.inputArraySort.domain.all fun sort => !sort.isArray) = true := by
  simp only [RegionId.isScalar, Bool.and_eq_true] at isScalar
  obtain ⟨_, secondaryScalar⟩ := isScalar
  cases secondary : region.secondarySort with
  | none => simp [RegionId.inputArraySort, secondary, ValueSort.domain, ValueSort.isArray]
  | some sort =>
      rw [secondary] at secondaryScalar
      simpa [RegionId.inputArraySort, secondary, ValueSort.domain, ValueSort.isArray]
        using secondaryScalar

private theorem ValueSort.scalar_range {sort : ValueSort} (flat : sort.isFlat = true) :
    sort.range.isArray = false := by
  cases sort with
  | array indices elements =>
      simp only [isFlat, Bool.and_eq_true, Bool.not_eq_true'] at flat
      exact flat.1
  | _ => rfl

private theorem ValueSort.scalar_domain {sort : ValueSort} (flat : sort.isFlat = true) :
    (sort.domain.all fun index => !index.isArray) = true := by
  cases sort with
  | array indices elements =>
      simp only [isFlat, Bool.and_eq_true] at flat
      exact flat.2
  | _ => rfl

/-! ## Flat terms have a value -/

namespace Model

variable {vocabulary : Vocabulary} {model : Model}

mutual

theorem eval_ok (sorted : model.Sorted vocabulary) :
    (term : Term) → {scope : Scope} → {bindings : Bindings} →
      bindings.Cover scope → term.WellSorted vocabulary scope → term.isFlat = true →
        term.sort.isArray = false → ∃ value, model.eval bindings term = .ok value
  | .const value, _, _, _, wellSorted, _, _ =>
      ⟨value, eval_const_eq_ok.2 ⟨rfl, by simpa only [Term.WellSorted] using wellSorted⟩⟩
  | .var name sort, _, _, _, wellSorted, _, scalar => by
      rw [Term.sort] at scalar
      simp only [Term.WellSorted, scalar, Bool.false_eq_true, ↓reduceIte] at wellSorted
      exact eval_var_ok sorted scalar wellSorted
  | .bound name sort, _, _, cover, wellSorted, _, _ => by
      simp only [Term.WellSorted] at wellSorted
      obtain ⟨value, bound, hasSort⟩ := cover name sort wellSorted
      exact ⟨value, eval_bound_eq_ok.2 ⟨bound, hasSort.1⟩⟩
  | .binary operator left right, _, _, cover, wellSorted, flat, _ => by
      simp only [Term.WellSorted] at wellSorted
      obtain ⟨leftSorted, rightSorted, accepts⟩ := wellSorted
      simp only [Term.isFlat, Bool.and_eq_true, Bool.not_eq_true'] at flat
      obtain ⟨⟨leftFlat, rightFlat⟩, leftScalar⟩ := flat
      exact eval_binary_ok sorted cover.respect leftSorted rightSorted accepts
        (eval_ok sorted left cover leftSorted leftFlat leftScalar)
        (eval_ok sorted right cover rightSorted rightFlat (accepts.scalar_right leftScalar))
  | .negation operand, _, _, cover, wellSorted, flat, _ => by
      simp only [Term.WellSorted] at wellSorted
      simp only [Term.isFlat] at flat
      exact eval_negation_ok sorted cover.respect wellSorted.1 wellSorted.2
        (eval_ok sorted operand cover wellSorted.1 flat (by rw [wellSorted.2]; rfl))
  | .conditional condition consequent alternate, _, _, cover, wellSorted, flat, scalar => by
      simp only [Term.WellSorted] at wellSorted
      obtain ⟨conditionSorted, consequentSorted, alternateSorted, isBool, sameSort⟩ := wellSorted
      simp only [Term.isFlat, Bool.and_eq_true] at flat
      rw [Term.sort] at scalar
      exact eval_conditional_ok sorted cover.respect conditionSorted isBool
        (eval_ok sorted condition cover conditionSorted flat.1.1 (by rw [isBool]; rfl))
        (eval_ok sorted consequent cover consequentSorted flat.1.2 scalar)
        (eval_ok sorted alternate cover alternateSorted flat.2 (sameSort ▸ scalar))
  | .subtype operand typeName, _, _, cover, wellSorted, flat, _ => by
      simp only [Term.WellSorted] at wellSorted
      simp only [Term.isFlat] at flat
      exact eval_subtype_ok
        (eval_ok sorted operand cover wellSorted.1 flat (by rw [wellSorted.2]; rfl))
  | .inputRead region key, _, _, cover, wellSorted, flat, _ => by
      simp only [Term.WellSorted] at wellSorted
      obtain ⟨keySorted, keySorts, declared⟩ := wellSorted
      simp only [Term.isFlat, Bool.and_eq_true] at flat
      exact eval_inputRead_ok sorted declared (RegionId.scalar_of_isScalar flat.1)
        (evalAll_ok sorted key cover keySorted flat.2
          (keySorts ▸ RegionId.scalar_indices flat.1))
  | .selection array indices, _, _, cover, wellSorted, flat, _ => by
      simp only [Term.WellSorted] at wellSorted
      obtain ⟨arraySorted, indicesSorted, arraySort⟩ := wellSorted
      simp only [Term.isFlat, Bool.and_eq_true] at flat
      obtain ⟨⟨arrayFlat, indicesFlat⟩, sortFlat⟩ := flat
      have isDomain : array.sort.domain = Term.sorts indices := by rw [arraySort, ValueSort.domain]
      obtain ⟨values, indicesHold⟩ := evalAll_ok sorted indices cover indicesSorted indicesFlat
        (isDomain ▸ ValueSort.scalar_domain sortFlat)
      have haveSorts := evalAll_haveSorts sorted indices cover.respect indicesSorted indicesHold
      rw [← isDomain] at haveSorts
      obtain ⟨value, selected⟩ := evalSelection_ok sorted array cover arraySorted arrayFlat
        sortFlat (by rw [arraySort]; rfl) haveSorts
      have hasSort :=
        evalSelection_hasSort sorted array cover.respect arraySorted haveSorts selected
      exact ⟨value, eval_selection_eq_ok.2 ⟨hasSort.1, values, indicesHold, selected⟩⟩
  | .arrayConst _ _, _, _, _, wellSorted, _, scalar => by
      simp only [Term.WellSorted] at wellSorted
      rw [Term.sort, wellSorted.1] at scalar
      cases scalar
  | .constArray _ _, _, _, _, wellSorted, _, scalar => by
      simp only [Term.WellSorted] at wellSorted
      rw [Term.sort, wellSorted.2] at scalar
      cases scalar
  | .update _ _ _, _, _, _, wellSorted, _, scalar => by
      simp only [Term.WellSorted] at wellSorted
      rw [Term.sort, wellSorted.2.2.2] at scalar
      cases scalar
  | .lambda _ _, _, _, _, _, _, scalar => by
      rw [Term.sort] at scalar
      cases scalar

private theorem evalAll_ok (sorted : model.Sorted vocabulary) :
    (terms : List Term) → {scope : Scope} → {bindings : Bindings} →
      bindings.Cover scope → Term.AllWellSorted vocabulary scope terms →
        Term.areFlat terms = true →
          ((Term.sorts terms).all fun sort => !sort.isArray) = true →
            ∃ values, model.evalAll bindings terms = .ok values
  | [], _, _, _, _, _, _ => ⟨[], by rw [evalAll]⟩
  | head :: tail, _, _, cover, wellSorted, flat, scalar => by
      simp only [Term.AllWellSorted] at wellSorted
      simp only [Term.areFlat, Bool.and_eq_true] at flat
      simp only [Term.sorts, List.all_cons, Bool.and_eq_true, Bool.not_eq_true'] at scalar
      exact evalAll_cons_ok (eval_ok sorted head cover wellSorted.1 flat.1 scalar.1)
        (evalAll_ok sorted tail cover wellSorted.2 flat.2 scalar.2)

private theorem evalSelection_ok (sorted : model.Sorted vocabulary) :
    (array : Term) → {scope : Scope} → {bindings : Bindings} → {indices : List Constant} →
      bindings.Cover scope → array.WellSorted vocabulary scope → array.isFlat = true →
        array.sort.isFlat = true → array.sort.isArray = true →
          Constant.HaveSorts indices array.sort.domain →
            ∃ value, model.evalSelection bindings array indices = .ok value
  | .arrayConst name sort, _, _, _, _, _, _, sortFlat, _, _ => by
      simp only [evalSelection, orFault_eq_ok]
      exact lookupArray_ok (ValueSort.scalar_range sortFlat)
  | .var name sort, _, _, _, _, _, _, sortFlat, isArray, _ => by
      rw [Term.sort] at isArray
      simp only [evalSelection, isArray, ↓reduceIte, orFault_eq_ok]
      exact lookupArray_ok (ValueSort.scalar_range sortFlat)
  | .constArray element sort, _, _, _, cover, wellSorted, flat, _, _, _ => by
      simp only [Term.WellSorted] at wellSorted
      simp only [Term.isFlat, Bool.and_eq_true] at flat
      have range : sort.range = element.sort := by rw [wellSorted.2, ValueSort.range]
      rw [evalSelection]
      exact eval_ok sorted element cover wellSorted.1 flat.1
        (range ▸ ValueSort.scalar_range flat.2)
  | .update array stored element, _, _, indices, cover, wellSorted, flat, _, isArray,
      haveSorts => by
      simp only [Term.WellSorted] at wellSorted
      obtain ⟨arraySorted, storedSorted, elementSorted, arraySort⟩ := wellSorted
      simp only [Term.isFlat, Bool.and_eq_true] at flat
      obtain ⟨⟨⟨arrayFlat, storedFlat⟩, elementFlat⟩, sortFlat⟩ := flat
      rw [Term.sort] at isArray haveSorts
      have isDomain : array.sort.domain = Term.sorts stored := by rw [arraySort, ValueSort.domain]
      have isRange : array.sort.range = element.sort := by rw [arraySort, ValueSort.range]
      obtain ⟨places, storedHold⟩ := evalAll_ok sorted stored cover storedSorted storedFlat
        (isDomain ▸ ValueSort.scalar_domain sortFlat)
      simp only [evalSelection_update_eq_ok]
      by_cases same : places = indices
      · obtain ⟨value, elementHolds⟩ := eval_ok sorted element cover elementSorted elementFlat
          (isRange ▸ ValueSort.scalar_range sortFlat)
        exact ⟨value, places, storedHold, by rw [if_pos same]; exact elementHolds⟩
      · obtain ⟨value, selected⟩ := evalSelection_ok sorted array cover arraySorted arrayFlat
          sortFlat isArray haveSorts
        exact ⟨value, places, storedHold, by rw [if_neg same]; exact selected⟩
  | .lambda parameters body, _, _, _, cover, wellSorted, flat, _, _, haveSorts => by
      simp only [Term.WellSorted] at wellSorted
      simp only [Term.isFlat, Bool.and_eq_true] at flat
      rw [Term.sort, ValueSort.domain] at haveSorts
      rw [evalSelection]
      exact eval_ok sorted body (cover.bindParameters haveSorts) wellSorted.2 flat.1
        (ValueSort.scalar_range flat.2)
  | .conditional condition consequent alternate, _, _, _, cover, wellSorted, flat, sortFlat,
      isArray, haveSorts => by
      simp only [Term.WellSorted] at wellSorted
      obtain ⟨conditionSorted, consequentSorted, alternateSorted, isBool, sameSort⟩ := wellSorted
      simp only [Term.isFlat, Bool.and_eq_true] at flat
      rw [Term.sort] at sortFlat isArray haveSorts
      obtain ⟨truth, conditionHolds⟩ := eval_bool_ok sorted cover.respect conditionSorted isBool
        (eval_ok sorted condition cover conditionSorted flat.1.1 (by rw [isBool]; rfl))
      simp only [evalSelection_conditional_eq_ok]
      cases truth with
      | true =>
          obtain ⟨value, selected⟩ := evalSelection_ok sorted consequent cover consequentSorted
            flat.1.2 sortFlat isArray haveSorts
          exact ⟨value, true, conditionHolds, selected⟩
      | false =>
          rw [sameSort] at sortFlat isArray haveSorts
          obtain ⟨value, selected⟩ := evalSelection_ok sorted alternate cover alternateSorted
            flat.2 sortFlat isArray haveSorts
          exact ⟨value, false, conditionHolds, selected⟩
  -- What remains is no array.
  | .const value, _, _, _, _, _, _, _, isArray, _ => by
      cases value <;> simp [Term.sort, Constant.sort, ValueSort.isArray] at isArray
  | .bound _ sort, _, _, _, _, _, flat, _, isArray, _ => by
      simp only [Term.isFlat, Bool.not_eq_true'] at flat
      rw [Term.sort, flat] at isArray
      cases isArray
  | .binary operator left _, _, _, _, _, _, flat, _, isArray, _ => by
      simp only [Term.isFlat, Bool.and_eq_true, Bool.not_eq_true'] at flat
      rw [Term.sort, operator.scalar_resultSort flat.2] at isArray
      cases isArray
  | .inputRead region _, _, _, _, _, _, flat, _, isArray, _ => by
      simp only [Term.isFlat, Bool.and_eq_true] at flat
      rw [Term.sort, RegionId.scalar_of_isScalar flat.1] at isArray
      cases isArray
  | .selection array _, _, _, _, _, _, flat, _, isArray, _ => by
      simp only [Term.isFlat, Bool.and_eq_true] at flat
      rw [Term.sort, ValueSort.scalar_range flat.2] at isArray
      cases isArray
  | .negation _, _, _, _, _, _, _, _, isArray, _ | .subtype _ _, _, _, _, _, _, _, _, isArray, _ => by
      simp [Term.sort, ValueSort.isArray] at isArray

end

/-- A closed flat condition is true or false under every sorted model. -/
theorem evaluate_bool_ok (sorted : model.Sorted vocabulary) {condition : Term}
    (wellSorted : condition.WellSorted vocabulary [])
    (isBool : condition.sort = .bool)
    (flat : condition.isFlat = true) :
    ∃ truth, model.eval [] condition = .ok (.bool truth) :=
  eval_bool_ok sorted Bindings.respect_empty wellSorted isBool
    (eval_ok sorted condition Bindings.cover_empty wellSorted flat (by rw [isBool]; rfl))

end Model

/-! ## Compared arrays -/

/-- A condition that compares arrays. -/
def Term.comparedArrays : Term :=
  .binary .equals (.var "before" (.array [.i32] .i32)) (.var "after" (.array [.i32] .i32))

theorem Term.comparedArrays_wellSorted {vocabulary : Vocabulary}
    (declared : ∀ name, vocabulary.array name (.array [.i32] .i32)) :
    comparedArrays.WellSorted vocabulary [] := by
  simp [comparedArrays, WellSorted, ValueSort.isArray, BinaryOp.Accepts, Term.sort, declared]

end SymbolicHeap
