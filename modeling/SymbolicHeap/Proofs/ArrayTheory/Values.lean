import SymbolicHeap.ArrayTheory.Value
import SymbolicHeap.Proofs.Simplify.Arrays

/-!
Contract: an encoded term means what the term means.

What a session remembers about terms does not depend on when it was encoded:
the encoding of a term is a function of the term. It replaces reads of input
memory by selections from base arrays and simplifies on the way, and refines
the term. Since it also goes below lambdas, elements are compared at indices of
the array's own sorts only.

Owns:
- refinement at well-sorted indices and its congruence in every operand;
- encoded terms as a function, and that they refine what they encode.
-/

namespace SymbolicHeap

namespace Term

/-! ## Refinement at well-sorted indices -/

structure RefinesSorted
    (vocabulary : Vocabulary)
    (scope : Scope)
    (plain other : Term) :
    Prop where
  wellSorted : other.WellSorted vocabulary scope
  sort : other.sort = plain.sort
  eval : ∀ {model : Model} {bindings : Bindings} {value : Constant},
    model.Admissible vocabulary → bindings.Respect scope →
      model.eval bindings plain = .ok value → model.eval bindings other = .ok value
  select : ∀ {model : Model} {bindings : Bindings} {indices : List Constant} {value : Constant},
    model.Admissible vocabulary → bindings.Respect scope →
      Constant.HaveSorts indices plain.sort.domain →
        model.evalSelection bindings plain indices = .ok value →
          model.evalSelection bindings other indices = .ok value

/-- The same for lists of operands. -/
structure RefinesAll
    (vocabulary : Vocabulary)
    (scope : Scope)
    (plain other : List Term) :
    Prop where
  wellSorted : AllWellSorted vocabulary scope other
  sorts : Term.sorts other = Term.sorts plain
  evalAll : ∀ {model : Model} {bindings : Bindings} {values : List Constant},
    model.Admissible vocabulary → bindings.Respect scope →
      model.evalAll bindings plain = .ok values → model.evalAll bindings other = .ok values

variable {vocabulary : Vocabulary} {scope : Scope}

private theorem Refines.atSorted {plain other : Term}
    (refines : Refines vocabulary scope plain other) :
    RefinesSorted vocabulary scope plain other :=
  ⟨refines.wellSorted, refines.sort, refines.eval, fun admissible respect _ =>
    refines.select admissible respect⟩

namespace RefinesSorted

theorem trans {first second third : Term}
    (early : RefinesSorted vocabulary scope first second)
    (late : RefinesSorted vocabulary scope second third) :
    RefinesSorted vocabulary scope first third where
  wellSorted := late.wellSorted
  sort := late.sort.trans early.sort
  eval := fun admissible respect evaluated =>
    late.eval admissible respect (early.eval admissible respect evaluated)
  select := fun admissible respect haveSorts selected =>
    late.select admissible respect (early.sort ▸ haveSorts)
      (early.select admissible respect haveSorts selected)

/-- Where a term is no array, only its own values count. -/
theorem ofScalar {plain other : Term}
    (noElements : ∀ (model : Model) (bindings : Bindings) (indices : List Constant),
      model.evalSelection bindings plain indices = .error .undefined)
    (wellSorted : other.WellSorted vocabulary scope)
    (sort : other.sort = plain.sort)
    (eval : ∀ {model : Model} {bindings : Bindings} {value : Constant},
      model.Admissible vocabulary → bindings.Respect scope →
        model.eval bindings plain = .ok value → model.eval bindings other = .ok value) :
    RefinesSorted vocabulary scope plain other :=
  (Refines.ofScalar noElements wellSorted sort eval).atSorted

/-! ## Operands -/

theorem binary {operator : BinaryOp} {left right otherLeft otherRight : Term}
    (leftRefines : RefinesSorted vocabulary scope left otherLeft)
    (rightRefines : RefinesSorted vocabulary scope right otherRight)
    (accepts : operator.Accepts left.sort right.sort) :
    RefinesSorted vocabulary scope (.binary operator left right)
      (.binary operator otherLeft otherRight) := by
  apply ofScalar
  · intro model bindings indices
    rw [Model.evalSelection] <;> simp
  · simp only [WellSorted, leftRefines.sort, rightRefines.sort]
    exact ⟨leftRefines.wellSorted, rightRefines.wellSorted, accepts⟩
  · simp only [Term.sort, leftRefines.sort]
  · intro model bindings value admissible respect evaluated
    cases connective : operator.onConstants? with
    | some operation =>
        rw [Model.eval_strict_eq_ok connective] at evaluated ⊢
        obtain ⟨leftValue, rightValue, leftHolds, rightHolds, result⟩ := evaluated
        exact ⟨leftValue, rightValue, leftRefines.eval admissible respect leftHolds,
          rightRefines.eval admissible respect rightHolds, result⟩
    | none =>
        rw [Model.eval_connective_eq_ok connective] at evaluated ⊢
        obtain ⟨truth, leftHolds, rest⟩ := evaluated
        refine ⟨truth, leftRefines.eval admissible respect leftHolds, ?_⟩
        split at rest
        · next absorbs =>
            rw [if_pos absorbs]
            exact rest
        · next decides =>
            rw [if_neg decides]
            exact rightRefines.eval admissible respect rest

theorem negation {operand other : Term} (refines : RefinesSorted vocabulary scope operand other)
    (isBool : operand.sort = .bool) :
    RefinesSorted vocabulary scope (.negation operand) (.negation other) := by
  apply ofScalar
  · intro model bindings indices
    rw [Model.evalSelection] <;> simp
  · simp only [WellSorted]
    exact ⟨refines.wellSorted, refines.sort.trans isBool⟩
  · rfl
  · intro model bindings value admissible respect evaluated
    obtain ⟨truth, operandHolds, result⟩ := Model.eval_negation_eq_ok.1 evaluated
    exact Model.eval_negation_eq_ok.2
      ⟨truth, refines.eval admissible respect operandHolds, result⟩

theorem conditional {condition consequent alternate : Term}
    {otherCondition otherConsequent otherAlternate : Term}
    (conditionRefines : RefinesSorted vocabulary scope condition otherCondition)
    (consequentRefines : RefinesSorted vocabulary scope consequent otherConsequent)
    (alternateRefines : RefinesSorted vocabulary scope alternate otherAlternate)
    (isBool : condition.sort = .bool)
    (sameSort : consequent.sort = alternate.sort) :
    RefinesSorted vocabulary scope (.conditional condition consequent alternate)
      (.conditional otherCondition otherConsequent otherAlternate) where
  wellSorted := by
    simp only [WellSorted, conditionRefines.sort, consequentRefines.sort, alternateRefines.sort]
    exact ⟨conditionRefines.wellSorted, consequentRefines.wellSorted, alternateRefines.wellSorted,
      isBool, sameSort⟩
  sort := consequentRefines.sort
  eval := by
    intro model bindings value admissible respect evaluated
    obtain ⟨truth, conditionHolds, chosen⟩ := Model.eval_conditional_eq_ok.1 evaluated
    refine Model.eval_conditional_eq_ok.2
      ⟨truth, conditionRefines.eval admissible respect conditionHolds, ?_⟩
    cases truth with
    | true => exact consequentRefines.eval admissible respect chosen
    | false => exact alternateRefines.eval admissible respect chosen
  select := by
    intro model bindings indices value admissible respect haveSorts selected
    obtain ⟨truth, conditionHolds, chosen⟩ := Model.evalSelection_conditional_eq_ok.1 selected
    refine Model.evalSelection_conditional_eq_ok.2
      ⟨truth, conditionRefines.eval admissible respect conditionHolds, ?_⟩
    cases truth with
    | true => exact consequentRefines.select admissible respect haveSorts chosen
    | false => exact alternateRefines.select admissible respect (sameSort ▸ haveSorts) chosen

theorem subtype {operand other : Term} (refines : RefinesSorted vocabulary scope operand other)
    (isReference : operand.sort = .reference) (typeName : String) :
    RefinesSorted vocabulary scope (.subtype operand typeName) (.subtype other typeName) := by
  apply ofScalar
  · intro model bindings indices
    rw [Model.evalSelection] <;> simp
  · simp only [WellSorted]
    exact ⟨refines.wellSorted, refines.sort.trans isReference⟩
  · rfl
  · intro model bindings value admissible respect evaluated
    obtain ⟨address, operandHolds, result⟩ := Model.eval_subtype_eq_ok.1 evaluated
    exact Model.eval_subtype_eq_ok.2
      ⟨address, refines.eval admissible respect operandHolds, result⟩

theorem constArray {element other : Term}
    (refines : RefinesSorted vocabulary scope element other)
    {sort : ValueSort}
    (isArray : sort = .array sort.domain element.sort) :
    RefinesSorted vocabulary scope (.constArray element sort) (.constArray other sort) where
  wellSorted := by
    simp only [WellSorted, refines.sort]
    exact ⟨refines.wellSorted, isArray⟩
  sort := rfl
  eval := by
    intro model bindings value _ _ evaluated
    simp [Model.eval] at evaluated
  select := by
    intro model bindings indices value admissible respect _ selected
    rw [Model.evalSelection] at selected ⊢
    exact refines.eval admissible respect selected

theorem selection {array otherArray : Term} {indices otherIndices : List Term}
    (arrayRefines : RefinesSorted vocabulary scope array otherArray)
    (indicesRefine : RefinesAll vocabulary scope indices otherIndices)
    (indicesSorted : AllWellSorted vocabulary scope indices)
    (isArray : array.sort = .array (Term.sorts indices) array.sort.range) :
    RefinesSorted vocabulary scope (.selection array indices)
      (.selection otherArray otherIndices) := by
  apply ofScalar
  · intro model bindings indices
    exact evalSelection_selection ..
  · simp only [WellSorted, arrayRefines.sort, indicesRefine.sorts]
    exact ⟨arrayRefines.wellSorted, indicesRefine.wellSorted, isArray⟩
  · simp only [Term.sort, arrayRefines.sort]
  · intro model bindings value admissible respect evaluated
    obtain ⟨proper, values, indicesHold, selected⟩ := Model.eval_selection_eq_ok.1 evaluated
    have haveSorts :=
      Model.evalAll_haveSorts admissible.sorted indices respect indicesSorted indicesHold
    refine Model.eval_selection_eq_ok.2
      ⟨proper, values, indicesRefine.evalAll admissible respect indicesHold, ?_⟩
    refine arrayRefines.select admissible respect ?_ selected
    rw [isArray]
    exact haveSorts

theorem update {array otherArray element otherElement : Term} {indices otherIndices : List Term}
    (arrayRefines : RefinesSorted vocabulary scope array otherArray)
    (indicesRefine : RefinesAll vocabulary scope indices otherIndices)
    (elementRefines : RefinesSorted vocabulary scope element otherElement)
    (isArray : array.sort = .array (Term.sorts indices) element.sort) :
    RefinesSorted vocabulary scope (.update array indices element)
      (.update otherArray otherIndices otherElement) where
  wellSorted := by
    simp only [WellSorted, arrayRefines.sort, indicesRefine.sorts, elementRefines.sort]
    exact ⟨arrayRefines.wellSorted, indicesRefine.wellSorted, elementRefines.wellSorted, isArray⟩
  sort := arrayRefines.sort
  eval := by
    intro model bindings value _ _ evaluated
    simp [Model.eval] at evaluated
  select := by
    intro model bindings places value admissible respect haveSorts selected
    obtain ⟨stored, indicesHold, chosen⟩ := Model.evalSelection_update_eq_ok.1 selected
    refine Model.evalSelection_update_eq_ok.2
      ⟨stored, indicesRefine.evalAll admissible respect indicesHold, ?_⟩
    split at chosen
    · next same =>
        rw [if_pos same]
        exact elementRefines.eval admissible respect chosen
    · next different =>
        rw [if_neg different]
        exact arrayRefines.select admissible respect haveSorts chosen

theorem lambda {parameters : List Term} {body other : Term}
    (refines : RefinesSorted vocabulary (bindScope parameters scope) body other)
    (areBound : ∀ parameter ∈ parameters, parameter.isBound = true) :
    RefinesSorted vocabulary scope (.lambda parameters body) (.lambda parameters other) where
  wellSorted := by
    simp only [WellSorted]
    exact ⟨areBound, refines.wellSorted⟩
  sort := by simp only [Term.sort, refines.sort]
  eval := by
    intro model bindings value _ _ evaluated
    simp [Model.eval] at evaluated
  select := by
    intro model bindings indices value admissible respect haveSorts selected
    rw [Model.evalSelection] at selected ⊢
    exact refines.eval admissible (respect.bindParameters haveSorts) selected

/-- The contents of input memory are elements of the region's base array. -/
theorem inputRead {region : RegionId} {key otherKey : List Term}
    (keyRefines : RefinesAll vocabulary scope key otherKey)
    (keySorts : Term.sorts key = region.inputArraySort.domain)
    (declared : vocabulary.Declares region) :
    RefinesSorted vocabulary scope (.inputRead region key)
      (.selection region.baseArray otherKey) := by
  apply ofScalar
  · intro model bindings indices
    rw [Model.evalSelection] <;> simp
  · simp only [WellSorted, RegionId.baseArray, Term.sort, keyRefines.sorts, keySorts]
    exact ⟨⟨rfl, declared⟩, keyRefines.wellSorted, rfl⟩
  · rfl
  · intro model bindings value admissible respect evaluated
    obtain ⟨proper, indices, keyHolds, found⟩ := Model.eval_inputRead_eq_ok.1 evaluated
    refine Model.eval_selection_eq_ok.2
      ⟨proper, indices, keyRefines.evalAll admissible respect keyHolds, ?_⟩
    rw [RegionId.baseArray, Model.evalSelection, Model.orFault_eq_ok]
    exact found

end RefinesSorted

namespace RefinesAll

theorem nil : RefinesAll vocabulary scope [] [] :=
  ⟨by rw [AllWellSorted]; trivial, rfl, fun _ _ => id⟩

theorem cons {head otherHead : Term} {tail otherTail : List Term}
    (headRefines : RefinesSorted vocabulary scope head otherHead)
    (tailRefines : RefinesAll vocabulary scope tail otherTail) :
    RefinesAll vocabulary scope (head :: tail) (otherHead :: otherTail) where
  wellSorted := by
    rw [AllWellSorted]
    exact ⟨headRefines.wellSorted, tailRefines.wellSorted⟩
  sorts := by simp only [Term.sorts, headRefines.sort, tailRefines.sorts]
  evalAll := by
    intro model bindings values admissible respect evaluated
    obtain ⟨value, rest, headHolds, tailHolds, result⟩ := Model.evalAll_cons_eq_ok.1 evaluated
    exact Model.evalAll_cons_eq_ok.2
      ⟨value, rest, headRefines.eval admissible respect headHolds,
        tailRefines.evalAll admissible respect tailHolds, result⟩

end RefinesAll

/-! ## Encoded terms -/

mutual

/-- The encoding of a term. -/
def encoded : Term → Term
  | .binary operator left right => operator.build left.encoded right.encoded
  | .negation operand => operand.encoded.not
  | .conditional condition consequent alternate =>
      condition.encoded.ite consequent.encoded alternate.encoded
  | .subtype operand typeName => .subtype operand.encoded typeName
  | .inputRead region key => region.baseArray.select (encodedAll key)
  | .constArray element sort => .constArray element.encoded sort
  | .selection array indices => array.encoded.select (encodedAll indices)
  | .update array indices element => array.encoded.store (encodedAll indices) element.encoded
  | .lambda parameters body => .lambda parameters body.encoded
  | .const value => .const value
  | .var name sort => .var name sort
  | .bound name sort => .bound name sort
  | .arrayConst name sort => .arrayConst name sort

def encodedAll : List Term → List Term
  | [] => []
  | head :: tail => head.encoded :: encodedAll tail

end

private theorem refines_build {operator : BinaryOp} {left right : Term}
    (wellSorted : (Term.binary operator left right).WellSorted vocabulary scope) :
    Refines vocabulary scope (.binary operator left right) (operator.build left right) := by
  cases operator with
  | add => exact refines_add wellSorted
  | sub => exact refines_sub wellSorted
  | equals => exact refines_equals wellSorted
  | lessThan => exact refines_lessThan wellSorted
  | lessOrEqual => exact refines_lessOrEqual wellSorted
  | and => exact refines_and wellSorted
  | or => exact refines_or wellSorted

mutual

/-- Encoding keeps the sort of a term and its value wherever it has one. -/
theorem encoded_refines : (term : Term) → {scope : Scope} → term.WellSorted vocabulary scope →
    RefinesSorted vocabulary scope term term.encoded
  | .const _, _, wellSorted | .var _ _, _, wellSorted | .bound _ _, _, wellSorted
  | .arrayConst _ _, _, wellSorted => by
      rw [encoded]
      exact (Refines.refl wellSorted).atSorted
  | .binary operator left right, _, wellSorted => by
      simp only [WellSorted] at wellSorted
      have operands := (encoded_refines left wellSorted.1).binary
        (encoded_refines right wellSorted.2.1) wellSorted.2.2
      rw [encoded]
      exact operands.trans (refines_build operands.wellSorted).atSorted
  | .negation operand, _, wellSorted => by
      simp only [WellSorted] at wellSorted
      have operands := (encoded_refines operand wellSorted.1).negation wellSorted.2
      rw [encoded]
      exact operands.trans (refines_not operands.wellSorted).atSorted
  | .conditional condition consequent alternate, _, wellSorted => by
      simp only [WellSorted] at wellSorted
      obtain ⟨conditionSorted, consequentSorted, alternateSorted, isBool, sameSort⟩ := wellSorted
      have operands := (encoded_refines condition conditionSorted).conditional
        (encoded_refines consequent consequentSorted) (encoded_refines alternate alternateSorted)
        isBool sameSort
      rw [encoded]
      exact operands.trans (refines_ite operands.wellSorted).atSorted
  | .subtype operand typeName, _, wellSorted => by
      simp only [WellSorted] at wellSorted
      rw [encoded]
      exact (encoded_refines operand wellSorted.1).subtype wellSorted.2 typeName
  | .inputRead region key, _, wellSorted => by
      simp only [WellSorted] at wellSorted
      obtain ⟨keySorted, keySorts, declared⟩ := wellSorted
      have operands := RefinesSorted.inputRead (encodedAll_refines key keySorted) keySorts declared
      rw [encoded]
      exact operands.trans (refines_select _ _ operands.wellSorted).atSorted
  | .constArray element sort, _, wellSorted => by
      simp only [WellSorted] at wellSorted
      rw [encoded]
      exact (encoded_refines element wellSorted.1).constArray wellSorted.2
  | .selection array indices, _, wellSorted => by
      simp only [WellSorted] at wellSorted
      obtain ⟨arraySorted, indicesSorted, isArray⟩ := wellSorted
      have operands := (encoded_refines array arraySorted).selection
        (encodedAll_refines indices indicesSorted) indicesSorted isArray
      rw [encoded]
      exact operands.trans (refines_select _ _ operands.wellSorted).atSorted
  | .update array indices element, _, wellSorted => by
      simp only [WellSorted] at wellSorted
      obtain ⟨arraySorted, indicesSorted, elementSorted, isArray⟩ := wellSorted
      have operands := (encoded_refines array arraySorted).update
        (encodedAll_refines indices indicesSorted) (encoded_refines element elementSorted) isArray
      rw [encoded]
      exact operands.trans (refines_store operands.wellSorted).atSorted
  | .lambda parameters body, _, wellSorted => by
      simp only [WellSorted] at wellSorted
      rw [encoded]
      exact (encoded_refines body wellSorted.2).lambda wellSorted.1

private theorem encodedAll_refines : (terms : List Term) → {scope : Scope} →
    AllWellSorted vocabulary scope terms → RefinesAll vocabulary scope terms (encodedAll terms)
  | [], _, _ => by
      rw [encodedAll]
      exact .nil
  | head :: tail, _, wellSorted => by
      rw [AllWellSorted] at wellSorted
      rw [encodedAll]
      exact .cons (encoded_refines head wellSorted.1) (encodedAll_refines tail wellSorted.2)

end

end Term

end SymbolicHeap
