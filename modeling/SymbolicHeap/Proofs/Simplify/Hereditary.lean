import SymbolicHeap.ArrayTheory.Value
import SymbolicHeap.Proofs.Simplify.Arrays
import SymbolicHeap.Proofs.Simplify.Offset
import SymbolicHeap.Reference

/-!
Contract: what the simplifying constructors build, they build from their
operands.

A property of terms is hereditary when a node has it exactly if its operands do.
Constructors rearrange operands, drop some of them and add constants and
negations; none of this can lose such a property. It is enough that the
negations which `Term.not` builds have the property.

Owns:
- inherited and hereditary properties, and the constructors that keep them;
- the same for references that are split and joined.
-/

namespace SymbolicHeap

namespace Term

/-- The property of a node is that of its operands, and a negation that
`Term.not` builds has it too. Nothing is said of symbols, of the contents of a
memory before execution, and of lambdas. -/
structure Inherited (property : Term → Prop) : Prop where
  const : ∀ value, property (.const value)
  binary : ∀ {operator left right},
    property (.binary operator left right) ↔ property left ∧ property right
  operand : ∀ {operand}, property (.negation operand) → property operand
  not : ∀ {operand}, property operand → property operand.not
  conditional : ∀ {condition consequent alternate},
    property (.conditional condition consequent alternate) ↔
      property condition ∧ property consequent ∧ property alternate
  constArray : ∀ {element sort}, property (.constArray element sort) ↔ property element
  selection : ∀ {array indices},
    property (.selection array indices) ↔ property array ∧ ∀ index ∈ indices, property index
  update : ∀ {array indices element},
    property (.update array indices element) ↔
      property array ∧ (∀ index ∈ indices, property index) ∧ property element

private theorem not_of_negation {property : Term → Prop} (const : ∀ value, property (.const value))
    (negation : ∀ {operand}, property (.negation operand) ↔ property operand) {operand : Term}
    (holds : property operand) : property operand.not := by
  rcases not_cases operand with ⟨truth, _, result⟩ | ⟨inner, rfl, result⟩ | result <;> rw [result]
  · exact const _
  · exact negation.1 holds
  · exact negation.2 holds

/-- The property of a node is that of its operands, also of a plain negation. -/
structure Hereditary (property : Term → Prop) : Prop extends Inherited property where
  negation : ∀ {operand}, property (.negation operand) ↔ property operand
  operand := negation.1
  not := not_of_negation const negation

namespace Inherited

variable {property : Term → Prop} (inherited : Inherited property)

include inherited

theorem ofBool (truth : Bool) : property (.ofBool truth) := inherited.const (.bool truth)

/-! ## Connectives and conditionals -/

theorem and {left right : Term} (leftHolds : property left) (rightHolds : property right) :
    property (left.and right) := by
  rcases and_cases left right with ⟨_, result⟩ | ⟨_, result⟩ | ⟨_, result⟩ | ⟨_, result⟩ |
    ⟨_, result⟩ | ⟨_, result⟩ | result <;> rw [result]
  · exact inherited.ofBool false
  · exact inherited.ofBool false
  · exact rightHolds
  · exact leftHolds
  · exact rightHolds
  · exact inherited.ofBool false
  · exact inherited.binary.2 ⟨leftHolds, rightHolds⟩

theorem or {left right : Term} (leftHolds : property left) (rightHolds : property right) :
    property (left.or right) := by
  rcases or_cases left right with ⟨_, result⟩ | ⟨_, result⟩ | ⟨_, result⟩ | ⟨_, result⟩ |
    ⟨_, result⟩ | ⟨_, result⟩ | result <;> rw [result]
  · exact inherited.ofBool true
  · exact inherited.ofBool true
  · exact rightHolds
  · exact leftHolds
  · exact rightHolds
  · exact inherited.ofBool true
  · exact inherited.binary.2 ⟨leftHolds, rightHolds⟩

theorem settled {condition consequent alternate result : Term}
    (isSettled : settled? condition consequent alternate = some result)
    (conditionHolds : property condition)
    (consequentHolds : property consequent)
    (alternateHolds : property alternate) : property result := by
  have negationHolds := inherited.not conditionHolds
  rcases settled?_cases isSettled with ⟨_, rfl⟩ | ⟨_, ⟨_, _, rfl⟩ | ⟨_, _, rfl⟩ | ⟨_, rfl⟩ |
    ⟨_, rfl⟩ | ⟨_, rfl⟩ | ⟨_, rfl⟩⟩
  · exact consequentHolds
  · exact conditionHolds
  · exact negationHolds
  · exact inherited.or conditionHolds alternateHolds
  · exact inherited.and negationHolds alternateHolds
  · exact inherited.and conditionHolds consequentHolds
  · exact inherited.or negationHolds consequentHolds

theorem iteAlternate {condition consequent alternate : Term}
    (conditionHolds : property condition)
    (consequentHolds : property consequent)
    (alternateHolds : property alternate) :
    property (iteAlternate condition consequent alternate) := by
  revert alternateHolds
  refine iteAlternate_induction (motive := fun alternate result =>
    property alternate → property result) ?_ ?_ ?_ alternate
  · intro alternate result isSettled alternateHolds
    exact inherited.settled isSettled conditionHolds consequentHolds alternateHolds
  · intro innerConsequent innerAlternate result inductionHypothesis alternateHolds
    exact inductionHypothesis (inherited.conditional.1 alternateHolds).2.2
  · intro alternate alternateHolds
    exact inherited.conditional.2 ⟨conditionHolds, consequentHolds, alternateHolds⟩

theorem iteConsequent {condition consequent alternate : Term}
    (conditionHolds : property condition)
    (consequentHolds : property consequent)
    (alternateHolds : property alternate) :
    property (iteConsequent condition alternate consequent) := by
  fun_induction Term.iteConsequent condition alternate consequent with
  | case1 inner innerConsequent innerAlternate whole result isSettled =>
      exact inherited.settled isSettled conditionHolds consequentHolds alternateHolds
  | case2 innerConsequent innerAlternate whole unsettled inductionHypothesis =>
      exact inductionHypothesis (inherited.conditional.1 consequentHolds).2.1
  | case3 inner innerConsequent innerAlternate whole unsettled different =>
      exact inherited.iteAlternate conditionHolds consequentHolds alternateHolds
  | case4 consequent notConditional =>
      exact inherited.iteAlternate conditionHolds consequentHolds alternateHolds

theorem ite {condition consequent alternate : Term}
    (conditionHolds : property condition)
    (consequentHolds : property consequent)
    (alternateHolds : property alternate) : property (condition.ite consequent alternate) := by
  fun_induction Term.ite condition consequent alternate with
  | case1 => exact consequentHolds
  | case2 => exact alternateHolds
  | case3 => exact inherited.iteConsequent conditionHolds consequentHolds alternateHolds
  | case4 => exact consequentHolds
  | case5 operand consequent alternate different inductionHypothesis =>
      exact inductionHypothesis (inherited.operand conditionHolds) alternateHolds
        consequentHolds
  | case6 => exact inherited.iteConsequent conditionHolds consequentHolds alternateHolds

/-! ## Comparisons -/

theorem folded {operation : Constant → Constant → Constant} {left right result : Term}
    (isFolded : folded? operation left right = some result) : property result := by
  obtain ⟨_, _, _, _, rfl, _⟩ := eq_const_of_folded? isFolded
  exact inherited.const _

private theorem equalsKnown {left right result : Term}
    (known : equalsKnown? left right = some result)
    (leftHolds : property left) (rightHolds : property right) : property result := by
  rcases equalsKnown?_cases known with ⟨_, rfl⟩ | isFolded | ⟨_, _, rfl⟩ | ⟨_, _, rfl⟩ |
    ⟨_, ⟨_, rfl⟩ | ⟨_, rfl⟩ | ⟨_, rfl⟩ | ⟨_, rfl⟩⟩
  · exact inherited.ofBool true
  · exact inherited.folded isFolded
  · exact inherited.ofBool false
  · exact inherited.ofBool false
  · exact leftHolds
  · exact inherited.not leftHolds
  · exact rightHolds
  · exact inherited.not rightHolds

theorem equalsOrdered (before : Term → Term → Bool) {left right : Term}
    (leftHolds : property left) (rightHolds : property right) :
    property (left.equalsOrdered before right) := by
  unfold Term.equalsOrdered
  split
  · exact inherited.binary.2 ⟨rightHolds, leftHolds⟩
  · exact inherited.binary.2 ⟨leftHolds, rightHolds⟩

theorem equalsConstant (before : Term → Term → Bool) (value : Constant) {term : Term}
    (holds : property term) : property (Term.equalsConstant before value term) := by
  have valueHolds := inherited.const value
  induction term using branchInduction with
  | flat term isFlat =>
      rw [equalsConstant_of_not_conditional before isFlat]
      cases known : equalsKnown? term (.const value) with
      | some result => exact inherited.equalsKnown known holds valueHolds
      | none => exact inherited.equalsOrdered before holds valueHolds
  | conditional condition consequent alternate consequentHypothesis alternateHypothesis =>
      obtain ⟨conditionHolds, consequentHolds, alternateHolds⟩ := inherited.conditional.1 holds
      rw [Term.equalsConstant]
      split
      · next known => exact inherited.equalsKnown known holds valueHolds
      · exact inherited.ite conditionHolds (consequentHypothesis consequentHolds)
          (alternateHypothesis alternateHolds)

theorem equalsBy (before : Term → Term → Bool) {left right : Term} (leftHolds : property left)
    (rightHolds : property right) : property (left.equalsBy before right) := by
  unfold Term.equalsBy
  split
  · next known => exact inherited.equalsKnown known leftHolds rightHolds
  · split
    · exact inherited.equalsConstant before _ leftHolds
    · exact inherited.equalsConstant before _ rightHolds
    · exact inherited.equalsOrdered before leftHolds rightHolds

theorem equals {left right : Term} (leftHolds : property left) (rightHolds : property right) :
    property (left.equals right) :=
  inherited.equalsBy precedes leftHolds rightHolds

theorem lessThan {left right : Term} (leftHolds : property left) (rightHolds : property right) :
    property (left.lessThan right) := by
  unfold Term.lessThan
  split
  · next isFolded => exact inherited.folded isFolded
  · split
    · exact inherited.ofBool false
    · exact inherited.binary.2 ⟨leftHolds, rightHolds⟩

theorem lessOrEqual {left right : Term} (leftHolds : property left)
    (rightHolds : property right) : property (left.lessOrEqual right) := by
  unfold Term.lessOrEqual
  split
  · next isFolded => exact inherited.folded isFolded
  · split
    · exact inherited.ofBool true
    · exact inherited.binary.2 ⟨leftHolds, rightHolds⟩

/-! ## Sums and differences -/

private theorem offsetBase {term base : Term} {offset : Int64} (moved : Moved term base offset)
    (holds : property term) : property base := by
  cases moved with
  | still => exact holds
  | up => exact (inherited.binary.1 holds).1
  | down => exact (inherited.binary.1 holds).1

theorem withOffset {base : Option Term} (holds : ∀ term ∈ base, property term) (offset : Int64)
    (sort : ValueSort) : property (withOffset base offset sort) := by
  unfold Term.withOffset
  split
  · exact inherited.const _
  · have baseHolds := holds _ rfl
    split
    · exact baseHolds
    · split
      · exact inherited.binary.2 ⟨baseHolds, inherited.const _⟩
      · exact inherited.binary.2 ⟨baseHolds, inherited.const _⟩

theorem offsetParts {term : Term} (holds : property term) :
    ∀ base ∈ (offsetParts term).1, property base := by
  intro base isBase
  rcases offsetParts_cases term with ⟨_, _, _, _, parts⟩ | ⟨_, _, moved, parts⟩ <;>
    rw [parts] at isBase
  · cases isBase
  · cases isBase
    exact inherited.offsetBase moved holds

theorem add {left right : Term} (leftHolds : property left) (rightHolds : property right) :
    property (left.add right) := by
  have leftBase := inherited.offsetParts leftHolds
  have rightBase := inherited.offsetParts rightHolds
  unfold Term.add
  split
  · next isFolded => exact inherited.folded isFolded
  · split
    · next leftParts _ =>
        rw [leftParts] at leftBase
        exact inherited.withOffset leftBase _ _
    · next _ rightParts =>
        rw [rightParts] at rightBase
        exact inherited.withOffset rightBase _ _
    · exact inherited.binary.2 ⟨leftHolds, rightHolds⟩

theorem sub {left right : Term} (leftHolds : property left) (rightHolds : property right) :
    property (left.sub right) := by
  have leftBase := inherited.offsetParts leftHolds
  unfold Term.sub
  split
  · next isFolded => exact inherited.folded isFolded
  · split
    · next leftParts _ =>
        rw [leftParts] at leftBase
        exact inherited.withOffset leftBase _ _
    · split
      · exact inherited.const _
      · exact inherited.binary.2 ⟨leftHolds, rightHolds⟩
    · exact inherited.binary.2 ⟨leftHolds, rightHolds⟩

theorem build (operator : BinaryOp) {left right : Term} (leftHolds : property left)
    (rightHolds : property right) : property (operator.build left right) := by
  cases operator with
  | add => exact inherited.add leftHolds rightHolds
  | sub => exact inherited.sub leftHolds rightHolds
  | equals => exact inherited.equals leftHolds rightHolds
  | lessThan => exact inherited.lessThan leftHolds rightHolds
  | lessOrEqual => exact inherited.lessOrEqual leftHolds rightHolds
  | and => exact inherited.and leftHolds rightHolds
  | or => exact inherited.or leftHolds rightHolds

/-! ## Arrays -/

theorem select {array : Term} {indices : List Term} (arrayHolds : property array)
    (indicesHold : ∀ index ∈ indices, property index) : property (array.select indices) := by
  fun_induction Term.select array indices with
  | case1 array stored value indices apart inductionHypothesis =>
      exact inductionHypothesis (inherited.update.1 arrayHolds).1 indicesHold
  | case2 array stored value indices same => exact (inherited.update.1 arrayHolds).2.2
  | case3 => exact inherited.selection.2 ⟨arrayHolds, indicesHold⟩
  | case4 => exact inherited.constArray.1 arrayHolds
  | case5 => exact inherited.selection.2 ⟨arrayHolds, indicesHold⟩

theorem store {array element : Term} {indices : List Term} (arrayHolds : property array)
    (indicesHold : ∀ index ∈ indices, property index) (elementHolds : property element) :
    property (array.store indices element) := by
  have updated := inherited.update.2 ⟨arrayHolds, indicesHold, elementHolds⟩
  unfold Term.store
  split
  · split
    · exact arrayHolds
    · exact updated
  · exact updated

/-! ## References -/

theorem classify {reference : Term} (holds : property reference) :
    property (Address.classify reference).toTerm := by
  unfold Address.classify
  split
  · exact inherited.const .null
  · exact inherited.const _
  · exact holds

theorem splitReference {reference guard : Term} (holds : property reference)
    (guardHolds : property guard) :
    ∀ leaf ∈ splitReference reference guard,
      property leaf.address.toTerm ∧ property leaf.guard := by
  fun_induction SymbolicHeap.splitReference reference guard with
  | case1 => simp
  | case2 condition consequent alternate guard possible consequentHypothesis
      alternateHypothesis =>
      obtain ⟨conditionHolds, consequentHolds, alternateHolds⟩ := inherited.conditional.1 holds
      rw [List.forall_mem_append]
      exact ⟨consequentHypothesis consequentHolds (inherited.and guardHolds conditionHolds),
        alternateHypothesis alternateHolds
          (inherited.and guardHolds (inherited.not conditionHolds))⟩
  | case3 => simp
  | case4 reference guard =>
      rw [List.forall_mem_singleton]
      exact ⟨inherited.classify holds, guardHolds⟩

theorem joinLeaves {fallback : Term} {leaves : List (Term × Term)}
    (fallbackHolds : property fallback)
    (leavesHold : ∀ leaf ∈ leaves, property leaf.1 ∧ property leaf.2) :
    property (joinLeaves fallback leaves) := by
  fun_induction SymbolicHeap.joinLeaves fallback leaves with
  | case1 => exact fallbackHolds
  | case2 guard value => exact (leavesHold _ List.mem_cons_self).2
  | case3 guard value rest _ inductionHypothesis =>
      rw [List.forall_mem_cons] at leavesHold
      exact inherited.ite leavesHold.1.1 leavesHold.1.2 (inductionHypothesis leavesHold.2)

end Inherited

end Term

end SymbolicHeap
