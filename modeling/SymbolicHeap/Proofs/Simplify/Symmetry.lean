import SymbolicHeap.Proofs.Simplify.Comparison

/-!
Contract: both ways of writing an equality are one term.

The rules for known equalities ask the same of both operands, an equality with a
constant is pushed into the branches of the other operand whichever side the
constant is on, and what remains a plain node has its operands in ascending
order. Where of two distinct terms exactly one comes first, that order does not
depend on how the equality was written. Nothing else is asked of the order.

Owns:
- orders that tell distinct terms apart, and the order of terms as one of them;
- equalities are symmetric for operands of one sort, under every such order.
-/

namespace SymbolicHeap

namespace Term

open Std (OrientedOrd)

/-! ## The order of terms -/

mutual

theorem order_swap : (left right : Term) → (order left right).swap = order right left
  | .const _, right => by
      cases right <;> simp only [order, rank, ← OrientedOrd.eq_swap, Constant.order_swap]
  | .var _ _, right | .bound _ _, right | .arrayConst _ _, right => by
      cases right <;>
        simp only [order, rank, Ordering.swap_then, ← OrientedOrd.eq_swap, ValueSort.order_swap]
  | .binary _ left left', right => by
      have leftSwapped := order_swap left
      have rightSwapped := order_swap left'
      cases right <;>
        simp only [order, rank, Ordering.swap_then, ← OrientedOrd.eq_swap, leftSwapped,
          rightSwapped]
  | .negation left, right => by
      have swapped := order_swap left
      cases right <;> simp only [order, rank, ← OrientedOrd.eq_swap, swapped]
  | .conditional left left' left'', right => by
      have conditionSwapped := order_swap left
      have consequentSwapped := order_swap left'
      have alternateSwapped := order_swap left''
      cases right <;>
        simp only [order, rank, Ordering.swap_then, ← OrientedOrd.eq_swap, conditionSwapped,
          consequentSwapped, alternateSwapped]
  | .subtype left _, right => by
      have swapped := order_swap left
      cases right <;> simp only [order, rank, Ordering.swap_then, ← OrientedOrd.eq_swap, swapped]
  | .inputRead _ leftKey, right => by
      have keySwapped := orderList_swap leftKey
      cases right <;>
        simp only [order, rank, Ordering.swap_then, ← OrientedOrd.eq_swap, RegionId.order_swap,
          keySwapped]
  | .constArray left _, right => by
      have swapped := order_swap left
      cases right <;>
        simp only [order, rank, Ordering.swap_then, ← OrientedOrd.eq_swap, ValueSort.order_swap,
          swapped]
  | .selection left leftIndices, right => by
      have arraySwapped := order_swap left
      have indicesSwapped := orderList_swap leftIndices
      cases right <;>
        simp only [order, rank, Ordering.swap_then, ← OrientedOrd.eq_swap, arraySwapped,
          indicesSwapped]
  | .update left leftIndices left', right => by
      have arraySwapped := order_swap left
      have indicesSwapped := orderList_swap leftIndices
      have valueSwapped := order_swap left'
      cases right <;>
        simp only [order, rank, Ordering.swap_then, ← OrientedOrd.eq_swap, arraySwapped,
          indicesSwapped, valueSwapped]
  | .lambda leftParameters left, right => by
      have parametersSwapped := orderList_swap leftParameters
      have bodySwapped := order_swap left
      cases right <;>
        simp only [order, rank, Ordering.swap_then, ← OrientedOrd.eq_swap, parametersSwapped,
          bodySwapped]

theorem orderList_swap :
    (lefts rights : List Term) → (orderList lefts rights).swap = orderList rights lefts
  | [], [] | [], _ :: _ | _ :: _, [] => by simp [orderList]
  | left :: lefts, right :: rights => by
      rw [orderList, orderList, Ordering.swap_then, order_swap left right,
        orderList_swap lefts rights]

end

/-- Of two distinct terms exactly one comes first. Every strict total order is
of this kind. -/
def Orients (before : Term → Term → Bool) : Prop :=
  ∀ left right, left ≠ right → before left right = !before right left

theorem orients_precedes : Orients precedes := by
  intro left right distinct
  have apart : order left right ≠ .eq := fun same => distinct ((order_eq_iff left right).1 same)
  rw [Bool.eq_iff_iff, Bool.not_eq_true', ← Bool.not_eq_true, precedes_eq, precedes_eq,
    ← order_swap left right]
  cases ordering : order left right with
  | lt => simp
  | eq => exact absurd ordering apart
  | gt => simp

theorem Orients.opposite {before : Term → Term → Bool} (orients : Orients before) :
    Orients fun left right => before right left :=
  fun left right distinct => orients right left distinct.symm

/-! ## Equality -/

variable {left right : Term}

private theorem Orients.equalsOrdered_comm {before : Term → Term → Bool} (orients : Orients before)
    (left right : Term) : left.equalsOrdered before right = right.equalsOrdered before left := by
  by_cases same : left = right
  · rw [same]
  · unfold equalsOrdered
    rw [orients left right same]
    cases before right left <;> rfl

private theorem folded?_equals_comm (left right : Term) :
    folded? Constant.equals left right = folded? Constant.equals right left := by
  have swapped (value other : Constant) : value.equals other = other.equals value := by
    simp only [Constant.equals, Bool.or_comm, eq_comm]
  cases left <;> cases right <;> simp only [folded?]
  rw [swapped]

/-- Two conditions with known truth values are compared as constants. -/
private theorem folded?_of_asBool? {leftTruth rightTruth : Bool}
    (leftKnown : left.asBool? = some leftTruth) (rightKnown : right.asBool? = some rightTruth) :
    folded? Constant.equals left right ≠ none := by
  rw [eq_const_of_asBool? leftKnown, eq_const_of_asBool? rightKnown]
  simp [folded?, Constant.equals, Constant.isBottom]

/-- The rules for known equalities ask the same of both operands. Only a pair of
known truth values could be answered in two ways, and that pair is folded before. -/
private theorem equalsKnown?_comm (sameSort : left.sort = right.sort) :
    equalsKnown? left right = equalsKnown? right left := by
  by_cases same : left = right
  · rw [same]
  · unfold equalsKnown?
    simp only [same, Ne.symm same, false_and, if_false, folded?_equals_comm right left]
    cases folded : folded? Constant.equals left right with
    | some result => rfl
    | none =>
        simp only [sameSort]
        by_cases leftAllocated : left.isHeapAddress = true ∧ right.isInputReference = true
        · simp [leftAllocated]
        · by_cases rightAllocated : right.isHeapAddress = true ∧ left.isInputReference = true
          · simp [rightAllocated]
          · rw [if_neg leftAllocated, if_neg rightAllocated, if_neg rightAllocated,
              if_neg leftAllocated]
            cases leftKnown : left.asBool? with
            | none => cases right.asBool? with
              | none => rfl
              | some truth => cases truth <;> rfl
            | some leftTruth => cases rightKnown : right.asBool? with
              | none => cases leftTruth <;> rfl
              | some rightTruth => exact absurd folded (folded?_of_asBool? leftKnown rightKnown)

theorem Orients.equalsBy_comm {before : Term → Term → Bool} (orients : Orients before)
    (sameSort : left.sort = right.sort) :
    left.equalsBy before right = right.equalsBy before left := by
  unfold equalsBy
  rw [equalsKnown?_comm sameSort]
  cases equalsKnown? right left with
  | some result => rfl
  | none => cases left <;> cases right <;> simp only [orients.equalsOrdered_comm]

theorem equals_comm (sameSort : left.sort = right.sort) :
    left.equals right = right.equals left :=
  orients_precedes.equalsBy_comm sameSort

theorem notEquals_comm (sameSort : left.sort = right.sort) :
    left.notEquals right = right.notEquals left := by
  rw [notEquals, notEquals, equals_comm sameSort]

end Term

end SymbolicHeap
