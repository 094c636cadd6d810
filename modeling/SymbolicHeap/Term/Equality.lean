import SymbolicHeap.Term.Basic

/-!
Contract: comparing terms that share their parts.

Terms grow out of earlier terms and share them, so a term can have far more
paths than nodes. Comparing along all paths takes too long. Here two terms are
first pooled: equal parts, also those that were built apart, become one node.
Then a node is recognised as equal to itself before its operands are looked
at, and a comparison follows a single path to the first difference.

Pooling is a matter of storage only. As values, the pooled terms are the terms
themselves, and every answer is the one that a comparison of all components
gives.

Owns:
- pooling, equality and order of terms, look-up by term.
-/

namespace SymbolicHeap

/-- The same value, with equal parts of it stored once. -/
@[inline]
def pooled {α : Type} (value : α) : α := ShareCommon.shareCommon' value

@[simp]
theorem pooled_eq {α : Type} (value : α) : pooled value = value := rfl

namespace Term

/-! ## Equality -/

/-- A Boolean that tells whether a statement holds. -/
abbrev Decision (statement : Prop) := { answer : Bool // answer = true ↔ statement }

/-- Whether two terms are equal; one and the same node is so without asking
further. -/
@[inline]
def unlessShared (left right : Term) (decision : Unit → Decision (left = right)) :
    Decision (left = right) :=
  ⟨withPtrEq left right (fun _ => (decision ()).1) fun same => (decision ()).2.2 same,
    (decision ()).2⟩

mutual

/-- Whether two terms are equal, component by component up to the first
difference. Leaves and terms of different shapes have nothing below them to
compare. -/
def same (left right : Term) : Decision (left = right) :=
  unlessShared left right fun _ =>
    match left, right with
    | .binary leftOp left left', .binary rightOp right right' =>
        ⟨leftOp = rightOp && ((same left right).1 && (same left' right').1), by
          simp [(same left right).2, (same left' right').2]⟩
    | .negation left, .negation right =>
        ⟨(same left right).1, by simp [(same left right).2]⟩
    | .conditional left left' left'', .conditional right right' right'' =>
        ⟨(same left right).1 && ((same left' right').1 && (same left'' right'').1), by
          simp [(same left right).2, (same left' right').2, (same left'' right'').2]⟩
    | .subtype left leftName, .subtype right rightName =>
        ⟨(same left right).1 && leftName = rightName, by simp [(same left right).2]⟩
    | .inputRead left leftKey, .inputRead right rightKey =>
        ⟨left = right && (sameList leftKey rightKey).1, by
          simp [(sameList leftKey rightKey).2]⟩
    | .constArray left leftSort, .constArray right rightSort =>
        ⟨(same left right).1 && leftSort = rightSort, by simp [(same left right).2]⟩
    | .selection left leftIndices, .selection right rightIndices =>
        ⟨(same left right).1 && (sameList leftIndices rightIndices).1, by
          simp [(same left right).2, (sameList leftIndices rightIndices).2]⟩
    | .update left leftIndices left', .update right rightIndices right' =>
        ⟨(same left right).1 &&
            ((sameList leftIndices rightIndices).1 && (same left' right').1), by
          simp [(same left right).2, (sameList leftIndices rightIndices).2,
            (same left' right').2]⟩
    | .lambda leftParameters left, .lambda rightParameters right =>
        ⟨(sameList leftParameters rightParameters).1 && (same left right).1, by
          simp [(sameList leftParameters rightParameters).2, (same left right).2]⟩
    | left, right => ⟨order left right = .eq, by simp [order_eq_iff]⟩

def sameList : (lefts rights : List Term) → Decision (lefts = rights)
  | [], [] => ⟨true, by simp⟩
  | [], _ :: _ => ⟨false, by simp⟩
  | _ :: _, [] => ⟨false, by simp⟩
  | left :: lefts, right :: rights =>
      ⟨(same left right).1 && (sameList lefts rights).1, by
        simp [(same left right).2, (sameList lefts rights).2]⟩

end

private theorem decision_eq_decide {statement : Prop} [Decidable statement]
    (decision : Decision statement) : decision.1 = decide statement := by
  rw [Bool.eq_iff_iff, decision.2, decide_eq_true_iff]

/-- A difference that shows within some levels of two terms, their lists of
operands left out. -/
def differWithin : Nat → Term → Term → Bool
  | 0, _, _ => false
  | levels + 1, left, right =>
      match left, right with
      | .const left, .const right => left != right
      | .var left _, .var right _ | .bound left _, .bound right _ => left != right
      | .arrayConst left _, .arrayConst right _ => left != right
      | .binary leftOp left left', .binary rightOp right right' =>
          leftOp != rightOp || differWithin levels left right || differWithin levels left' right'
      | .negation left, .negation right => differWithin levels left right
      | .conditional left left' left'', .conditional right right' right'' =>
          differWithin levels left right || differWithin levels left' right' ||
            differWithin levels left'' right''
      | .subtype left _, .subtype right _ => differWithin levels left right
      | .constArray left _, .constArray right _ => differWithin levels left right
      | .selection left _, .selection right _ => differWithin levels left right
      | .update left _ left', .update right _ right' =>
          differWithin levels left right || differWithin levels left' right'
      | .lambda _ left, .lambda _ right => differWithin levels left right
      | left, right => left.rank != right.rank

private theorem differWithin_self (levels : Nat) (term : Term) :
    differWithin levels term term = false := by
  induction levels generalizing term with
  | zero => rfl
  | succ levels inductionHypothesis => cases term <;> simp [differWithin, inductionHypothesis]

/-- Whether two terms are equal. Most terms that differ do so near the top. -/
@[inline]
def unlessApparent (left right : Term) (decision : Unit → Decision (left = right)) :
    Decision (left = right) :=
  unlessShared left right fun _ =>
    if apparent : differWithin 4 left right then
      ⟨false, by
        constructor
        · simp
        · rintro rfl
          simp [differWithin_self] at apparent⟩
    else decision ()

/-- Whether two terms are equal. Those that look alike are pooled. -/
def equal (left right : Term) : Decision (left = right) :=
  unlessApparent left right fun _ =>
    let pair := pooled (left, right)
    (same pair.1 pair.2 : Decision (left = right))

instance : DecidableEq Term := fun left right =>
  decidable_of_bool (equal left right).1 (equal left right).2

/-- The value of the first entry for a term. The term and the entries are taken
to be pooled together. -/
def lookup {α : Type} (term : Term) : List (Term × α) → Option α
  | [] => none
  | (key, value) :: entries =>
      if (unlessApparent term key fun _ => same term key).1 then some value
      else lookup term entries

theorem lookup_eq_list_lookup {α : Type} (term : Term) (entries : List (Term × α)) :
    term.lookup entries = entries.lookup term := by
  induction entries with
  | nil => rfl
  | cons entry entries inductionHypothesis =>
      rw [lookup, List.lookup_cons, decision_eq_decide, inductionHypothesis]
      by_cases equal : term = entry.1
      · simp [equal]
      · simp [equal, beq_false_of_ne equal]

/-! ## Order -/

/-- An ordering of two terms, known without computing it if they are equal. -/
@[macro_inline]
def unlessEqual (left right : Term) (ordering : Ordering) : Ordering :=
  if (same left right).1 then .eq else ordering

private theorem unlessEqual_order (left right : Term) :
    unlessEqual left right (order left right) = order left right := by
  unfold unlessEqual
  split
  · rename_i equal
    rw [(order_eq_iff left right).2 ((same left right).2.1 equal)]
  · rfl

mutual

/-- The ordering that `order` gives, found without entering equal components
that another component follows. -/
def orderShared : Term → Term → Ordering
  | .binary leftOp left left', .binary rightOp right right' =>
      (compare leftOp.rank rightOp.rank).then
        ((unlessEqual left right (orderShared left right)).then (orderShared left' right'))
  | .negation left, .negation right => orderShared left right
  | .conditional left left' left'', .conditional right right' right'' =>
      (unlessEqual left right (orderShared left right)).then
        ((unlessEqual left' right' (orderShared left' right')).then
          (orderShared left'' right''))
  | .subtype left leftName, .subtype right rightName =>
      (unlessEqual left right (orderShared left right)).then (compare leftName rightName)
  | .inputRead left leftKey, .inputRead right rightKey =>
      (left.order right).then (orderSharedList leftKey rightKey)
  | .constArray left leftSort, .constArray right rightSort =>
      (unlessEqual left right (orderShared left right)).then (leftSort.order rightSort)
  | .selection left leftIndices, .selection right rightIndices =>
      (unlessEqual left right (orderShared left right)).then
        (orderSharedList leftIndices rightIndices)
  | .update left leftIndices left', .update right rightIndices right' =>
      (unlessEqual left right (orderShared left right)).then
        ((orderSharedList leftIndices rightIndices).then (orderShared left' right'))
  | .lambda leftParameters left, .lambda rightParameters right =>
      (orderSharedList leftParameters rightParameters).then (orderShared left right)
  | left, right => order left right

def orderSharedList : List Term → List Term → Ordering
  | [], [] => .eq
  | [], _ :: _ => .lt
  | _ :: _, [] => .gt
  | left :: lefts, right :: rights =>
      (unlessEqual left right (orderShared left right)).then (orderSharedList lefts rights)

end

mutual

private theorem orderShared_eq : (left right : Term) → orderShared left right = order left right
  | .const _, right | .var _ _, right | .bound _ _, right | .arrayConst _ _, right => by
      cases right <;> rfl
  | .binary _ left left', right => by
      have leftSame := orderShared_eq left
      have rightSame := orderShared_eq left'
      cases right <;> simp [orderShared, order, leftSame, rightSame, unlessEqual_order]
  | .negation left, right => by
      have same := orderShared_eq left
      cases right <;> simp [orderShared, order, same]
  | .conditional left left' left'', right => by
      have conditionSame := orderShared_eq left
      have consequentSame := orderShared_eq left'
      have alternateSame := orderShared_eq left''
      cases right <;>
        simp [orderShared, order, conditionSame, consequentSame, alternateSame,
          unlessEqual_order]
  | .subtype left _, right => by
      have same := orderShared_eq left
      cases right <;> simp [orderShared, order, same, unlessEqual_order]
  | .inputRead _ leftKey, right => by
      have keySame := orderSharedList_eq leftKey
      cases right <;> simp [orderShared, order, keySame]
  | .constArray left _, right => by
      have same := orderShared_eq left
      cases right <;> simp [orderShared, order, same, unlessEqual_order]
  | .selection left leftIndices, right => by
      have arraySame := orderShared_eq left
      have indicesSame := orderSharedList_eq leftIndices
      cases right <;> simp [orderShared, order, arraySame, indicesSame, unlessEqual_order]
  | .update left leftIndices left', right => by
      have arraySame := orderShared_eq left
      have indicesSame := orderSharedList_eq leftIndices
      have valueSame := orderShared_eq left'
      cases right <;>
        simp [orderShared, order, arraySame, indicesSame, valueSame, unlessEqual_order]
  | .lambda leftParameters left, right => by
      have parametersSame := orderSharedList_eq leftParameters
      have bodySame := orderShared_eq left
      cases right <;> simp [orderShared, order, parametersSame, bodySame]

private theorem orderSharedList_eq :
    (lefts rights : List Term) → orderSharedList lefts rights = orderList lefts rights
  | [], [] | [], _ :: _ | _ :: _, [] => by simp [orderSharedList, orderList]
  | left :: lefts, right :: rights => by
      rw [orderSharedList, orderList, orderShared_eq left right, unlessEqual_order,
        orderSharedList_eq lefts rights]

end

/-- The left term comes first. -/
def precedes (left right : Term) : Bool :=
  let pair := pooled (left, right)
  orderShared pair.1 pair.2 = .lt

theorem precedes_eq (left right : Term) : precedes left right = (order left right = .lt) := by
  simp [precedes, orderShared_eq]

end Term

end SymbolicHeap
