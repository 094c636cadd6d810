import SymbolicHeap.Constant

/-!
Contract: symbolic values as terms.

A term is plain data. Nothing forces it to be well sorted: every constructor
accepts every operand, and the sort of a term is computed from its shape.
Array terms describe heap contents for a solver; `inputRead` stands for the
contents of a location before execution.

Owns:
- the term type, the sort of a term and what is known of it without a model;
- a total order on terms.
-/

namespace SymbolicHeap

inductive BinaryOp where
  | add
  | sub
  | equals
  | lessThan
  | lessOrEqual
  | and
  | or
deriving DecidableEq

namespace BinaryOp

def rank : BinaryOp → Nat
  | .add => 0
  | .sub => 1
  | .equals => 2
  | .lessThan => 3
  | .lessOrEqual => 4
  | .and => 5
  | .or => 6

/-- Sums and differences have the sort of their left operand; all other
operators are predicates. -/
def resultSort (leftSort : ValueSort) : BinaryOp → ValueSort
  | .add | .sub => leftSort
  | .equals | .lessThan | .lessOrEqual | .and | .or => .bool

private theorem rank_inj {left right : BinaryOp} : left.rank = right.rank ↔ left = right := by
  cases left <;> cases right <;> simp [rank]

end BinaryOp

inductive Term where
  | const (value : Constant)
  | var (name : String) (sort : ValueSort)
  /-- A lambda parameter; it means something inside the lambda's body only. -/
  | bound (name : String) (sort : ValueSort)
  | binary (operator : BinaryOp) (left right : Term)
  | negation (operand : Term)
  | conditional (condition consequent alternate : Term)
  /-- The object's dynamic type is the named type or below it. -/
  | subtype (operand : Term) (typeName : String)
  /-- The contents of a location before execution. -/
  | inputRead (region : RegionId) (key : List Term)
  /-- An uninterpreted array. -/
  | arrayConst (name : String) (sort : ValueSort)
  /-- The array that holds one value everywhere. -/
  | constArray (value : Term) (sort : ValueSort)
  | selection (array : Term) (indices : List Term)
  | update (array : Term) (indices : List Term) (value : Term)
  | lambda (parameters : List Term) (body : Term)

namespace Term

instance : Inhabited Term := ⟨.const .bottom⟩

/-! ## Sorts -/

mutual

def sort : Term → ValueSort
  | .const value => value.sort
  | .var _ declared | .bound _ declared => declared
  | .arrayConst _ declared | .constArray _ declared => declared
  | .binary operator left _ => operator.resultSort left.sort
  | .negation _ | .subtype _ _ => .bool
  | .conditional _ consequent _ => consequent.sort
  | .inputRead region _ => region.valueSort
  | .selection array _ => array.sort.range
  | .update array _ _ => array.sort
  | .lambda parameters body => .array (sorts parameters) body.sort

def sorts : List Term → List ValueSort
  | [] => []
  | head :: tail => head.sort :: sorts tail

end

/-! ## Known values -/

def ofBool (value : Bool) : Term := .const (.bool value)

/-- The integer constant of a sort, as `Constant.ofInt` builds it. -/
def ofInt (value : Int64) (sort : ValueSort) : Term := .const (.ofInt value sort)

def null : Term := .const .null

def asConstant? : Term → Option Constant
  | .const value => some value
  | _ => none

def asBool? : Term → Option Bool
  | .const value => value.asBool?
  | _ => none

def asInt? : Term → Option Int64
  | .const value => value.asInt?
  | _ => none

def isConstant : Term → Bool
  | .const _ => true
  | _ => false

def isConditional : Term → Bool
  | .conditional _ _ _ => true
  | _ => false

/-- References to objects that existed before execution. None of them is an
object that the run allocates. -/
def isInputReference : Term → Bool
  | .var _ declared => declared.isReference
  | .inputRead region _ => region.valueSort.isReference
  | _ => false

/-! ## Order -/

def rank : Term → Nat
  | .const _ => 0
  | .var _ _ => 1
  | .bound _ _ => 2
  | .binary _ _ _ => 3
  | .negation _ => 4
  | .conditional _ _ _ => 5
  | .subtype _ _ => 6
  | .inputRead _ _ => 7
  | .arrayConst _ _ => 8
  | .constArray _ _ => 9
  | .selection _ _ => 10
  | .update _ _ _ => 11
  | .lambda _ _ => 12

mutual

/-- Terms compare by shape, then component by component. -/
def order : Term → Term → Ordering
  | .const left, .const right => left.order right
  | .var left leftSort, .var right rightSort =>
      (compare left right).then (leftSort.order rightSort)
  | .bound left leftSort, .bound right rightSort =>
      (compare left right).then (leftSort.order rightSort)
  | .binary leftOp left left', .binary rightOp right right' =>
      (compare leftOp.rank rightOp.rank).then ((order left right).then (order left' right'))
  | .negation left, .negation right => order left right
  | .conditional left left' left'', .conditional right right' right'' =>
      (order left right).then ((order left' right').then (order left'' right''))
  | .subtype left leftName, .subtype right rightName =>
      (order left right).then (compare leftName rightName)
  | .inputRead left leftKey, .inputRead right rightKey =>
      (left.order right).then (orderList leftKey rightKey)
  | .arrayConst left leftSort, .arrayConst right rightSort =>
      (compare left right).then (leftSort.order rightSort)
  | .constArray left leftSort, .constArray right rightSort =>
      (order left right).then (leftSort.order rightSort)
  | .selection left leftIndices, .selection right rightIndices =>
      (order left right).then (orderList leftIndices rightIndices)
  | .update left leftIndices left', .update right rightIndices right' =>
      (order left right).then ((orderList leftIndices rightIndices).then (order left' right'))
  | .lambda leftParameters left, .lambda rightParameters right =>
      (orderList leftParameters rightParameters).then (order left right)
  | left, right => compare left.rank right.rank

/-- Lexicographic order, a proper initial part first. -/
def orderList : List Term → List Term → Ordering
  | [], [] => .eq
  | [], _ :: _ => .lt
  | _ :: _, [] => .gt
  | left :: lefts, right :: rights => (order left right).then (orderList lefts rights)

end

mutual

theorem order_eq_iff : (left right : Term) → (order left right = .eq ↔ left = right)
  | .const left, right => by
      cases right <;> simp [order, rank, Constant.order_eq_iff]
  | .var _ _, right => by
      cases right <;> simp [order, rank, ValueSort.order_eq_iff]
  | .bound _ _, right => by
      cases right <;> simp [order, rank, ValueSort.order_eq_iff]
  | .binary _ left left', right => by
      have leftSame := order_eq_iff left
      have rightSame := order_eq_iff left'
      cases right <;> simp [order, rank, leftSame, rightSame, BinaryOp.rank_inj]
  | .negation left, right => by
      have same := order_eq_iff left
      cases right <;> simp [order, rank, same]
  | .conditional left left' left'', right => by
      have conditionSame := order_eq_iff left
      have consequentSame := order_eq_iff left'
      have alternateSame := order_eq_iff left''
      cases right <;> simp [order, rank, conditionSame, consequentSame, alternateSame]
  | .subtype left _, right => by
      have same := order_eq_iff left
      cases right <;> simp [order, rank, same]
  | .inputRead _ leftKey, right => by
      have keySame := orderList_eq_iff leftKey
      cases right <;> simp [order, rank, keySame, RegionId.order_eq_iff]
  | .arrayConst _ _, right => by
      cases right <;> simp [order, rank, ValueSort.order_eq_iff]
  | .constArray left _, right => by
      have same := order_eq_iff left
      cases right <;> simp [order, rank, same, ValueSort.order_eq_iff]
  | .selection left leftIndices, right => by
      have arraySame := order_eq_iff left
      have indicesSame := orderList_eq_iff leftIndices
      cases right <;> simp [order, rank, arraySame, indicesSame]
  | .update left leftIndices left', right => by
      have arraySame := order_eq_iff left
      have indicesSame := orderList_eq_iff leftIndices
      have valueSame := order_eq_iff left'
      cases right <;> simp [order, rank, arraySame, indicesSame, valueSame]
  | .lambda leftParameters left, right => by
      have parametersSame := orderList_eq_iff leftParameters
      have bodySame := order_eq_iff left
      cases right <;> simp [order, rank, parametersSame, bodySame]

theorem orderList_eq_iff :
    (lefts rights : List Term) → (orderList lefts rights = .eq ↔ lefts = rights)
  | [], [] => by simp [orderList]
  | [], _ :: _ => by simp [orderList]
  | _ :: _, [] => by simp [orderList]
  | left :: lefts, right :: rights => by
      rw [orderList, Ordering.then_eq_eq, order_eq_iff left right,
        orderList_eq_iff lefts rights, List.cons.injEq]

end

end Term

end SymbolicHeap
