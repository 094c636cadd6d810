import SymbolicHeap.Model.Basic

/-!
Contract: the meaning of terms under a model.

Evaluation is strict from left to right, except that a connective and a
conditional look at their first operand to decide what else to evaluate. Array
terms have no value of their own; a selection walks down the array to the
element. Where an operand has no value, neither has the term.
-/

namespace SymbolicHeap

/-- Why a term has no value. -/
inductive Unevaluated where
  | undefined
  | fault (cause : Fault)
deriving DecidableEq

/-- Values of lambda parameters, innermost first. -/
abbrev Bindings := List (String × Constant)

/-- The values that a selection gives to the parameters of a lambda. Only bound
variables take one; a later parameter hides an earlier one of its name. -/
def bindParameters : List Term → List Constant → Bindings → Bindings
  | .bound name _ :: parameters, value :: values, bindings =>
      bindParameters parameters values ((name, value) :: bindings)
  | _ :: parameters, _ :: values, bindings => bindParameters parameters values bindings
  | _, _, bindings => bindings

/-- The operator on constants. Connectives are decided before their right
operand is known, so they have no entry of their own here. -/
def BinaryOp.onConstants? : BinaryOp → Option (Constant → Constant → Constant)
  | .add => some Constant.add
  | .sub => some Constant.sub
  | .equals => some Constant.equals
  | .lessThan => some Constant.lessThan
  | .lessOrEqual => some Constant.lessOrEqual
  | .and | .or => none

/-- The value of the left operand that settles a connective. -/
def BinaryOp.absorbing : BinaryOp → Bool
  | .or => true
  | _ => false

namespace Model

def orFault {α : Type} : Except Fault α → Except Unevaluated α
  | .ok value => .ok value
  | .error cause => .error (.fault cause)

def truthValue (value : Constant) : Except Unevaluated Bool :=
  match value.asBool? with
  | some truth => .ok truth
  | none => .error .undefined

/-- A result that is no value leaves the term without one. -/
def proper (value : Constant) : Except Unevaluated Constant :=
  if value.isBottom then .error .undefined else .ok value

mutual

def eval (model : Model) : Bindings → Term → Except Unevaluated Constant
  | _, .const value => proper value
  | _, .var name sort =>
      if sort.isArray then .error .undefined
      else do
        match model.assignment.find? name with
        | some value => proper value
        | none => proper (← orFault (Constant.default sort))
  | bindings, .bound name _ =>
      match bindings.lookup name with
      | some value => proper value
      | none => .error .undefined
  | bindings, .binary operator left right => do
      let leftValue ← eval model bindings left
      match operator.onConstants? with
      | some operation => proper (operation leftValue (← eval model bindings right))
      | none =>
          if (← truthValue leftValue) = operator.absorbing then
            return .bool operator.absorbing
          else eval model bindings right
  | bindings, .negation operand => do proper (← eval model bindings operand).not
  | bindings, .conditional condition consequent alternate => do
      if ← truthValue (← eval model bindings condition) then eval model bindings consequent
      else eval model bindings alternate
  | bindings, .subtype operand typeName => do
      let address ← eval model bindings operand
      return .bool (model.subtypes.contains (address, typeName))
  | bindings, .inputRead region key => do
      let indices ← evalAll model bindings key
      proper (← orFault (model.lookupArray region.baseArrayName indices region.valueSort))
  | bindings, .selection array indices => do
      proper (← evalSelection model bindings array (← evalAll model bindings indices))
  | _, .arrayConst _ _ | _, .constArray _ _ | _, .update _ _ _ | _, .lambda _ _ =>
      .error .undefined

def evalAll (model : Model) : Bindings → List Term → Except Unevaluated (List Constant)
  | _, [] => .ok []
  | bindings, head :: tail => do
      let value ← eval model bindings head
      return value :: (← evalAll model bindings tail)

/-- The element of an array term at known indices. -/
def evalSelection (model : Model) :
    Bindings → Term → List Constant → Except Unevaluated Constant
  | _, .arrayConst name sort, indices => orFault (model.lookupArray name indices sort.range)
  | _, .var name sort, indices =>
      if sort.isArray then orFault (model.lookupArray name indices sort.range)
      else .error .undefined
  | bindings, .constArray value _, _ => eval model bindings value
  | bindings, .update array stored value, indices => do
      if (← evalAll model bindings stored) = indices then eval model bindings value
      else evalSelection model bindings array indices
  | bindings, .lambda parameters body, indices =>
      eval model (bindParameters parameters indices bindings) body
  | bindings, .conditional condition consequent alternate, indices => do
      if ← truthValue (← eval model bindings condition) then
        evalSelection model bindings consequent indices
      else evalSelection model bindings alternate indices
  | _, _, _ => .error .undefined

end

end Model

end SymbolicHeap
