import SymbolicHeap.Model.Eval
import SymbolicHeap.Term.Equality

/-!
Contract: evaluation that meets each shared sub-term once.

The cache holds values of terms evaluated outside every lambda. It is asked
everywhere, inside lambda bodies too: a term that has a value without bindings
has the same value under any.
-/

namespace SymbolicHeap

abbrev EvalCache := List (Term × Constant)

abbrev CachedEval := ExceptT Unevaluated (StateM EvalCache)

namespace Model

/-- Answers from the cache, or computes a value and keeps it for later. Only
values that depend on no binding are kept. -/
def remembered
    (bindings : Bindings)
    (term : Term)
    (compute : CachedEval Constant) :
    CachedEval Constant := do
  match term.lookup (← get) with
  | some value => return value
  | none =>
      let value ← proper (← compute)
      if bindings.isEmpty then modify ((term, value) :: ·)
      return value

mutual

def cachedEval (model : Model) : Bindings → Term → CachedEval Constant
  | bindings, .const value => remembered bindings (.const value) (pure value)
  | bindings, .var name sort => remembered bindings (.var name sort) do
      if sort.isArray then throw .undefined
      else
        match model.assignment.find? name with
        | some value => return value
        | none => orFault (Constant.default sort)
  | bindings, .bound name sort => remembered bindings (.bound name sort) do
      match bindings.lookup name with
      | some value => return value
      | none => throw .undefined
  | bindings, .binary operator left right => remembered bindings (.binary operator left right) do
      let leftValue ← cachedEval model bindings left
      match operator.onConstants? with
      | some operation => return operation leftValue (← cachedEval model bindings right)
      | none =>
          if (← truthValue leftValue) = operator.absorbing then
            return .bool operator.absorbing
          else cachedEval model bindings right
  | bindings, .negation operand => remembered bindings (.negation operand) do
      return (← cachedEval model bindings operand).not
  | bindings, .conditional condition consequent alternate =>
      remembered bindings (.conditional condition consequent alternate) do
        if ← truthValue (← cachedEval model bindings condition) then
          cachedEval model bindings consequent
        else cachedEval model bindings alternate
  | bindings, .subtype operand typeName => remembered bindings (.subtype operand typeName) do
      let address ← cachedEval model bindings operand
      return .bool (model.subtypes.contains (address, typeName))
  | bindings, .inputRead region key => remembered bindings (.inputRead region key) do
      let indices ← cachedEvalAll model bindings key
      orFault (model.lookupArray region.baseArrayName indices region.valueSort)
  | bindings, .selection array indices => remembered bindings (.selection array indices) do
      cachedSelection model bindings array (← cachedEvalAll model bindings indices)
  | bindings, .arrayConst name sort =>
      remembered bindings (.arrayConst name sort) (throw .undefined)
  | bindings, .constArray value sort =>
      remembered bindings (.constArray value sort) (throw .undefined)
  | bindings, .update array indices value =>
      remembered bindings (.update array indices value) (throw .undefined)
  | bindings, .lambda parameters body =>
      remembered bindings (.lambda parameters body) (throw .undefined)

def cachedEvalAll (model : Model) : Bindings → List Term → CachedEval (List Constant)
  | _, [] => return []
  | bindings, head :: tail => do
      let value ← cachedEval model bindings head
      return value :: (← cachedEvalAll model bindings tail)

/-- The element of an array term at known indices. -/
def cachedSelection (model : Model) : Bindings → Term → List Constant → CachedEval Constant
  | _, .arrayConst name sort, indices => orFault (model.lookupArray name indices sort.range)
  | _, .var name sort, indices =>
      if sort.isArray then orFault (model.lookupArray name indices sort.range)
      else throw .undefined
  | bindings, .constArray value _, _ => cachedEval model bindings value
  | bindings, .update array stored value, indices => do
      if (← cachedEvalAll model bindings stored) = indices then cachedEval model bindings value
      else cachedSelection model bindings array indices
  | bindings, .lambda parameters body, indices =>
      cachedEval model (bindParameters parameters indices bindings) body
  | bindings, .conditional condition consequent alternate, indices => do
      if ← truthValue (← cachedEval model bindings condition) then
        cachedSelection model bindings consequent indices
      else cachedSelection model bindings alternate indices
  | _, _, _ => throw .undefined

end

/-- The value of a term, if it has one. The term is pooled, so that its cached
sub-terms are found by their nodes. -/
def evaluate (model : Model) (term : Term) : Except Fault (Option Constant) :=
  match ((model.cachedEval [] (pooled term)).run.run []).1 with
  | .ok value => .ok (some value)
  | .error .undefined => .ok none
  | .error (.fault cause) => .error cause

end Model

end SymbolicHeap
