import SymbolicHeap.ArrayTheory.Session
import SymbolicHeap.Term.Simplify

/-!
Contract: terms without placeholders.

The contents of a location before execution become a selection from the base
array of its region; every other node is built again from its encoded
operands, simplified on the way.
-/

namespace SymbolicHeap

/-- The uninterpreted array that holds a region before execution. -/
def RegionId.baseArray (region : RegionId) : Term :=
  .arrayConst region.baseArrayName region.inputArraySort

/-- The simplifying constructor of an operator. -/
def BinaryOp.build : BinaryOp → Term → Term → Term
  | .add => Term.add
  | .sub => Term.sub
  | .equals => Term.equals
  | .lessThan => Term.lessThan
  | .lessOrEqual => Term.lessOrEqual
  | .and => Term.and
  | .or => Term.or

namespace Term

mutual

/-- Encodes a term that is pooled with the session. -/
def encodeNode : Term → Encoding Term
  | .const value => Encoding.remembered (.const value) (pure (.const value))
  | .var name sort => Encoding.remembered (.var name sort) (pure (.var name sort))
  | .bound name sort => Encoding.remembered (.bound name sort) (pure (.bound name sort))
  | .arrayConst name sort =>
      Encoding.remembered (.arrayConst name sort) (pure (.arrayConst name sort))
  | .binary operator left right => Encoding.remembered (.binary operator left right) do
      let left ← encodeNode left
      return operator.build left (← encodeNode right)
  | .negation operand => Encoding.remembered (.negation operand) do
      return (← encodeNode operand).not
  | .conditional condition consequent alternate =>
      Encoding.remembered (.conditional condition consequent alternate) do
        let condition ← encodeNode condition
        let consequent ← encodeNode consequent
        return condition.ite consequent (← encodeNode alternate)
  | .subtype operand typeName => Encoding.remembered (.subtype operand typeName) do
      return .subtype (← encodeNode operand) typeName
  | .inputRead region key => Encoding.remembered (.inputRead region key) do
      return region.baseArray.select (← encodeNodes key)
  | .constArray value sort => Encoding.remembered (.constArray value sort) do
      return .constArray (← encodeNode value) sort
  | .selection array indices => Encoding.remembered (.selection array indices) do
      let array ← encodeNode array
      return array.select (← encodeNodes indices)
  | .update array indices value => Encoding.remembered (.update array indices value) do
      let array ← encodeNode array
      let indices ← encodeNodes indices
      return array.store indices (← encodeNode value)
  | .lambda parameters body => Encoding.remembered (.lambda parameters body) do
      return .lambda parameters (← encodeNode body)

def encodeNodes : List Term → Encoding (List Term)
  | [] => return []
  | head :: tail => do
      let result ← encodeNode head
      return result :: (← encodeNodes tail)

end

/-- Encodes a term. It is pooled with what the session remembers first. -/
def encode (term : Term) : Encoding Term := do
  let pair := pooled (term, ← get)
  set pair.2
  encodeNode pair.1

def encodeAll : List Term → Encoding (List Term)
  | [] => return []
  | head :: tail => do
      let result ← encode head
      return result :: (← encodeAll tail)

theorem encode_eq_encodeNode (term : Term) : term.encode = term.encodeNode := rfl

theorem encodeAll_eq_encodeNodes (terms : List Term) : encodeAll terms = encodeNodes terms := by
  induction terms with
  | nil => rfl
  | cons head tail inductionHypothesis =>
      rw [encodeAll, encodeNodes, inductionHypothesis, encode_eq_encodeNode]

end Term

end SymbolicHeap
