import SymbolicHeap.Term.Basic

/-!
Contract: the printed form of terms.

Terms print as parenthesised operators in front of their operands. Names print
as they are. The operands of an equality stand in ascending order of their own
printed forms, whichever way the term holds them.
-/

namespace SymbolicHeap

/-- A list of texts in brackets, with a comma and a blank between them. -/
def bracketed (texts : List String) : String :=
  "[" ++ String.intercalate ", " texts ++ "]"

/-- An operator and its operands in parentheses. -/
def applied (operator : String) (operands : List String) : String :=
  "(" ++ String.intercalate " " (operator :: operands) ++ ")"

namespace BinaryOp

def text : BinaryOp → String
  | .add => "+"
  | .sub => "-"
  | .equals => "="
  | .lessThan => "<"
  | .lessOrEqual => "<="
  | .and => "and"
  | .or => "or"

/-- Whether the operator's operands print in ascending order of their texts. -/
def sortsOperands : BinaryOp → Bool
  | .equals => true
  | _ => false

end BinaryOp

namespace Term

mutual

def text : Term → String
  | .const value => value.text
  | .var name _ | .bound name _ | .arrayConst name _ => name
  | .binary operator left right =>
      let leftText := text left
      let rightText := text right
      if operator.sortsOperands ∧ rightText < leftText then
        applied operator.text [rightText, leftText]
      else applied operator.text [leftText, rightText]
  | .negation operand => applied "not" [text operand]
  | .conditional condition consequent alternate =>
      applied "ite" [text condition, text consequent, text alternate]
  | .subtype operand typeName => applied "subtype" [text operand, typeName]
  | .inputRead region key => region.text ++ bracketed (texts key)
  | .constArray value _ => applied "const" [text value]
  | .selection array indices => applied "select" [text array, bracketed (texts indices)]
  | .update array indices value =>
      applied "store" [text array, bracketed (texts indices), text value]
  | .lambda parameters body => applied "lambda" [bracketed (texts parameters), text body]

def texts : List Term → List String
  | [] => []
  | head :: tail => text head :: texts tail

end

end Term

end SymbolicHeap
