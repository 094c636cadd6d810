import SymbolicHeap.Document
import SymbolicHeap.PathCondition.Basic

/-!
Contract: printed form and record of a path condition.
-/

namespace SymbolicHeap

def ConstraintKind.text : ConstraintKind → String
  | .logical => "Logical"
  | .numeric => "Numeric"
  | .equality => "Equality"
  | .typing => "Type"

/-- The printed forms of terms, as a list. -/
def termsDocument (terms : List Term) : Document := .list (terms.map fun term => .text term.text)

namespace PathCondition

def text (condition : PathCondition) : String :=
  match condition.core? with
  | some core => "contradiction " ++ bracketed (core.map Term.text)
  | none => bracketed (condition.constraints.map Term.text)

def document (condition : PathCondition) : Document :=
  .fields
    [("false", .flag condition.isFalse),
      ("logical", termsDocument condition.logical.ordered),
      ("numeric", termsDocument condition.numeric.ordered),
      ("equality", termsDocument condition.equality.ordered),
      ("type", termsDocument condition.typing.ordered),
      ("core", .optional termsDocument condition.core?),
      ("all", termsDocument condition.constraints)]

end PathCondition

end SymbolicHeap
