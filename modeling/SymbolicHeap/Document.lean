import SymbolicHeap.Term.Text

/-!
Contract: structured records of values, for dumps.

Owns: the record type and the record of each sort, constant, region identity
and term. A case of a choice is a record with one field, named for the case;
a case without data is its bare name.
-/

namespace SymbolicHeap

inductive Document where
  | null
  | flag (value : Bool)
  | number (value : Int)
  | text (value : String)
  | list (items : List Document)
  | fields (entries : List (String × Document))

namespace Document

def case (name : String) (contents : Document) : Document :=
  .fields [(name, contents)]

def optional {α : Type} (encode : α → Document) : Option α → Document
  | some value => encode value
  | none => .null

end Document

namespace ValueSort

mutual

def document : ValueSort → Document
  | .bool => .text "Bool"
  | .i32 => .text "I32"
  | .i64 => .text "I64"
  | .reference => .text "Reference"
  | .array indices elements =>
      .case "Array" (.fields [("domain", .list (documents indices)), ("range", document elements)])

def documents : List ValueSort → List Document
  | [] => []
  | head :: tail => document head :: documents tail

end

end ValueSort

def Constant.document : Constant → Document
  | .bottom => .text "Bottom"
  | .bool value => .text (if value then "True" else "False")
  | .i32 value => .case "I32" (.number value.toInt)
  | .i64 value => .case "I64" (.number value.toInt)
  | .null => .text "Null"
  | .heap address => .case "HeapAddress" (.number address.toNat)
  | .input address => .case "InputAddress" (.number address.toNat)

namespace RegionId

def kindName : RegionId → String
  | .field _ _ => "Field"
  | .arrayElement _ _ => "ArrayElement"
  | .arrayLength _ => "ArrayLength"
  | .mapValue _ _ _ => "MapValue"
  | .mapContains _ _ => "MapContains"
  | .mapLength _ => "MapLength"

def document (region : RegionId) : Document :=
  .case region.kindName <| .fields <|
    match region with
    | .field name sort => [("field", .text name), ("sort", sort.document)]
    | .arrayElement arrayType sort =>
        [("array_type", .text arrayType), ("sort", sort.document)]
    | .arrayLength arrayType => [("array_type", .text arrayType)]
    | .mapValue mapType keySort sort =>
        [("map_type", .text mapType), ("key_sort", keySort.document), ("sort", sort.document)]
    | .mapContains mapType keySort =>
        [("map_type", .text mapType), ("key_sort", keySort.document)]
    | .mapLength mapType => [("map_type", .text mapType)]

end RegionId

def BinaryOp.caseName : BinaryOp → String
  | .add => "Add"
  | .sub => "Sub"
  | .equals => "Equals"
  | .lessThan => "LessThan"
  | .lessOrEqual => "LessOrEqual"
  | .and => "And"
  | .or => "Or"

namespace Term

def node (shape : String) (contents : Document) : Document :=
  .case "expression" (.case shape contents)

mutual

/-- A term's record; the operands of an equality stand in the order in which
they print. -/
def document : Term → Document
  | .const value => node "CompileTimeConstant" value.document
  | .var name sort =>
      node "Variable" (.fields [("name", .text name), ("var_type", sort.document)])
  | .bound name sort =>
      node "BoundVariable" (.fields [("name", .text name), ("var_type", sort.document)])
  | .binary operator left right =>
      let operands :=
        if operator.sortsOperands ∧ right.text < left.text then (document right, document left)
        else (document left, document right)
      node operator.caseName (.fields [("left", operands.1), ("right", operands.2)])
  | .negation operand => node "LogicalNot" (.fields [("operand", document operand)])
  | .conditional condition consequent alternate =>
      node "ConditionalExpression" <| .fields
        [("condition", document condition), ("consequent", document consequent),
          ("alternate", document alternate)]
  | .subtype operand typeName =>
      node "IsSubtype" (.fields [("operand", document operand), ("type_name", .text typeName)])
  | .inputRead region key =>
      node "InputRead" (.fields [("region", region.document), ("key", .list (documents key))])
  | .arrayConst name sort =>
      node "ArrayConstant" (.fields [("name", .text name), ("array_type", sort.document)])
  | .constArray value sort =>
      node "ConstantArray" (.fields [("value", document value), ("array_type", sort.document)])
  | .selection array indices =>
      node "Select" (.fields [("array", document array), ("indices", .list (documents indices))])
  | .update array indices value =>
      node "Store" <| .fields
        [("array", document array), ("indices", .list (documents indices)),
          ("value", document value)]
  | .lambda parameters body =>
      node "ArrayLambda" (.fields
        [("parameters", .list (documents parameters)), ("body", document body)])

def documents : List Term → List Document
  | [] => []
  | head :: tail => document head :: documents tail

end

end Term

end SymbolicHeap
