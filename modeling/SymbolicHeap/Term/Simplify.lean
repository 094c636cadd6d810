import SymbolicHeap.Term.Equality

/-!
Contract: constructors that simplify while they build.

Each operation returns a term that means the same as the plain node for its
operands, in the first shape of its list of rules that applies. The rules look
at the operands only; what they do not decide stays a plain node.

Owns:
- offset arithmetic, connectives, conditionals, comparisons;
- array reads that skip the writes known to be elsewhere.
-/

namespace SymbolicHeap

namespace Term

/-- The result of an operation on two constants, unless it has none. -/
def folded? (operation : Constant → Constant → Constant) : Term → Term → Option Term
  | .const left, .const right =>
      let result := operation left right
      if result.isBottom then none else some (.const result)
  | _, _ => none

/-! ## Sums and differences -/

/-- The symbolic part of an integer, if there is one, and what is added to it. -/
def offsetParts (term : Term) : Option Term × Int64 :=
  match term.asInt? with
  | some offset => (none, offset)
  | none =>
      match term with
      | .binary .add base offset =>
          match offset.asInt? with
          | some offset => (some base, offset)
          | none => (some term, 0)
      | .binary .sub base offset =>
          match offset.asInt? with
          | some offset => (some base, -offset)
          | none => (some term, 0)
      | _ => (some term, 0)

/-- A base moved by an offset: a sum for a positive one, a difference for a
negative one, the base itself for zero. -/
def withOffset (base : Option Term) (offset : Int64) (sort : ValueSort) : Term :=
  match base with
  | none => ofInt offset sort
  | some base =>
      if offset = 0 then base
      else if 0 < offset then .binary .add base (ofInt offset sort)
      else .binary .sub base (ofInt (-offset) sort)

def add (left right : Term) : Term :=
  match folded? Constant.add left right with
  | some result => result
  | none =>
      match offsetParts left, offsetParts right with
      | (base, leftOffset), (none, rightOffset) =>
          withOffset base (leftOffset + rightOffset) left.sort
      | (none, leftOffset), (base, rightOffset) =>
          withOffset base (leftOffset + rightOffset) left.sort
      | _, _ => .binary .add left right

def sub (left right : Term) : Term :=
  match folded? Constant.sub left right with
  | some result => result
  | none =>
      match offsetParts left, offsetParts right with
      | (base, leftOffset), (none, rightOffset) =>
          withOffset base (leftOffset - rightOffset) left.sort
      | (some leftBase, leftOffset), (some rightBase, rightOffset) =>
          if leftBase = rightBase then ofInt (leftOffset - rightOffset) left.sort
          else .binary .sub left right
      | _, _ => .binary .sub left right

/-! ## Connectives -/

def not (operand : Term) : Term :=
  match operand.asBool? with
  | some value => ofBool !value
  | none =>
      match operand with
      | .negation inner => inner
      | _ => .negation operand

/-- One term is the other one under a negation. A negation on the left is
compared with the right term only. -/
def isNegationOf : Term → Term → Bool
  | .negation operand, right => operand = right
  | left, .negation operand => operand = left
  | _, _ => false

def and (left right : Term) : Term :=
  match left.asBool?, right.asBool? with
  | some false, _ => ofBool false
  | _, some false => ofBool false
  | some true, _ => right
  | _, some true => left
  | none, none =>
      if left = right then right
      else if left.isNegationOf right then ofBool false
      else .binary .and left right

def or (left right : Term) : Term :=
  match left.asBool?, right.asBool? with
  | some true, _ => ofBool true
  | _, some true => ofBool true
  | some false, _ => right
  | _, some false => left
  | none, none =>
      if left = right then right
      else if left.isNegationOf right then ofBool true
      else .binary .or left right

/-! ## Conditionals -/

/-- A conditional whose branches decide it: equal branches are the result, and
a known Boolean branch turns the conditional into a connective. -/
def settled? (condition consequent alternate : Term) : Option Term :=
  if consequent = alternate then some consequent
  else if consequent.sort = .bool then
    match consequent.asBool?, alternate.asBool? with
    | some true, some false => some condition
    | some false, some true => some condition.not
    | some true, none => some (condition.or alternate)
    | some false, none => some (condition.not.and alternate)
    | none, some false => some (condition.and consequent)
    | none, some true => some (condition.not.or consequent)
    | _, _ => none
  else none

/-- Builds a conditional; where the alternate asks the same condition again,
only its own alternate is reachable. -/
def iteAlternate (condition consequent : Term) : Term → Term
  | .conditional inner innerConsequent innerAlternate =>
      let alternate := .conditional inner innerConsequent innerAlternate
      match settled? condition consequent alternate with
      | some result => result
      | none =>
          if inner = condition then iteAlternate condition consequent innerAlternate
          else .conditional condition consequent alternate
  | alternate =>
      match settled? condition consequent alternate with
      | some result => result
      | none => .conditional condition consequent alternate

/-- Builds a conditional; where the consequent asks the same condition again,
only its own consequent is reachable. -/
def iteConsequent (condition alternate : Term) : Term → Term
  | .conditional inner innerConsequent innerAlternate =>
      let consequent := .conditional inner innerConsequent innerAlternate
      match settled? condition consequent alternate with
      | some result => result
      | none =>
          if inner = condition then iteConsequent condition alternate innerConsequent
          else iteAlternate condition consequent alternate
  | consequent => iteAlternate condition consequent alternate

/-- If the first term holds the second, otherwise the third. A negated
condition exchanges the branches. -/
def ite : Term → Term → Term → Term
  | .const value, consequent, alternate =>
      match value.asBool? with
      | some true => consequent
      | some false => alternate
      | none => iteConsequent (.const value) alternate consequent
  | .negation operand, consequent, alternate =>
      if consequent = alternate then consequent else ite operand alternate consequent
  | condition, consequent, alternate => iteConsequent condition alternate consequent

/-! ## Comparisons -/

def isHeapAddress : Term → Bool
  | .const (.heap _) => true
  | _ => false

/-- An equality that needs no node of its own: operands that are the same or
both known, an allocated object against an input object, a Boolean against a
known one. -/
def equalsKnown? (left right : Term) : Option Term :=
  if left = right ∧ left.sort.isArray = false then some (ofBool true)
  else
    match folded? Constant.equals left right with
    | some result => some result
    | none =>
        if left.isHeapAddress ∧ right.isInputReference then some (ofBool false)
        else if right.isHeapAddress ∧ left.isInputReference then some (ofBool false)
        else if left.sort = .bool then
          match left.asBool?, right.asBool? with
          | _, some true => some left
          | _, some false => some left.not
          | some true, none => some right
          | some false, none => some right.not
          | none, none => none
        else none

/-- The plain equality with its operands in ascending order, so that both ways
of writing it are one term. -/
def equalsOrdered (before : Term → Term → Bool) (left right : Term) : Term :=
  if before right left then .binary .equals right left else .binary .equals left right

/-- Equality with a constant, pushed into the branches of conditionals. -/
def equalsConstant (before : Term → Term → Bool) (value : Constant) : Term → Term
  | .conditional condition consequent alternate =>
      match equalsKnown? (.conditional condition consequent alternate) (.const value) with
      | some result => result
      | none =>
          condition.ite (equalsConstant before value consequent)
            (equalsConstant before value alternate)
  | term =>
      match equalsKnown? term (.const value) with
      | some result => result
      | none => equalsOrdered before term (.const value)

/-- Equality, with operands ordered by what comes before what. -/
def equalsBy (before : Term → Term → Bool) (left right : Term) : Term :=
  match equalsKnown? left right with
  | some result => result
  | none =>
      match left, right with
      | .conditional condition consequent alternate, .const value =>
          equalsConstant before value (.conditional condition consequent alternate)
      | .const value, .conditional condition consequent alternate =>
          equalsConstant before value (.conditional condition consequent alternate)
      | _, _ => equalsOrdered before left right

def equals (left right : Term) : Term := left.equalsBy precedes right

def notEquals (left right : Term) : Term := (left.equals right).not

def lessThan (left right : Term) : Term :=
  match folded? Constant.lessThan left right with
  | some result => result
  | none => if left = right then ofBool false else .binary .lessThan left right

def lessOrEqual (left right : Term) : Term :=
  match folded? Constant.lessOrEqual left right with
  | some result => result
  | none => if left = right then ofBool true else .binary .lessOrEqual left right

def greaterThan (left right : Term) : Term := right.lessThan left

def greaterOrEqual (left right : Term) : Term := right.lessOrEqual left

/-! ## Arrays -/

/-- Whether two index lists are known to be equal, or known to differ. Indices
without a partner are ignored. -/
def indicesMatch? (stored indices : List Term) : Option Bool :=
  let known := List.zipWith (fun index other => (equals index other).asBool?) stored indices
  if known.contains (some false) then some false
  else if known.all (· == some true) then some true
  else none

/-- The element at some indices. Writes known to be elsewhere are skipped, and
a write known to be there yields its value. -/
def select : Term → List Term → Term
  | .update array stored value, indices =>
      match indicesMatch? stored indices with
      | some false => select array indices
      | some true => value
      | none => .selection (.update array stored value) indices
  | .constArray value _, _ => value
  | array, indices => .selection array indices

/-- The array with the element at some indices replaced. Writing back what is
there changes nothing. -/
def store (array : Term) (indices : List Term) (value : Term) : Term :=
  match value with
  | .selection source selected =>
      if source = array ∧ selected = indices then array else .update array indices value
  | _ => .update array indices value

end Term

end SymbolicHeap
