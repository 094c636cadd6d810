/-!
Contract: the sorts that tag symbolic values.

Scalars are Booleans, two widths of wrapping integers and references. An array
sort lists the sorts of its indices and the sort of its elements.

Owns:
- the sort type, its total order and decidable equality;
- the printed form of a sort.
-/

namespace SymbolicHeap

inductive ValueSort where
  | bool
  | i32
  | i64
  | reference
  | array (domain : List ValueSort) (range : ValueSort)

namespace ValueSort

instance : Inhabited ValueSort := ⟨.bool⟩

def isInteger : ValueSort → Bool
  | .i32 | .i64 => true
  | _ => false

def isReference : ValueSort → Bool
  | .reference => true
  | _ => false

def isArray : ValueSort → Bool
  | .array _ _ => true
  | _ => false

/-- Width of the sort as a machine word; arrays have none. -/
def bitLength : ValueSort → Nat
  | .bool => 1
  | .i32 => 32
  | .i64 | .reference => 64
  | .array _ _ => 0

/-- Element sort of an array; a scalar is its own range. -/
def range : ValueSort → ValueSort
  | .array _ elements => elements
  | scalar => scalar

def domain : ValueSort → List ValueSort
  | .array indices _ => indices
  | _ => []

/-! ## Order and equality -/

def rank : ValueSort → Nat
  | .bool => 0
  | .i32 => 1
  | .i64 => 2
  | .reference => 3
  | .array _ _ => 4

mutual

/-- Scalars come before arrays; arrays compare by domain, then by range. -/
def order : ValueSort → ValueSort → Ordering
  | .array leftDomain leftRange, .array rightDomain rightRange =>
      (orderList leftDomain rightDomain).then (order leftRange rightRange)
  | left, right => compare left.rank right.rank

/-- Lexicographic order, a proper initial part first. -/
def orderList : List ValueSort → List ValueSort → Ordering
  | [], [] => .eq
  | [], _ :: _ => .lt
  | _ :: _, [] => .gt
  | left :: lefts, right :: rights => (order left right).then (orderList lefts rights)

end

mutual

theorem order_eq_iff : (left right : ValueSort) → (order left right = .eq ↔ left = right)
  | .array leftDomain leftRange, .array rightDomain rightRange => by
      rw [order, Ordering.then_eq_eq, orderList_eq_iff leftDomain rightDomain,
        order_eq_iff leftRange rightRange, array.injEq]
  | .array _ _, .bool | .array _ _, .i32 | .array _ _, .i64 | .array _ _, .reference => by
      simp [order, rank, compare, compareOfLessAndEq]
  | .bool, right | .i32, right | .i64, right | .reference, right => by
      cases right <;> simp [order, rank, compare, compareOfLessAndEq]

theorem orderList_eq_iff :
    (lefts rights : List ValueSort) → (orderList lefts rights = .eq ↔ lefts = rights)
  | [], [] => by simp [orderList]
  | [], _ :: _ => by simp [orderList]
  | _ :: _, [] => by simp [orderList]
  | left :: lefts, right :: rights => by
      rw [orderList, Ordering.then_eq_eq, order_eq_iff left right,
        orderList_eq_iff lefts rights, List.cons.injEq]

end

mutual

theorem order_swap : (left right : ValueSort) → (order left right).swap = order right left
  | .array leftDomain leftRange, .array rightDomain rightRange => by
      rw [order, order, Ordering.swap_then, orderList_swap leftDomain rightDomain,
        order_swap leftRange rightRange]
  | .array _ _, .bool | .array _ _, .i32 | .array _ _, .i64 | .array _ _, .reference => by
      simp [order, rank, compare, compareOfLessAndEq]
  | .bool, right | .i32, right | .i64, right | .reference, right => by
      cases right <;> simp [order, rank, compare, compareOfLessAndEq]

theorem orderList_swap :
    (lefts rights : List ValueSort) → (orderList lefts rights).swap = orderList rights lefts
  | [], [] => by simp [orderList]
  | [], _ :: _ => by simp [orderList]
  | _ :: _, [] => by simp [orderList]
  | left :: lefts, right :: rights => by
      rw [orderList, orderList, Ordering.swap_then, order_swap left right,
        orderList_swap lefts rights]

end

instance : DecidableEq ValueSort := fun left right =>
  decidable_of_iff _ (order_eq_iff left right)

/-! ## Printed form -/

mutual

def text : ValueSort → String
  | .bool => "bool"
  | .i32 => "i32"
  | .i64 => "i64"
  | .reference => "ref"
  | .array indices elements => "(array" ++ textList indices ++ " " ++ text elements ++ ")"

/-- Every sort of the list behind a blank of its own. -/
def textList : List ValueSort → String
  | [] => ""
  | head :: tail => " " ++ text head ++ textList tail

end

end ValueSort

end SymbolicHeap
