import SymbolicHeap.ValueSort

/-!
Contract: the names of memory regions.

A region is one column of the heap: a field, the elements or lengths of arrays
of one type, or the values, key sets or sizes of maps of one type. A location
inside it is an address and, except for the field-like kinds, a secondary key.

Owns:
- region identities with their sorts, order and printed form;
- the sort and the name of the base array that stands for a region's contents
  before execution.
-/

namespace SymbolicHeap

inductive RegionId where
  | field (name : String) (sort : ValueSort)
  | arrayElement (arrayType : String) (sort : ValueSort)
  | arrayLength (arrayType : String)
  | mapValue (mapType : String) (keySort sort : ValueSort)
  | mapContains (mapType : String) (keySort : ValueSort)
  | mapLength (mapType : String)
deriving DecidableEq

namespace RegionId

instance : Inhabited RegionId := ⟨.field "" .bool⟩

/-- Sort of the values that the region stores. -/
def valueSort : RegionId → ValueSort
  | .field _ sort | .arrayElement _ sort | .mapValue _ _ sort => sort
  | .arrayLength _ | .mapLength _ => .i32
  | .mapContains _ _ => .bool

/-- Sort of the secondary key; field-like regions have none. -/
def secondarySort : RegionId → Option ValueSort
  | .arrayElement _ _ => some .i32
  | .mapValue _ keySort _ | .mapContains _ keySort => some keySort
  | .field _ _ | .arrayLength _ | .mapLength _ => none

/-- Ranges of elements can be copied between arrays. -/
def supportsCopy : RegionId → Bool
  | .arrayElement _ _ => true
  | _ => false

/-- One map can be laid over another. -/
def supportsMerge : RegionId → Bool
  | .mapValue _ _ _ | .mapContains _ _ => true
  | _ => false

/-- Sort of the array that holds the region for all input objects. -/
def inputArraySort (region : RegionId) : ValueSort :=
  .array (.reference :: region.secondarySort.toList) region.valueSort

/-- Sort of the array that holds the region for one allocated object. -/
def objectArraySort (region : RegionId) : Option ValueSort :=
  region.secondarySort.map fun keySort => .array [keySort] region.valueSort

/-! ## Order -/

def rank : RegionId → Nat
  | .field _ _ => 0
  | .arrayElement _ _ => 1
  | .arrayLength _ => 2
  | .mapValue _ _ _ => 3
  | .mapContains _ _ => 4
  | .mapLength _ => 5

def name : RegionId → String
  | .field name _ => name
  | .arrayElement arrayType _ | .arrayLength arrayType => arrayType
  | .mapValue mapType _ _ | .mapContains mapType _ | .mapLength mapType => mapType

/-- The declared sorts, in the order in which the printed form lists them. -/
def declaredSorts : RegionId → List ValueSort
  | .field _ sort | .arrayElement _ sort => [sort]
  | .mapValue _ keySort sort => [keySort, sort]
  | .mapContains _ keySort => [keySort]
  | .arrayLength _ | .mapLength _ => []

/-- Regions compare by kind, then by name, then by their declared sorts. -/
def order (left right : RegionId) : Ordering :=
  (compare left.rank right.rank).then
    ((compare left.name right.name).then
      (ValueSort.orderList left.declaredSorts right.declaredSorts))

instance : Ord RegionId := ⟨order⟩

theorem order_eq_iff (left right : RegionId) : order left right = .eq ↔ left = right := by
  simp only [order, Ordering.then_eq_eq, Std.LawfulEqOrd.compare_eq_iff_eq,
    ValueSort.orderList_eq_iff]
  constructor
  · cases left <;> cases right <;> simp [rank, name, declaredSorts]
  · rintro rfl
    simp

theorem order_swap (left right : RegionId) : (order left right).swap = order right left := by
  simp only [order, Ordering.swap_then, ValueSort.orderList_swap]
  rw [← Std.OrientedOrd.eq_swap, ← Std.OrientedOrd.eq_swap]

/-! ## Printed form -/

def text : RegionId → String
  | .field name sort => "field<" ++ name ++ ":" ++ sort.text ++ ">"
  | .arrayElement arrayType sort => "array<" ++ arrayType ++ ":" ++ sort.text ++ ">"
  | .arrayLength arrayType => "length<" ++ arrayType ++ ">"
  | .mapValue mapType keySort sort =>
      "map<" ++ mapType ++ ":" ++ keySort.text ++ "->" ++ sort.text ++ ">"
  | .mapContains mapType keySort => "contains<" ++ mapType ++ ":" ++ keySort.text ++ ">"
  | .mapLength mapType => "size<" ++ mapType ++ ">"

/-- Name of the uninterpreted array that holds the region before execution. -/
def baseArrayName (region : RegionId) : String :=
  "input:" ++ region.text

end RegionId

end SymbolicHeap
