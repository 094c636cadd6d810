import SymbolicHeap.Fault

/-!
Contract: known scalar values and their arithmetic.

Integers wrap at their width. A reference is null, an object allocated by the
run, or an object that existed before it. `bottom` is the result of an
operation that has no result; it propagates and never equals anything.

Owns:
- constants, their sorts, order and printed form;
- the partial operations on constants, with `bottom` outside their domain;
- the default value of each scalar sort.
-/

namespace SymbolicHeap

inductive Constant where
  | bottom
  | bool (value : Bool)
  | i32 (value : Int32)
  | i64 (value : Int64)
  | null
  | heap (address : UInt32)
  | input (address : UInt32)
deriving DecidableEq

namespace Constant

instance : Inhabited Constant := ⟨.bottom⟩

def sort : Constant → ValueSort
  | .bottom | .bool _ => .bool
  | .i32 _ => .i32
  | .i64 _ => .i64
  | .null | .heap _ | .input _ => .reference

def isBottom : Constant → Bool
  | .bottom => true
  | _ => false

def asBool? : Constant → Option Bool
  | .bool value => some value
  | _ => none

/-- The integer held, widened to 64 bits. -/
def asInt? : Constant → Option Int64
  | .i32 value => some value.toInt64
  | .i64 value => some value
  | _ => none

/-- The integer constant of a sort. Only `i32` truncates; every other sort
takes the 64-bit constant. -/
def ofInt (value : Int64) : ValueSort → Constant
  | .i32 => .i32 value.toInt32
  | _ => .i64 value

/-- What a location of the sort holds before anything is written to it. -/
def default : ValueSort → Except Fault Constant
  | .bool => .ok (.bool false)
  | .i32 => .ok (.i32 0)
  | .i64 => .ok (.i64 0)
  | .reference => .ok .null
  | .array _ _ => .error .arrayDefault

/-! ## References as numbers -/

/-- Null is zero, allocated objects are positive, input objects negative. -/
def ordinal? : Constant → Option Int
  | .null => some 0
  | .heap address => some address.toNat
  | .input address => some (-address.toNat)
  | _ => none

/-- The reference with an ordinal, if its address fits. -/
def ofOrdinal? (ordinal : Int) : Option Constant :=
  if ordinal = 0 then some .null
  else if UInt32.size ≤ ordinal.natAbs then none
  else if 0 < ordinal then some (.heap (UInt32.ofNat ordinal.natAbs))
  else some (.input (UInt32.ofNat ordinal.natAbs))

/-! ## Operations -/

def add : Constant → Constant → Constant
  | .i32 left, .i32 right => .i32 (left + right)
  | .i64 left, .i64 right => .i64 (left + right)
  | _, _ => .bottom

def sub : Constant → Constant → Constant
  | .i32 left, .i32 right => .i32 (left - right)
  | .i64 left, .i64 right => .i64 (left - right)
  | _, _ => .bottom

def equals (left right : Constant) : Constant :=
  if left.isBottom || right.isBottom then .bottom else .bool (left = right)

def lessThan (left right : Constant) : Constant :=
  match left.asInt?, right.asInt? with
  | some leftValue, some rightValue => .bool (leftValue < rightValue)
  | _, _ => .bottom

def lessOrEqual (left right : Constant) : Constant :=
  match left.asInt?, right.asInt? with
  | some leftValue, some rightValue => .bool (leftValue ≤ rightValue)
  | _, _ => .bottom

def not : Constant → Constant
  | .bool value => .bool !value
  | _ => .bottom

/-! ## Order -/

def rank : Constant → Nat
  | .bottom => 0
  | .bool _ => 1
  | .i32 _ => 2
  | .i64 _ => 3
  | .null => 4
  | .heap _ => 5
  | .input _ => 6

def payload : Constant → Int
  | .bottom | .null => 0
  | .bool value => if value then 1 else 0
  | .i32 value => value.toInt
  | .i64 value => value.toInt
  | .heap address | .input address => address.toNat

/-- Constants compare by kind, then by the number they hold. -/
def order (left right : Constant) : Ordering :=
  (compare left.rank right.rank).then (compare left.payload right.payload)

instance : Ord Constant := ⟨order⟩

private theorem eq_of_rank_of_payload {left right : Constant} (sameRank : left.rank = right.rank)
    (samePayload : left.payload = right.payload) : left = right := by
  cases left <;> cases right <;> cases sameRank
  case bottom.bottom => rfl
  case null.null => rfl
  case bool.bool left right =>
    revert samePayload
    cases left <;> cases right <;> simp [payload]
  case i32.i32 => exact congrArg _ (Int32.toInt_inj.1 samePayload)
  case i64.i64 => exact congrArg _ (Int64.toInt_inj.1 samePayload)
  case heap.heap => exact congrArg _ (UInt32.toNat_inj.1 (Int.ofNat_inj.1 samePayload))
  case input.input => exact congrArg _ (UInt32.toNat_inj.1 (Int.ofNat_inj.1 samePayload))

theorem order_eq_iff (left right : Constant) : order left right = .eq ↔ left = right := by
  simp only [order, Ordering.then_eq_eq, Std.LawfulEqOrd.compare_eq_iff_eq]
  constructor
  · rintro ⟨sameRank, samePayload⟩
    exact eq_of_rank_of_payload sameRank samePayload
  · rintro rfl
    exact ⟨rfl, rfl⟩

theorem order_swap (left right : Constant) : (order left right).swap = order right left := by
  simp only [order, Ordering.swap_then]
  rw [← Std.OrientedOrd.eq_swap, ← Std.OrientedOrd.eq_swap]

/-! ## Printed form -/

def text : Constant → String
  | .bottom => "BOTTOM"
  | .bool value => if value then "true" else "false"
  | .i32 value => toString value.toInt ++ "i32"
  | .i64 value => toString value.toInt ++ "i64"
  | .null => "null"
  | .heap address => "0x" ++ toString address.toNat
  | .input address => "in" ++ toString address.toNat

end Constant

end SymbolicHeap
