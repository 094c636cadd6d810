import SymbolicHeap.Term.Simplify

/-!
Contract: the keys of memory locations.

A key is the address of an object and, where the region asks for one, an index
or a map key.
-/

namespace SymbolicHeap

structure Key where
  address : Term
  secondary : Option Term
deriving DecidableEq

namespace Key

def withAddress (key : Key) (address : Term) : Key := { key with address }

def components (key : Key) : List Term := key.address :: key.secondary.toList

/-- Holds where both keys denote one location. Secondary keys count only when
both keys have one. -/
def equals (left right : Key) : Term :=
  let sameAddress := left.address.equals right.address
  match left.secondary, right.secondary with
  | some leftSecondary, some rightSecondary =>
      sameAddress.and (leftSecondary.equals rightSecondary)
  | _, _ => sameAddress

end Key

end SymbolicHeap
