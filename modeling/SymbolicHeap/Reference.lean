import SymbolicHeap.Term.Simplify

/-!
Contract: references split into the addresses they may be.

A reference shaped as nested conditionals is a choice between addresses.
`splitReference` lists them with the conditions under which they are meant;
`joinLeaves` builds one term from a value for each of them.
-/

namespace SymbolicHeap

/-- What a reference without a conditional can be. -/
inductive Address where
  | null
  /-- An object allocated by the run. -/
  | object (address : UInt32)
  /-- An input object, or a reference read from input memory. -/
  | symbolic (reference : Term)
deriving DecidableEq

namespace Address

def classify : Term → Address
  | .const .null => .null
  | .const (.heap address) => .object address
  | reference => .symbolic reference

def toTerm : Address → Term
  | .null => .null
  | .object address => .const (.heap address)
  | .symbolic reference => reference

def isObject : Address → Bool
  | .object _ => true
  | _ => false

end Address

/-- An address and the condition under which the reference is that address. -/
structure Leaf where
  address : Address
  guard : Term
deriving DecidableEq

/-- The addresses of a reference in their written order, each under the part of
`guard` that leads to it. Addresses under a guard known to fail are left out. -/
def splitReference : Term → Term → List Leaf
  | .conditional condition consequent alternate, guard =>
      if guard.asBool? = some false then []
      else
        splitReference consequent (guard.and condition) ++
          splitReference alternate (guard.and condition.not)
  | reference, guard =>
      if guard.asBool? = some false then [] else [⟨.classify reference, guard⟩]

/-- A choice between values by their guards. The last value needs no test,
since the guards of a split exhaust it; no value at all gives `fallback`. -/
def joinLeaves (fallback : Term) : List (Term × Term) → Term
  | [] => fallback
  | [(_, value)] => value
  | (guard, value) :: rest => guard.ite value (joinLeaves fallback rest)

end SymbolicHeap
