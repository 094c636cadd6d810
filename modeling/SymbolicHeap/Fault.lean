import SymbolicHeap.RegionId

/-!
Contract: every way in which an operation on symbolic memory can stop.

The first group are broken calling conventions: after one of them nothing is
promised about the values at hand. The second group are refusals that leave
the caller with usable values.
-/

namespace SymbolicHeap

/-- Reasons for which two states or memories cannot become one. -/
inductive MergeConflict where
  | location
  | callStack
  | register (index : Nat)
  | frames
  | allocationCounter
  | allocatedTypes
  | equalityConstraints
  | infeasible
  | terminated
deriving DecidableEq

def MergeConflict.message : MergeConflict → String
  | .location => "the states are at different program locations"
  | .callStack => "the states have different call stacks"
  | .register index => "register " ++ toString index ++ " is defined in only one of the states"
  | .frames => "the states have different register frames"
  | .allocationCounter => "the states have allocated different numbers of objects"
  | .allocatedTypes => "the states have allocated objects of different types"
  | .equalityConstraints => "the states have different reference equality constraints"
  | .infeasible => "one of the states has contradicting path constraints"
  | .terminated => "one of the states has terminated"

inductive Fault where
  | arrayDefault
  | elementKeyMissing
  | objectArrayMissing
  | objectKeyMissing
  | rangeLengthOverflow
  | merge (conflict : MergeConflict)
  | unsupportedRangedUpdate (region : RegionId)
  | terminated
deriving DecidableEq

namespace Fault

/-- Whether the fault is a broken calling convention. -/
def isViolation : Fault → Bool
  | .arrayDefault | .elementKeyMissing | .objectArrayMissing | .objectKeyMissing
  | .rangeLengthOverflow => true
  | .merge _ | .unsupportedRangedUpdate _ | .terminated => false

/-- Whether the exploration can go on without the operation that was refused. -/
def isRecoverable : Fault → Bool
  | .merge _ | .terminated => true
  | _ => false

def message : Fault → String
  | .arrayDefault => unreachableCode "arrays have no scalar default value"
  | .elementKeyMissing => unreachableCode "array copies need element keys"
  | .objectArrayMissing => unreachableCode "field-like regions have no per-object arrays"
  | .objectKeyMissing => unreachableCode "per-object arrays need a secondary key"
  | .rangeLengthOverflow => "attempt to subtract with overflow"
  | .merge conflict => "merge failed: " ++ conflict.message
  | .unsupportedRangedUpdate region =>
      "region " ++ region.text ++ " does not support ranged updates"
  | .terminated => "the state has terminated"
where
  unreachableCode (reason : String) : String :=
    "internal error: entered unreachable code: " ++ reason

end Fault

end SymbolicHeap
