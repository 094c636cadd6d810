import SymbolicHeap.Memory.Basic

/-!
Contract: memory updates in sequence, for collections.

A collection is an object whose contents lie in several regions. The helpers
below write one of them and go on with the memory that results.
-/

namespace SymbolicHeap

/-- Updates of a memory that may stop. -/
abbrev MemoryUpdate := ExceptT Fault Fresh Memory

namespace Memory

def fieldKey (object : Term) : Key := ⟨object, none⟩

def elementKey (object secondary : Term) : Key := ⟨object, some secondary⟩

/-- A range copy that must be accepted. -/
def copied (memory : Memory) (id : RegionId) (range : CopyRange) (guard : Term) :
    MemoryUpdate := do
  let (outcome, next) ← memory.copyRange id range guard
  outcome
  return next

/-- An overlay that must be accepted. -/
def overlaid (memory : Memory) (id members : RegionId) (ends : OverlayEnds) (guard : Term) :
    MemoryUpdate := do
  let (outcome, next) ← memory.overlay id members ends guard
  outcome
  return next

end Memory

/-- One, as a size. -/
def sizeOne : Term := .ofInt 1 .i32

end SymbolicHeap
