import SymbolicHeap.Memory.Basic
import SymbolicHeap.Region.Text

/-!
Contract: printed form and record of a memory.
-/

namespace SymbolicHeap

namespace Memory

def regionList (memory : Memory) : List Region := memory.regions.entries.map Prod.snd

/-- One line for each region that was written, by identity. -/
def summary (memory : Memory) : List String := memory.regionList.map Region.text

def text (memory : Memory) : String :=
  recordText "Memory"
    [("frames", toString memory.frames.length),
      ("regions", bracketed memory.summary),
      ("next_address", toString memory.nextAddress.toNat)]

/-- The registers of the innermost frame, by number. -/
def registersDocument (memory : Memory) : Document :=
  .list (memory.currentFrame.entries.map fun register =>
    .list [.number register.1, .text register.2.text])

def document (memory : Memory) : Document :=
  .fields
    [("frames", .number memory.frames.length),
      ("registers", memory.registersDocument),
      ("next", .number memory.nextAddress.toNat),
      ("regions", .list (memory.regionList.map fun region =>
        .fields (region.fields ++ [("owned", .flag (region.owner = memory.owner))])))]

end Memory

end SymbolicHeap
