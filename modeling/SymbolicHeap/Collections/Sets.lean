import SymbolicHeap.Collections.Basic

/-!
Contract: sets in symbolic memory.

A set is a membership flag for each element and a size. The size counts
members exactly under additions and removals; after a union it is the sum of
both sizes, which bounds the number of members from above.
-/

namespace SymbolicHeap

/-- The regions of sets of one type. -/
structure SetRegions where
  members : RegionId
  length : RegionId

namespace SetRegions

def ofType (setType : String) (elementSort : ValueSort) : SetRegions :=
  ⟨.mapContains setType elementSort, .mapLength setType⟩

def ids (regions : SetRegions) : List RegionId := [regions.members, regions.length]

def size (regions : SetRegions) (memory : Memory) (set : Term) : Except Fault Term :=
  memory.read regions.length (Memory.fieldKey set)

def contains (regions : SetRegions) (memory : Memory) (set element : Term) :
    Except Fault Term :=
  memory.read regions.members (Memory.elementKey set element)

def setSize (regions : SetRegions) (memory : Memory) (set size guard : Term) :
    Fresh Memory :=
  memory.write regions.length (Memory.fieldKey set) size guard

/-- Makes an element a member; the size grows where it was none before. -/
def enter (regions : SetRegions) (memory : Memory) (set element wasMember guard : Term) :
    MemoryUpdate := do
  let memory ← memory.write regions.members (Memory.elementKey set element) (.ofBool true) guard
  let size ← regions.size memory set
  regions.setSize memory set (size.add sizeOne) (guard.and wasMember.not)

/-- Adds an element. -/
def add (regions : SetRegions) (memory : Memory) (set element guard : Term) :
    MemoryUpdate := do
  let wasMember ← regions.contains memory set element
  regions.enter memory set element wasMember guard

/-- Removes an element; the size shrinks where it was a member. -/
def remove (regions : SetRegions) (memory : Memory) (set element guard : Term) :
    MemoryUpdate := do
  let wasMember ← regions.contains memory set element
  let memory ← memory.write regions.members (Memory.elementKey set element) (.ofBool false) guard
  let size ← regions.size memory set
  regions.setSize memory set (size.sub sizeOne) (guard.and wasMember)

/-- The sum of two sizes. -/
def jointSize (regions : SetRegions) (memory : Memory) (destination source : Term) :
    Except Fault Term := do
  let size ← regions.size memory destination
  return size.add (← regions.size memory source)

/-- Adds every element of one set to another. -/
def union (regions : SetRegions) (memory : Memory) (destination source guard : Term) :
    MemoryUpdate := do
  let size ← regions.jointSize memory destination source
  let memory ← memory.overlaid regions.members regions.members ⟨source, destination⟩ guard
  regions.setSize memory destination size guard

end SetRegions

end SymbolicHeap
