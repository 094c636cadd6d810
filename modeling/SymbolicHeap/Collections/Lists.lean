import SymbolicHeap.Collections.Basic

/-!
Contract: lists in symbolic memory.

A list is an array of elements and a length. Inserting and removing shift the
tail by one copied range.
-/

namespace SymbolicHeap

/-- The regions of lists of one type. -/
structure ListRegions where
  elements : RegionId
  length : RegionId

namespace ListRegions

def ofType (listType : String) (elementSort : ValueSort) : ListRegions :=
  ⟨.arrayElement listType elementSort, .arrayLength listType⟩

def ids (regions : ListRegions) : List RegionId := [regions.elements, regions.length]

def size (regions : ListRegions) (memory : Memory) (list : Term) : Except Fault Term :=
  memory.read regions.length (Memory.fieldKey list)

def get (regions : ListRegions) (memory : Memory) (list index : Term) : Except Fault Term :=
  memory.read regions.elements (Memory.elementKey list index)

def set
    (regions : ListRegions)
    (memory : Memory)
    (list index value guard : Term) :
    Fresh Memory :=
  memory.write regions.elements (Memory.elementKey list index) value guard

def setSize
    (regions : ListRegions)
    (memory : Memory)
    (list size guard : Term) :
    Fresh Memory :=
  memory.write regions.length (Memory.fieldKey list) size guard

/-- Appends an element. -/
def add (regions : ListRegions) (memory : Memory) (list value guard : Term) :
    MemoryUpdate := do
  let size ← regions.size memory list
  let memory ← regions.set memory list size value guard
  regions.setSize memory list (size.add sizeOne) guard

/-- Inserts an element; those from the index on move up by one. -/
def insert (regions : ListRegions) (memory : Memory) (list index value guard : Term) :
    MemoryUpdate := do
  let size ← regions.size memory list
  let memory ← memory.copied regions.elements
    ⟨list, index, list, index.add sizeOne, size.add sizeOne⟩ guard
  let memory ← regions.set memory list index value guard
  regions.setSize memory list (size.add sizeOne) guard

/-- Removes an element; those behind it move down by one. -/
def remove (regions : ListRegions) (memory : Memory) (list index guard : Term) :
    MemoryUpdate := do
  let size ← regions.size memory list
  let rest := size.sub sizeOne
  let memory ← memory.copied regions.elements
    ⟨list, index.add sizeOne, list, index, rest⟩ guard
  regions.setSize memory list rest guard

end ListRegions

end SymbolicHeap
