import SymbolicHeap.Collections.Sets

/-!
Contract: maps in symbolic memory.

A map is the set of its keys and a value for each key. The value of a key
means something only while the key is a member.
-/

namespace SymbolicHeap

/-- The regions of maps of one type. -/
structure MapRegions where
  values : RegionId
  keys : SetRegions

namespace MapRegions

def ofType (mapType : String) (keySort valueSort : ValueSort) : MapRegions :=
  ⟨.mapValue mapType keySort valueSort, .ofType mapType keySort⟩

def ids (regions : MapRegions) : List RegionId := regions.values :: regions.keys.ids

def size (regions : MapRegions) (memory : Memory) (map : Term) : Except Fault Term :=
  regions.keys.size memory map

def contains (regions : MapRegions) (memory : Memory) (map key : Term) : Except Fault Term :=
  regions.keys.contains memory map key

def get (regions : MapRegions) (memory : Memory) (map key : Term) : Except Fault Term :=
  memory.read regions.values (Memory.elementKey map key)

/-- Sets the value of a key and makes the key a member. Whether it was one is
asked before anything is written. -/
def put (regions : MapRegions) (memory : Memory) (map key value guard : Term) :
    MemoryUpdate := do
  let wasMember ← regions.contains memory map key
  let memory ← memory.write regions.values (Memory.elementKey map key) value guard
  regions.keys.enter memory map key wasMember guard

/-- Makes a key no member. -/
def remove (regions : MapRegions) (memory : Memory) (map key guard : Term) : MemoryUpdate :=
  regions.keys.remove memory map key guard

/-- Lays the entries of one map over another. -/
def mergeInto (regions : MapRegions) (memory : Memory) (destination source guard : Term) :
    MemoryUpdate := do
  let size ← regions.keys.jointSize memory destination source
  let ends : OverlayEnds := ⟨source, destination⟩
  let memory ← memory.overlaid regions.values regions.keys.members ends guard
  let memory ← memory.overlaid regions.keys.members regions.keys.members ends guard
  regions.keys.setSize memory destination size guard

end MapRegions

end SymbolicHeap
