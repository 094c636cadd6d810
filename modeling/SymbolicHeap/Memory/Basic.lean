import SymbolicHeap.Region.Read
import SymbolicHeap.Region.Write

/-!
Contract: the memory of one execution state.

A memory is a stack of register frames, one region for each identity that was
written, and the objects allocated so far with their dynamic types. Addresses
are handed out densely from one on. Values are persistent: a copy of a memory
shares everything and later updates of either side stay invisible to the other.

Owns:
- registers, allocation, region updates and reads;
- the merge of two memories under a guard.
-/

namespace SymbolicHeap

/-- Registers by number. -/
abbrev Frame := OrderedMap Nat Term

structure Memory where
  /-- Innermost frame first. -/
  frames : List Frame
  regions : OrderedMap RegionId Region
  types : OrderedMap UInt32 String
  nextAddress : UInt32
  owner : Owner

namespace Memory

def empty (owner : Owner) : Memory := ⟨[], .empty, .empty, 1, owner⟩

def create : Fresh Memory := do return empty (← Fresh.owner)

/-- The same memory under an owner of its own. -/
def withNewOwner (memory : Memory) : Fresh Memory := do
  return { memory with owner := ← Fresh.owner }

/-! ## Registers -/

def pushFrame (memory : Memory) : Memory :=
  { memory with frames := .empty :: memory.frames }

def popFrame (memory : Memory) : Memory := { memory with frames := memory.frames.tail }

def currentFrame (memory : Memory) : Frame := memory.frames.head?.getD .empty

def register? (memory : Memory) (index : Nat) : Option Term := memory.currentFrame.find? index

/-- Sets a register of the innermost frame. A memory without frames gets one. -/
def setRegister (memory : Memory) (index : Nat) (value : Term) : Memory :=
  { memory with frames := memory.currentFrame.insert index value :: memory.frames.tail }

/-! ## Allocation -/

/-- A new object of a dynamic type, and its address. -/
def allocate (memory : Memory) (typeName : String) : Term × Memory :=
  (.const (.heap memory.nextAddress),
    { memory with
      types := memory.types.insert memory.nextAddress typeName
      nextAddress := memory.nextAddress + 1 })

def typeOf? (memory : Memory) (address : UInt32) : Option String := memory.types.find? address

/-! ## Regions -/

/-- The region of an identity; one that was never written is empty. -/
def regionFor (memory : Memory) (id : RegionId) : Region :=
  (memory.regions.find? id).getD (.empty id memory.owner)

/-- Puts a region in place, held by the owner of the memory. -/
def setRegion (memory : Memory) (id : RegionId) (region : Region) : Memory :=
  { memory with regions := memory.regions.insert id { region with owner := memory.owner } }

def read (memory : Memory) (id : RegionId) (key : Key) : Except Fault Term :=
  (memory.regionFor id).read key

def write (memory : Memory) (id : RegionId) (key : Key) (value guard : Term) : Fresh Memory := do
  return memory.setRegion id (← (memory.regionFor id).write key value guard)

/-- Puts the outcome of a ranged update in place. A refused update leaves the
region as it was, yet the region counts as written from then on. -/
def settle
    (memory : Memory)
    (id : RegionId)
    (outcome : Except Fault Region) :
    Except Fault Unit × Memory :=
  match outcome with
  | .ok region => (.ok (), memory.setRegion id region)
  | .error fault => (.error fault, memory.setRegion id (memory.regionFor id))

/-- Copies a range between arrays of one region. -/
def copyRange
    (memory : Memory)
    (id : RegionId)
    (range : CopyRange)
    (guard : Term) :
    Fresh (Except Fault Unit × Memory) := do
  let region := memory.regionFor id
  return memory.settle id (← (region.copyRange region range guard).run)

/-- Lays one map of a region over another; `members` is the region of the
source map's keys. -/
def overlay
    (memory : Memory)
    (id members : RegionId)
    (ends : OverlayEnds)
    (guard : Term) :
    Fresh (Except Fault Unit × Memory) := do
  let region := memory.regionFor id
  return memory.settle id (← (region.overlay region (memory.regionFor members) ends guard).run)

/-! ## Merging -/

/-- One frame for two that define the same registers. -/
def mergeFrames (left right : Frame) (guard : Term) : Except Fault Frame := do
  let merged ← left.entries.foldlM
    (fun (merged : Frame) register =>
      match right.find? register.1 with
      | some value => .ok (merged.insert register.1 (guard.ite register.2 value))
      | none => .error (.merge (.register register.1)))
    .empty
  match right.keys.find? fun index => !left.contains index with
  | some index => .error (.merge (.register index))
  | none => .ok merged

/-- Frames merge pairwise, the outermost pair first. -/
def mergeStacks (guard : Term) : List Frame → List Frame → Except Fault (List Frame)
  | left :: lefts, right :: rights => do
      let outer ← mergeStacks guard lefts rights
      return (← mergeFrames left right guard) :: outer
  | [], [] => .ok []
  | _, _ => .error (.merge .frames)

/-- What both memories must agree on before anything is merged. -/
def checkMergeable (left right : Memory) : Except Fault Unit :=
  if left.nextAddress ≠ right.nextAddress then .error (.merge .allocationCounter)
  else if left.types.entries ≠ right.types.entries then .error (.merge .allocatedTypes)
  else if left.frames.length ≠ right.frames.length then .error (.merge .frames)
  else .ok ()

/-- One memory for two. It reads like the left one where the guard holds and
like the right one elsewhere. -/
def merge (left right : Memory) (guard : Term) (owner : Owner) : ExceptT Fault Fresh Memory := do
  checkMergeable left right
  let frames ← mergeStacks guard left.frames right.frames
  let regions ← (left.regions.unionKeys right.regions).foldlM
    (fun (regions : OrderedMap RegionId Region) id => do
      let region ← (left.regionFor id).merge (right.regionFor id) guard owner
      return regions.insert id region)
    .empty
  return { frames, regions, types := left.types, nextAddress := left.nextAddress, owner }

end Memory

end SymbolicHeap
