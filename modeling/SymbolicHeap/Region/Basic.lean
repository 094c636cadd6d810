import SymbolicHeap.Key
import SymbolicHeap.OrderedMap
import SymbolicHeap.Supply

/-!
Contract: the contents of one memory region.

A region keeps a store for each allocated object that was written and an
update log for all input objects. A store holds the values written directly;
from the first write that cannot be placed directly on, the object's own log
takes all further ones. An entry of a log writes one location, copies a range
of an array, or lays one map over another; the last two hold the region that
they read from as it was at that time.

Owns:
- logs, entries, object stores and regions;
- the versions of a log: two logs are one version when their newest nodes are
  the same node, and the nodes that two versions share are found by identity,
  on a walk down both logs that keeps to nodes of one length.
-/

namespace SymbolicHeap

/-- The elements `[destinationFrom, destinationTo)` of one array become the
elements of another from `sourceFrom` on. -/
structure CopyRange where
  sourceAddress : Term
  sourceFrom : Term
  destinationAddress : Term
  destinationFrom : Term
  destinationTo : Term
deriving DecidableEq

/-- The entries of one map become entries of another. -/
structure OverlayEnds where
  sourceAddress : Term
  destinationAddress : Term
deriving DecidableEq

mutual

inductive Entry where
  | write (key : Key) (value guard : Term)
  | copy (source : Region) (range : CopyRange) (guard : Term)
  /-- `members` tells which keys the source map had. -/
  | overlay (source members : Region) (ends : OverlayEnds) (guard : Term)

structure Node where
  id : NodeId
  entry : Entry
  /-- How many nodes the log has of which this one is the newest. -/
  length : Nat

structure ObjectStore where
  address : UInt32
  /-- The values written directly, by their constant secondary keys. -/
  values : OrderedMap (Option Constant) Term
  updates : List Node

structure Region where
  id : RegionId
  objects : List ObjectStore
  input : List Node
  owner : Owner

end

instance : Inhabited Region := ⟨⟨default, [], [], ⟨0⟩⟩⟩

/-- Update nodes, newest first. -/
abbrev Log := List Node

/-- What a location of the region holds before anything is written to it. -/
def RegionId.defaultValue (region : RegionId) : Except Fault Term := do
  return .const (← Constant.default region.valueSort)

/-! ## Ranges -/

namespace CopyRange

/-- The source location that a destination location is copied from. -/
def convert (range : CopyRange) (key : Key) : Key :=
  ⟨range.sourceAddress,
    key.secondary.map fun index => (index.sub range.destinationFrom).add range.sourceFrom⟩

/-- Holds where the range covers a location. -/
def includes (range : CopyRange) (key : Key) : Except Fault Term :=
  match key.secondary with
  | none => .error .elementKeyMissing
  | some index =>
      .ok (((range.destinationAddress.equals key.address).and
        (range.destinationFrom.lessOrEqual index)).and (index.lessThan range.destinationTo))

end CopyRange

/-- The source location that a destination location is taken from. -/
def OverlayEnds.convert (ends : OverlayEnds) (key : Key) : Key :=
  ⟨ends.sourceAddress, key.secondary⟩

/-! ## Entries and logs -/

namespace Entry

def guard : Entry → Term
  | .write _ _ guard | .copy _ _ guard | .overlay _ _ _ guard => guard

/-- Where a ranged entry writes to, and the source location that it reads for a
destination location. -/
def redirect? (key : Key) : Entry → Option (Term × Key)
  | .write _ _ _ => none
  | .copy _ range _ => some (range.destinationAddress, range.convert key)
  | .overlay _ _ ends _ => some (ends.destinationAddress, ends.convert key)

/-- The entry, applying only where a further condition holds. -/
def withGuard (condition : Term) : Entry → Entry
  | .write key value guard => .write key value (guard.and condition)
  | .copy source range guard => .copy source range (guard.and condition)
  | .overlay source members ends guard => .overlay source members ends (guard.and condition)

end Entry

namespace Log

/-- The number of nodes, as the newest one has it. -/
def size (log : Log) : Nat := (log.head?.map Node.length).getD 0

def push (log : Log) (entry : Entry) : Fresh Log := do
  return ⟨← Fresh.node, entry, log.size + 1⟩ :: log

/-- Identity of the newest node. -/
def version (log : Log) : Option NodeId := log.head?.map Node.id

def sameVersion (left right : Log) : Bool := left.version = right.version

/-- What two logs have each for itself, newest first, and the log that both end
in. -/
structure Ancestry where
  onlyLeft : Log
  onlyRight : Log
  shared : Log

namespace Ancestry

def passLeft (node : Node) (ancestry : Ancestry) : Ancestry :=
  { ancestry with onlyLeft := node :: ancestry.onlyLeft }

def passRight (node : Node) (ancestry : Ancestry) : Ancestry :=
  { ancestry with onlyRight := node :: ancestry.onlyRight }

end Ancestry

/-- Goes down the right log until a node of the left log is met or `below`, the
walk for the older nodes of the left log, takes over. Of two different nodes the
one of the longer log is passed, and both are if their logs are equally long. -/
def ancestryFrom (node : Node) (older : Log) (below : Log → Ancestry) : Log → Ancestry
  | [] => ⟨node :: older, [], []⟩
  | other :: rest =>
      if node.id = other.id then ⟨[], [], node :: older⟩
      else if other.length < node.length then (below (other :: rest)).passLeft node
      else if node.length < other.length then
        (ancestryFrom node older below rest).passRight other
      else ((below rest).passRight other).passLeft node

/-- Walks down two logs to the newest node that both have. -/
def ancestry : Log → Log → Ancestry
  | [], right => ⟨[], right, []⟩
  | node :: older, right => ancestryFrom node older (ancestry older) right

/-- Pushes the entries of some nodes, the oldest first, under one more guard. -/
def replay (condition : Term) : Log → Log → Fresh Log
  | [], onto => pure onto
  | node :: older, onto => do
      let log ← replay condition older onto
      push log (node.entry.withGuard condition)

/-- One log for two versions: what only the right one has applies where the
guard fails, what only the left one has applies where it holds. -/
def merge (left right : Log) (guard : Term) : Fresh Log :=
  if left.sameVersion right then pure left
  else do
    let split := ancestry left right
    let log ← replay guard.not split.onlyRight split.shared
    replay guard split.onlyLeft log

end Log

/-! ## Objects of a region -/

namespace ObjectStore

def empty (address : UInt32) : ObjectStore := ⟨address, .empty, []⟩

end ObjectStore

namespace Region

def empty (id : RegionId) (owner : Owner) : Region := ⟨id, [], [], owner⟩

def object? (region : Region) (address : UInt32) : Option ObjectStore :=
  region.objects.find? fun object => object.address = address

/-- The store of an object; one that was never written is empty. -/
def object (region : Region) (address : UInt32) : ObjectStore :=
  (region.object? address).getD (.empty address)

def addresses (region : Region) : List UInt32 := region.objects.map ObjectStore.address

/-- Replaces the store of an address, or places a new one in ascending order. -/
def insertObject (object : ObjectStore) : List ObjectStore → List ObjectStore
  | [] => [object]
  | head :: tail =>
      if object.address = head.address then object :: tail
      else if object.address < head.address then object :: head :: tail
      else head :: insertObject object tail

def setObject (region : Region) (object : ObjectStore) : Region :=
  { region with objects := insertObject object region.objects }

/-- The contents of an input location before execution. -/
def placeholder (region : Region) (key : Key) : Term := .inputRead region.id key.components

end Region

end SymbolicHeap
