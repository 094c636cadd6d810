import SymbolicHeap.Reference
import SymbolicHeap.Region.Basic

/-!
Contract: updates of a region.

Every update goes to each address that its reference may be, under the guard
of that address; nothing is written through null. The merge of two regions
reads like the left one where its guard holds and like the right one elsewhere.
-/

namespace SymbolicHeap

namespace Region

/-- Appends an entry to the log that an address belongs to. -/
def pushEntry (region : Region) (address : Address) (entry : Entry) : Fresh Region :=
  match address with
  | .null => pure region
  | .object number => do
      let object := region.object number
      return region.setObject { object with updates := ← Log.push object.updates entry }
  | .symbolic _ => do
      return { region with input := ← Log.push region.input entry }

/-- The slot of a direct write; a symbolic secondary key has none. -/
def directSlot? : Option Term → Option (Option Constant)
  | none => some none
  | some (.const slot) => some (some slot)
  | some _ => none

/-- Writes to one address. A write that certainly happens, at a known slot of
an object without a log, replaces the stored value. -/
def writeLeaf (region : Region) (key : Key) (value : Term) (leaf : Leaf) : Fresh Region :=
  let entry := .write (key.withAddress leaf.address.toTerm) value leaf.guard
  match leaf.address, directSlot? key.secondary with
  | .object number, some slot =>
      let object := region.object number
      if object.updates.isEmpty ∧ leaf.guard.asBool? = some true then
        pure (region.setObject { object with values := object.values.insert slot value })
      else region.pushEntry leaf.address entry
  | _, _ => region.pushEntry leaf.address entry

def write (region : Region) (key : Key) (value guard : Term) : Fresh Region :=
  (splitReference key.address guard).foldlM (fun region leaf => region.writeLeaf key value leaf)
    region

/-- Appends an entry for each address that a reference may be. -/
def pushRanged
    (region : Region)
    (destination guard : Term)
    (entry : Term → Term → Entry) :
    Fresh Region :=
  (splitReference destination guard).foldlM
    (fun region leaf =>
      region.pushEntry leaf.address (entry leaf.address.toTerm leaf.guard))
    region

/-- Copies a range of elements from a region of the same identity. -/
def copyRange
    (region source : Region)
    (range : CopyRange)
    (guard : Term) :
    ExceptT Fault Fresh Region :=
  if region.id.supportsCopy ∧ source.id = region.id then
    region.pushRanged range.destinationAddress guard fun destination leafGuard =>
      .copy source { range with destinationAddress := destination } leafGuard
  else throw (.unsupportedRangedUpdate region.id)

/-- Lays one map over another; `members` tells which keys the source map has. -/
def overlay
    (region source members : Region)
    (ends : OverlayEnds)
    (guard : Term) :
    ExceptT Fault Fresh Region :=
  if region.id.supportsMerge ∧ source.id = region.id then
    region.pushRanged ends.destinationAddress guard fun destination leafGuard =>
      .overlay source members { ends with destinationAddress := destination } leafGuard
  else throw (.unsupportedRangedUpdate region.id)

/-! ## Merging -/

/-- The stored values of two versions of an object; a slot that one of them
lacks has the default there. -/
def mergeValues
    (fallback guard : Term)
    (left right : OrderedMap (Option Constant) Term) :
    OrderedMap (Option Constant) Term :=
  (left.unionKeys right).foldl
    (fun merged slot =>
      merged.insert slot
        (guard.ite ((left.find? slot).getD fallback) ((right.find? slot).getD fallback)))
    .empty

def mergeObjects
    (region : RegionId)
    (guard : Term)
    (left right : ObjectStore) :
    ExceptT Fault Fresh ObjectStore := do
  let fallback ← region.defaultValue
  return {
    address := left.address
    values := mergeValues fallback guard left.values right.values
    updates := ← Log.merge left.updates right.updates guard }

/-- One region for two versions. The identity of the left one is kept. -/
def merge (left right : Region) (guard : Term) (owner : Owner) : ExceptT Fault Fresh Region := do
  let addresses :=
    left.addresses ++ right.addresses.filter fun address => address ∉ left.addresses
  let objects ← addresses.foldlM
    (fun objects address => do
      let object ← mergeObjects left.id guard (left.object address) (right.object address)
      return insertObject object objects)
    []
  return { id := left.id, objects, input := ← Log.merge left.input right.input guard, owner }

end Region

end SymbolicHeap
