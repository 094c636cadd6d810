import SymbolicHeap.Reference
import SymbolicHeap.Region.Basic

/-!
Contract: reading a region by folding its updates.

A read looks at the entries of a log from the newest to the oldest. An entry
known not to cover the location is passed over, one known to cover it ends the
search, and any other becomes a choice between its value and the rest. Below
all entries lies what was stored directly, or what was there before execution.
-/

namespace SymbolicHeap

/-- The value stored directly in an object. A symbolic secondary key chooses
among the stored ones. -/
def storedValue
    (region : RegionId)
    (values : OrderedMap (Option Constant) Term)
    (secondary : Option Term) :
    Except Fault Term := do
  let fallback ← region.defaultValue
  match secondary with
  | none => return (values.find? none).getD fallback
  | some (.const slot) => return (values.find? (some slot)).getD fallback
  | some key =>
      return values.entries.foldr
        (fun stored rest =>
          match stored.1 with
          | some slot => (key.equals (.const slot)).ite stored.2 rest
          | none => rest)
        fallback

mutual

def Region.read : Region → Key → Except Fault Term
  | ⟨id, objects, input, _⟩, key =>
      let readLeaf (address : Address) : Except Fault Term :=
        let leafKey := key.withAddress address.toTerm
        match address with
        | .null => id.defaultValue
        | .object number => readObject id objects number leafKey
        | .symbolic _ => readLog input leafKey (.ok (.inputRead id leafKey.components))
      if key.address.isConditional then do
        let values ← (splitReference key.address (.ofBool true)).mapM fun leaf => do
          return (leaf.guard, ← readLeaf leaf.address)
        return joinLeaves (← id.defaultValue) values
      else readLeaf (.classify key.address)

/-- Reads a location of one allocated object. -/
def readObject (region : RegionId) : List ObjectStore → UInt32 → Key → Except Fault Term
  | [], _, _ => region.defaultValue
  | ⟨address, values, updates⟩ :: rest, wanted, key =>
      if address = wanted then readLog updates key (storedValue region values key.secondary)
      else readObject region rest wanted key

/-- Reads a location through a log; `base` is what lies below its entries. -/
def readLog : List Node → Key → Except Fault Term → Except Fault Term
  | [], _, base => base
  | ⟨_, entry, _⟩ :: older, key, base => do
      let covers ← entry.includes key
      match covers.asBool? with
      | some false => readLog older key base
      | some true => entry.valueAt key
      | none =>
          let value ← entry.valueAt key
          return covers.ite value (← readLog older key base)

/-- Holds where an entry determines a location, unless a newer one does. -/
def Entry.includes : Entry → Key → Except Fault Term
  | .write written _ guard, key => .ok ((written.equals key).and guard)
  | .copy _ range guard, key =>
      if guard.asBool? = some false then .ok guard
      else do return (← range.includes key).and guard
  | .overlay _ members ends guard, key =>
      let sameObject := ends.destinationAddress.equals key.address
      if guard.asBool? = some false then .ok guard
      else if sameObject.asBool? = some false then .ok (sameObject.and guard)
      else do return (sameObject.and (← members.read (ends.convert key))).and guard

/-- The value of a location that an entry covers. -/
def Entry.valueAt : Entry → Key → Except Fault Term
  | .write _ value _, _ => .ok value
  | .copy source range _, key => source.read (range.convert key)
  | .overlay source _ ends _, key => source.read (ends.convert key)

end

namespace Region

/-- Reads an allocated object at a key whatever the key's own address. -/
def readAllocated (region : Region) (address : UInt32) (key : Key) : Except Fault Term :=
  readObject region.id region.objects address key

/-- Reads an input location. -/
def readInput (region : Region) (key : Key) : Except Fault Term :=
  readLog region.input key (.ok (region.placeholder key))

/-- The value stored directly in an allocated object, below its own log. -/
def allocatedBase
    (region : Region)
    (address : UInt32)
    (secondary : Option Term) :
    Except Fault Term :=
  storedValue region.id (region.object address).values secondary

end Region

end SymbolicHeap
