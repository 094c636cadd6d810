import SymbolicHeap.ArrayTheory.Value
import SymbolicHeap.Region.Read

/-!
Contract: regions as array terms.

The input objects of a region share one array, indexed by address and
secondary key; an allocated object has an array of its own, indexed by the
secondary key. Update logs replay on top of these arrays. A copied range of
known small length becomes a write for each element; any other ranged update
becomes a lambda that chooses between the source and what was there before.
-/

namespace SymbolicHeap

/-- What indexes the array that a log replays on. -/
inductive KeyShape where
  | input
  | object

/-- The indices that a key stands for. -/
def keyIndices (key : Key) : KeyShape → PartialEncoding (List Term)
  | .input => Term.encodeAll key.components
  | .object =>
      match key.secondary with
      | some secondary => do return [← secondary.encode]
      | none => throw .objectKeyMissing

/-- The array of an object that was never written. -/
def emptyObjectArray (region : RegionId) : Except Fault Term :=
  match region.objectArraySort with
  | some sort => do return .constArray (← region.defaultValue) sort
  | none => .error .objectArrayMissing

/-- The array of what an object stores directly. -/
def storedArray
    (region : RegionId)
    (values : OrderedMap (Option Constant) Term) :
    PartialEncoding Term := do
  values.entries.foldlM
    (fun array stored =>
      match stored.1 with
      | some slot => do return array.store [.const slot] (← stored.2.encode)
      | none => pure array)
    (← emptyObjectArray region)

/-- An entry that writes one location: the new value where its guard holds, the
previous element elsewhere. -/
def encodeWrite
    (shape : KeyShape)
    (previous : Term)
    (key : Key)
    (value guard : Term) :
    PartialEncoding Term := do
  let indices ← keyIndices key shape
  let value ← value.encode
  let guard ← guard.encode
  if guard.asBool? = some true then return previous.store indices value
  else return previous.store indices (guard.ite value (previous.select indices))

/-- What a ranged update covers and provides, location by location. -/
structure RangedSource where
  destination : Term
  /-- Bounds of the destination range, where they are known. -/
  bounds? : Option (Int64 × Int64)
  includes : Key → PartialEncoding Term
  value : Key → PartialEncoding Term

namespace RangedSource

/-- The indices of a range that is short enough to be written out. -/
def unrolled? (source : RangedSource) (limit : Nat) : Except Fault (Option (List Int64)) :=
  match source.bounds? with
  | none => .ok none
  | some (first, last) =>
      let length := last.toInt - first.toInt
      if length < 0 then .ok none
      else if Int64.maxValue.toInt < length then .error .rangeLengthOverflow
      else if limit < length then .ok none
      else .ok (some ((List.range length.toNat).map fun step => first + Int64.ofNat step))

/-- Writes one element of a range. -/
def encodePoint
    (source : RangedSource)
    (shape : KeyShape)
    (previous : Term)
    (key : Key) :
    PartialEncoding Term := do
  let covers ← source.includes key
  if covers.asBool? = some false then return previous
  else
    let value ← source.value key
    let indices ← keyIndices key shape
    return previous.store indices (covers.ite value (previous.select indices))

/-- A lambda that asks at every index whether the update covers it. -/
def encodeLambda
    (source : RangedSource)
    (shape : KeyShape)
    (keySort : ValueSort)
    (previous : Term) :
    PartialEncoding Term := do
  let number := toString (← Encoding.lambdaNumber)
  let index := .bound ("k!" ++ number) keySort
  let address :=
    match shape with
    | .input => .bound ("a!" ++ number) .reference
    | .object => source.destination
  let parameters :=
    match shape with
    | .input => [address, index]
    | .object => [index]
  let key := ⟨address, some index⟩
  let covers ← source.includes key
  let value ← source.value key
  return .lambda parameters (covers.ite value (previous.select parameters))

/-- A ranged update in the form that the kind of the region asks for. -/
def encode
    (source : RangedSource)
    (region : RegionId)
    (shape : KeyShape)
    (previous : Term) :
    PartialEncoding Term := do
  match region with
  | .arrayElement _ _ =>
      match ← source.unrolled? (← get).unrollLimit with
      | some indices =>
          indices.foldlM
            (fun array index =>
              source.encodePoint shape array ⟨source.destination, some (.ofInt index .i32)⟩)
            previous
      | none => source.encodeLambda shape .i32 previous
  | .mapValue _ keySort _ | .mapContains _ keySort =>
      source.encodeLambda shape keySort previous
  | .field _ _ | .arrayLength _ | .mapLength _ => throw (.unsupportedRangedUpdate region)

end RangedSource

mutual

/-- The value at a key as an array term. A reference that may be several
addresses chooses between them. -/
def Region.encodeRead : Region → Key → PartialEncoding Term
  | ⟨id, objects, input, _⟩, key => do
      let values ← (splitReference key.address (.ofBool true)).mapM fun leaf => do
        let leafKey := key.withAddress leaf.address.toTerm
        let value ←
          match leaf.address, key.secondary with
          | .null, _ => (id.defaultValue : PartialEncoding Term)
          | .object number, none => do
              let value ← (readObject id objects number leafKey : PartialEncoding Term)
              value.encode
          | .object number, some secondary => do
              let array ← encodeObject id objects number
              pure (array.select [← secondary.encode])
          | .symbolic _, _ => do
              let array ← encodeLog id .input id.baseArray input
              pure (array.select (← Term.encodeAll leafKey.components))
        return (← leaf.guard.encode, value)
      return joinLeaves (← id.defaultValue) values

/-- The array of one allocated object. -/
def encodeObject (region : RegionId) : List ObjectStore → UInt32 → PartialEncoding Term
  | [], _ => emptyObjectArray region
  | ⟨address, values, updates⟩ :: rest, wanted =>
      if address = wanted then do
        encodeLog region .object (← storedArray region values) updates
      else encodeObject region rest wanted

/-- A log on top of an array, the oldest entry first. -/
def encodeLog (region : RegionId) (shape : KeyShape) (base : Term) :
    List Node → PartialEncoding Term
  | [] => return base
  | ⟨node, entry, _⟩ :: older => Encoding.rememberedNode node base do
      let previous ← encodeLog region shape base older
      encodeEntry region shape previous entry

def encodeEntry (region : RegionId) (shape : KeyShape) (previous : Term) :
    Entry → PartialEncoding Term
  | .write key value guard => encodeWrite shape previous key value guard
  | .copy source range guard =>
      RangedSource.encode
        { destination := range.destinationAddress
          bounds? := range.destinationFrom.asInt?.bind fun first =>
            range.destinationTo.asInt?.map fun last => (first, last)
          includes := fun key => do
            let guard ← guard.encode
            let covers ← (range.includes key : PartialEncoding Term)
            return (← covers.encode).and guard
          value := fun key => source.encodeRead (range.convert key) }
        region shape previous
  | .overlay source members ends guard =>
      RangedSource.encode
        { destination := ends.destinationAddress
          bounds? := none
          includes := fun key => do
            let guard ← guard.encode
            let sameObject := ends.destinationAddress.equals key.address
            if sameObject.asBool? = some false then return sameObject
            else
              let member ← members.encodeRead (ends.convert key)
              return ((← sameObject.encode).and member).and guard
          value := fun key => source.encodeRead (ends.convert key) }
        region shape previous

end

namespace Region

/-- The array of all input objects. -/
def encodeInput (region : Region) : PartialEncoding Term :=
  encodeLog region.id .input region.id.baseArray region.input

/-- The array of the allocated object at an address. -/
def encodeAllocated (region : Region) (address : UInt32) : PartialEncoding Term :=
  encodeObject region.id region.objects address

end Region

end SymbolicHeap
