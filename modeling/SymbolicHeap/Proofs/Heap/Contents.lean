import SymbolicHeap.Proofs.Heap.Reference
import SymbolicHeap.Proofs.Maps
import SymbolicHeap.Region.Read

/-!
Contract: what a region holds under a model.

A region is a tree of terms; under a model it is a function from places and
slots to values. The newest entry that covers a location decides what is
there, and an entry that reads from an older region takes what that region
held.

Owns:
- the contents of regions, objects and logs, by recursion on their shape;
- regions that are well keyed: every stored term has a value of the right sort,
  and every entry lies in the log that its address belongs to.
-/

namespace SymbolicHeap

/-! ## Locations -/

namespace RegionId

/-- What a location holds before anything is written to it. -/
def initial (region : RegionId) : Constant :=
  match Constant.default region.valueSort with
  | .ok value => value
  | .error _ => .bottom

/-- The slot has the sort of the region's secondary keys. -/
def FitsSlot (region : RegionId) (slot : Option Constant) : Prop :=
  match region.secondarySort, slot with
  | none, none => True
  | some sort, some value => value.HasSort sort
  | _, _ => False

end RegionId

/-- The contents of an input location before execution. -/
def Model.inputValue
    (model : Model)
    (region : RegionId)
    (address : Constant)
    (slot : Option Constant) :
    Constant :=
  match model.lookupArray region.baseArrayName (address :: slot.toList) region.valueSort with
  | .ok value => value
  | .error _ => .bottom

/-- The value of the secondary key. -/
def Key.slot (model : Model) (key : Key) : Option Constant := key.secondary.map model.valueOf

/-- Slots count only when both locations have one. -/
def slotsMatch : Option Constant → Option Constant → Bool
  | some left, some right => left = right
  | _, _ => true

namespace CopyRange

/-- The slot lies in the destination range. -/
def covers (model : Model) (range : CopyRange) (slot : Option Constant) : Bool :=
  match model.valueOf range.destinationFrom, model.valueOf range.destinationTo, slot with
  | .i32 first, .i32 last, some (.i32 index) => first ≤ index && index < last
  | _, _, _ => false

/-- The slot that a slot of the destination is copied from. -/
def sourceSlot (model : Model) (range : CopyRange) (slot : Option Constant) : Option Constant :=
  match model.valueOf range.destinationFrom, model.valueOf range.sourceFrom, slot with
  | .i32 first, .i32 source, some (.i32 index) => some (.i32 (index - first + source))
  | _, _, slot => slot

end CopyRange

/-! ## Contents -/

/-- The value stored directly at a slot of an object. -/
def storedContents
    (model : Model)
    (region : RegionId)
    (values : OrderedMap (Option Constant) Term)
    (slot : Option Constant) :
    Constant :=
  match values.find? slot with
  | some value => model.valueOf value
  | none => region.initial

mutual

def Region.contents (model : Model) : Region → Place → Option Constant → Constant
  | ⟨id, objects, input, _⟩, place, slot =>
      match place with
      | .null => id.initial
      | .object address => objectContents model id objects address slot
      | .input address => logContents model input address slot (model.inputValue id address slot)

def objectContents (model : Model) (region : RegionId) :
    List ObjectStore → UInt32 → Option Constant → Constant
  | [], _, _ => region.initial
  | ⟨address, values, updates⟩ :: rest, wanted, slot =>
      if address = wanted then
        logContents model updates (.heap wanted) slot (storedContents model region values slot)
      else objectContents model region rest wanted slot

/-- What a log leaves at a location of an object; `base` lies below its
entries. -/
def logContents (model : Model) :
    List Node → Constant → Option Constant → Constant → Constant
  | [], _, _, base => base
  | ⟨_, entry, _⟩ :: older, address, slot, base =>
      if entry.covers model address slot then entry.provides model slot
      else logContents model older address slot base

/-- The entry determines the location, unless a newer one does. -/
def Entry.covers (model : Model) : Entry → Constant → Option Constant → Bool
  | .write key _ guard, address, slot =>
      model.valueOf key.address = address && slotsMatch (key.slot model) slot &&
        model.holds guard
  | .copy _ range guard, address, slot =>
      model.valueOf range.destinationAddress = address && range.covers model slot &&
        model.holds guard
  | .overlay _ members ends guard, address, slot =>
      model.valueOf ends.destinationAddress = address &&
        members.contents model (ends.sourceAddress.place model) slot = .bool true &&
          model.holds guard

def Entry.provides (model : Model) : Entry → Option Constant → Constant
  | .write _ value _, _ => model.valueOf value
  | .copy source range _, slot =>
      source.contents model (range.sourceAddress.place model) (range.sourceSlot model slot)
  | .overlay source _ ends _, slot => source.contents model (ends.sourceAddress.place model) slot

end

/-! ## Well-keyed regions -/

/-- A closed term of the sort that has a value. -/
def Term.Stored (interpretation : Interpretation) (term : Term) (sort : ValueSort) : Prop :=
  term.Denotes interpretation .closed sort (interpretation.model.valueOf term)

/-- Neither values nor keys are arrays, and the contents before execution are
declared. -/
def RegionId.Known (vocabulary : Vocabulary) (region : RegionId) : Prop :=
  region.isScalar = true ∧ vocabulary.Declares region

/-- A secondary key is there exactly when the region asks for one. -/
def RegionId.FitsSecondary
    (interpretation : Interpretation)
    (region : RegionId)
    (secondary : Option Term) :
    Prop :=
  match region.secondarySort, secondary with
  | none, none => True
  | some sort, some index => index.Stored interpretation sort
  | _, _ => False

/-- The key of a location of the region. -/
def RegionId.FitsKey (interpretation : Interpretation) (region : RegionId) (key : Key) : Prop :=
  key.address.IsReference interpretation.vocabulary ∧
    region.FitsSecondary interpretation key.secondary

/-- The log that an entry belongs to: that of one object, or that of all input
objects. -/
abbrev LogTarget := Option UInt32

/-- The address lies in the objects that the log is for. -/
def LogTarget.Admits (vocabulary : Vocabulary) (target : LogTarget) (address : Term) : Prop :=
  match target with
  | none => (Address.symbolic address).Valid vocabulary
  | some number => address = .const (.heap number)

/-- The bounds of the range are indices. -/
structure CopyRange.WellSorted (interpretation : Interpretation) (range : CopyRange) : Prop where
  source : range.sourceAddress.IsReference interpretation.vocabulary
  sourceFrom : range.sourceFrom.Stored interpretation .i32
  destinationFrom : range.destinationFrom.Stored interpretation .i32
  destinationTo : range.destinationTo.Stored interpretation .i32

/-- What an object stores directly has slots and values of the region's sorts,
one value for each slot. -/
structure ValuesWellKeyed
    (interpretation : Interpretation)
    (region : RegionId)
    (values : OrderedMap (Option Constant) Term) :
    Prop where
  ascending : values.Ascending
  fits : ∀ stored ∈ values.entries,
    region.FitsSlot stored.1 ∧ stored.2.Stored interpretation region.valueSort

mutual

def Region.WellKeyed (interpretation : Interpretation) : Region → Prop
  | ⟨id, objects, input, _⟩ =>
      id.Known interpretation.vocabulary ∧ ObjectsWellKeyed interpretation id objects ∧
        LogWellKeyed interpretation id none input

def ObjectsWellKeyed (interpretation : Interpretation) (region : RegionId) :
    List ObjectStore → Prop
  | [] => True
  | ⟨address, values, updates⟩ :: rest =>
      ValuesWellKeyed interpretation region values ∧
        LogWellKeyed interpretation region (some address) updates ∧
          ObjectsWellKeyed interpretation region rest

def LogWellKeyed (interpretation : Interpretation) (region : RegionId) (target : LogTarget) :
    List Node → Prop
  | [] => True
  | ⟨_, entry, _⟩ :: older =>
      entry.WellKeyed interpretation region target ∧
        LogWellKeyed interpretation region target older

def Entry.WellKeyed (interpretation : Interpretation) (region : RegionId) (target : LogTarget) :
    Entry → Prop
  | .write key value guard =>
      target.Admits interpretation.vocabulary key.address ∧
        region.FitsSecondary interpretation key.secondary ∧
          value.Stored interpretation region.valueSort ∧ guard.Stored interpretation .bool
  | .copy source range guard =>
      target.Admits interpretation.vocabulary range.destinationAddress ∧
        region.supportsCopy = true ∧ source.id = region ∧ source.WellKeyed interpretation ∧
          range.WellSorted interpretation ∧ guard.Stored interpretation .bool
  | .overlay source members ends guard =>
      target.Admits interpretation.vocabulary ends.destinationAddress ∧
        region.supportsMerge = true ∧ source.id = region ∧ source.WellKeyed interpretation ∧
          members.id.valueSort = .bool ∧ members.id.secondarySort = region.secondarySort ∧
            members.WellKeyed interpretation ∧
              ends.sourceAddress.IsReference interpretation.vocabulary ∧
                guard.Stored interpretation .bool

end

end SymbolicHeap
