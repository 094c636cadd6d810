import Mathlib.Data.Finmap
import SymbolicHeap.Collections.Maps
import SymbolicHeap.Proofs.Collections.FiniteSets

/-!
Contract: maps in symbolic memory are finite maps.

A map in memory is a set of keys and a value for every key of its sort, of which
only those of members mean something. Removing a key leaves its value behind,
and merging takes over the values of all members of the source at once, as they
were before the merge.

Owns:
- finite maps whose keys are counted, and the operations on them;
- the map that a store holds at an address;
- maps in memory after any number of operations.
-/

namespace SymbolicHeap

/-! ## Finite maps with counted keys -/

/-- The count is that of the set of keys. -/
structure CountedMap where
  entries : Finmap fun _ : Constant => Constant
  keys : CountedSet
  keys_members : keys.members = entries.keys

namespace CountedMap

def empty : CountedMap := ⟨∅, .empty, rfl⟩

def put (map : CountedMap) (key value : Constant) : CountedMap where
  entries := map.entries.insert key value
  keys := map.keys.insert key
  keys_members := by
    ext other
    simp [CountedSet.insert, map.keys_members, Finmap.mem_keys, Finmap.mem_insert]

def erase (map : CountedMap) (key : Constant) : CountedMap where
  entries := map.entries.erase key
  keys := map.keys.erase key
  keys_members := by
    rw [Finmap.keys_erase, ← map.keys_members]
    rfl

/-- Where both maps have a value, that of the source counts. -/
def merge (destination source : CountedMap) : CountedMap where
  entries := source.entries ∪ destination.entries
  keys := destination.keys.union source.keys
  keys_members := by
    rw [Finmap.keys_union, ← destination.keys_members, ← source.keys_members,
      Finset.union_comm]
    rfl

private theorem mem_keys {map : CountedMap} {key : Constant} :
    key ∈ map.keys.members ↔ key ∈ map.entries := by
  rw [map.keys_members, Finmap.mem_keys]

private theorem mem_keys_of_lookup {map : CountedMap} {key value : Constant}
    (found : map.entries.lookup key = some value) : key ∈ map.keys.members :=
  mem_keys.2 (Finmap.mem_of_lookup_eq_some found)

end CountedMap

/-! ## Operations on maps -/

/-- An operation of a run that works on maps. -/
inductive MapOp where
  | allocate (typeName : String)
  | put (map key value guard : Term)
  | remove (map key guard : Term)
  | mergeInto (destination source guard : Term)

namespace MapOp

def run (regions : MapRegions) (memory : Memory) : MapOp → MemoryUpdate
  | .allocate typeName => return (memory.allocate typeName).2
  | .put map key value guard => regions.put memory map key value guard
  | .remove map key guard => regions.remove memory map key guard
  | .mergeInto destination source guard => regions.mergeInto memory destination source guard

/-- A new memory after a sequence of operations. -/
def runAll (regions : MapRegions) (operations : List MapOp) : MemoryUpdate := do
  let memory ← Memory.create
  operations.foldlM (run regions) memory

/-- All maps are objects of the execution. Keys, values and guards are memory-level
values of their sorts. -/
def TakesValues (interpretation : Interpretation) (keySort valueSort : ValueSort) : MapOp → Prop
  | .allocate _ => True
  | .put map key value guard =>
      map.IsAllocated interpretation ∧ key.IsValue interpretation.vocabulary keySort ∧
        value.IsValue interpretation.vocabulary valueSort ∧
          guard.IsValue interpretation.vocabulary .bool
  | .remove map key guard =>
      map.IsAllocated interpretation ∧ key.IsValue interpretation.vocabulary keySort ∧
        guard.IsValue interpretation.vocabulary .bool
  | .mergeInto destination source guard =>
      destination.IsAllocated interpretation ∧ source.IsAllocated interpretation ∧
        guard.IsValue interpretation.vocabulary .bool

/-- The operation on finite maps. -/
def apply (model : Model) (maps : Constant → CountedMap) : MapOp → Constant → CountedMap
  | .allocate _ => maps
  | .put map key value guard =>
      model.edit maps map guard (·.put (model.valueOf key) (model.valueOf value))
  | .remove map key guard => model.edit maps map guard (·.erase (model.valueOf key))
  | .mergeInto destination source guard =>
      model.edit maps destination guard (·.merge (maps (model.valueOf source)))

/-- The finite maps after a sequence of operations; all are empty before. -/
def outcome (model : Model) (operations : List MapOp) : Constant → CountedMap :=
  operations.foldl (apply model) fun _ => .empty

/-- What the operation does to the sets of keys. -/
def onKeys : MapOp → SetOp
  | .allocate typeName => .allocate typeName
  | .put map key _ guard => .add map key guard
  | .remove map key guard => .remove map key guard
  | .mergeInto destination source guard => .union destination source guard

theorem TakesValues.onKeys {interpretation : Interpretation} {keySort valueSort : ValueSort}
    {operation : MapOp}
    (takesValues : operation.TakesValues interpretation keySort valueSort) :
    operation.onKeys.TakesValues interpretation keySort := by
  cases operation with
  | allocate typeName => trivial
  | put map key value guard =>
      obtain ⟨isAllocated, keyValue, _, guardValue⟩ := takesValues
      exact ⟨isAllocated, keyValue, guardValue⟩
  | remove map key guard => exact takesValues
  | mergeInto destination source guard => exact takesValues

def isMerge (operation : MapOp) : Bool := operation.onKeys.isUnion

end MapOp

/-! ## Maps in a store -/

namespace MapRegions

/-- The regions of maps of one type, with keys and values of the sorts. -/
structure Describes (vocabulary : Vocabulary) (keySort valueSort : ValueSort)
    (regions : MapRegions) : Prop where
  ofType : ∃ mapType, regions = .ofType mapType keySort valueSort
  values : regions.values.Known vocabulary
  members : regions.keys.members.Known vocabulary
  length : regions.keys.length.Known vocabulary

section Describes

variable {vocabulary : Vocabulary} {keySort valueSort : ValueSort} {regions : MapRegions}
  (describes : regions.Describes vocabulary keySort valueSort)

include describes

theorem Describes.keys : regions.keys.Describes vocabulary keySort := by
  obtain ⟨mapType, isOfType⟩ := describes.ofType
  exact ⟨⟨mapType, by rw [isOfType]; rfl⟩, describes.members, describes.length⟩

/-- Values lie apart from keys. -/
theorem Describes.apart : regions.values ∉ regions.keys.ids := by
  obtain ⟨mapType, rfl⟩ := describes.ofType
  simp [MapRegions.ofType, SetRegions.ofType, SetRegions.ids]

end Describes

/-- The store holds the map at an address. -/
structure HoldsAt (regions : MapRegions) (keySort : ValueSort) (store : Store)
    (address : Constant) (map : CountedMap) : Prop where
  keys : regions.keys.HoldsAt keySort store address map.keys
  values : ∀ key value, map.entries.lookup key = some value →
    store regions.values address (some key) = value

/-- A value is written, and its key becomes a member. -/
def stored
    (regions : MapRegions)
    (store : Store)
    (address key value : Constant)
    (isNew : Bool)
    (size : Int32) :
    Store :=
  regions.keys.flagged (store.write regions.values address (some key) value) address key true
    isNew size

/-- The values of the members of one map are laid over another, and then the
members. -/
def merged
    (regions : MapRegions)
    (store : Store)
    (destination source : Constant)
    (size : Int32) :
    Store :=
  regions.keys.joined (store.overlay regions.values regions.keys.members source destination)
    destination source size

section Store

variable {regions : MapRegions} {keySort : ValueSort} {store before after : Store}
  {address : Constant} {map : CountedMap}

theorem HoldsAt.elsewhere {other : Constant} (holds : regions.HoldsAt keySort before other map)
    (agree : Store.AgreeElsewhere address before after)
    (elsewhere : other ≠ address) : regions.HoldsAt keySort after other map := by
  refine ⟨holds.keys.elsewhere agree elsewhere, ?_⟩
  intro key value found
  rw [agree _ _ _ elsewhere, holds.values key value found]

private theorem stored_elsewhere (key value : Constant) (isNew : Bool) (size : Int32) :
    Store.AgreeElsewhere address store (regions.stored store address key value isNew size) :=
  .trans (.write _ _ _) (SetRegions.flagged_elsewhere _ _ _ _)

private theorem merged_elsewhere (source : Constant) (size : Int32) :
    Store.AgreeElsewhere address store (regions.merged store address source size) :=
  .trans (.overlay _ _ _) (SetRegions.joined_elsewhere _ _)

variable (valuesApart : regions.values ∉ regions.keys.ids)

include valuesApart

/-- Values are no part of the set of keys. -/
private theorem write_keys (slot : Option Constant) (value place : Constant) {region : RegionId}
    (isKeys : region ∈ regions.keys.ids) (index : Option Constant) :
    store.write regions.values address slot value region place index =
      store region place index := by
  have other : region ≠ regions.values := fun same => valuesApart (same ▸ isKeys)
  simp [Store.write, other]

private theorem overlay_keys (source place : Constant) {region : RegionId}
    (isKeys : region ∈ regions.keys.ids) (index : Option Constant) :
    store.overlay regions.values regions.keys.members source address region place index =
      store region place index := by
  have other : region ≠ regions.values := fun same => valuesApart (same ▸ isKeys)
  simp [Store.overlay, other]

private theorem stored_values (key other value : Constant) (isNew : Bool) (size : Int32) :
    regions.stored store address key value isNew size regions.values address (some other) =
      if other = key then value else store regions.values address (some other) := by
  rw [stored, SetRegions.flagged_other valuesApart]
  simp [Store.write]

private theorem merged_values (source : Constant) (size : Int32) (key : Constant) :
    regions.merged store address source size regions.values address (some key) =
      if store regions.keys.members source (some key) = .bool true then
        store regions.values source (some key)
      else store regions.values address (some key) := by
  rw [merged, SetRegions.joined_other valuesApart]
  simp [Store.overlay]

variable (membersApart : regions.keys.members ≠ regions.keys.length)
  (holds : regions.HoldsAt keySort store address map)

include membersApart holds

theorem HoldsAt.put {key : Constant} (hasSort : key.HasSort keySort) (value : Constant) :
    regions.HoldsAt keySort
      (regions.stored store address key value (!decide (key ∈ map.keys.members))
        (Int32.ofNat map.keys.size + 1)) address (map.put key value) := by
  refine ⟨?_, ?_⟩
  · have written : regions.keys.HoldsAt keySort
        (store.write regions.values address (some key) value) address map.keys :=
      holds.keys.congr fun region isKeys slot => write_keys valuesApart _ _ _ isKeys slot
    exact written.insert membersApart hasSort
  · intro other otherValue found
    rw [stored_values valuesApart]
    by_cases same : other = key
    · subst same
      rw [CountedMap.put, Finmap.lookup_insert] at found
      rw [if_pos rfl, Option.some_inj.1 found]
    · rw [CountedMap.put, Finmap.lookup_insert_of_ne _ same] at found
      rw [if_neg same, holds.values other otherValue found]

/-- The value of a key that is erased stays where it is. -/
theorem HoldsAt.erase (key : Constant) :
    regions.HoldsAt keySort
      (regions.keys.flagged store address key false (key ∈ map.keys.members)
        (Int32.ofNat map.keys.size - 1)) address (map.erase key) := by
  refine ⟨holds.keys.erase membersApart key, ?_⟩
  intro other otherValue found
  rw [SetRegions.flagged_other valuesApart]
  have different : other ≠ key := by
    rintro rfl
    rw [CountedMap.erase, Finmap.lookup_erase] at found
    cases found
  rw [CountedMap.erase, Finmap.lookup_erase_ne different] at found
  exact holds.values other otherValue found

theorem HoldsAt.merge {source : Constant} {sourceMap : CountedMap}
    (sourceHolds : regions.HoldsAt keySort store source sourceMap) :
    regions.HoldsAt keySort
      (regions.merged store address source
        (Int32.ofNat map.keys.size + Int32.ofNat sourceMap.keys.size)) address
      (map.merge sourceMap) := by
  refine ⟨?_, ?_⟩
  · have overlaid {place : Constant} {placeMap : CountedMap}
        (placeHolds : regions.HoldsAt keySort store place placeMap) :
        regions.keys.HoldsAt keySort
          (store.overlay regions.values regions.keys.members source address) place
          placeMap.keys :=
      placeHolds.keys.congr fun region isKeys slot => overlay_keys valuesApart _ _ isKeys slot
    exact (overlaid holds).union membersApart (overlaid sourceHolds)
  · intro key value found
    rw [merged_values valuesApart]
    by_cases inSource : key ∈ sourceMap.entries
    · rw [CountedMap.merge, Finmap.lookup_union_left inSource] at found
      have isMember := CountedMap.mem_keys_of_lookup found
      rw [sourceHolds.keys.members key (sourceHolds.keys.sorted key isMember)]
      simp [isMember, sourceHolds.values key value found]
    · rw [CountedMap.merge, Finmap.lookup_union_right inSource] at found
      have isMember := CountedMap.mem_keys_of_lookup found
      rw [sourceHolds.keys.members key (holds.keys.sorted key isMember)]
      simp [CountedMap.mem_keys, inSource, holds.values key value found]

end Store

/-! ## Maps in a memory -/

/-- Under the model, every map of the execution is the finite map of its
address. -/
def Shows (interpretation : Interpretation) (keySort : ValueSort) (regions : MapRegions)
    (memory : Memory) (maps : Constant → CountedMap) : Prop :=
  ∃ store, memory.Represents interpretation store ∧
    ∀ address, address.isHeap = true → regions.HoldsAt keySort store address (maps address)

/-- The keys of the maps are sets. -/
theorem Shows.keys {interpretation : Interpretation} {keySort : ValueSort} {regions : MapRegions}
    {memory : Memory} {maps : Constant → CountedMap}
    (shows : regions.Shows interpretation keySort memory maps) :
    regions.keys.Shows interpretation keySort memory fun address => (maps address).keys := by
  obtain ⟨store, represents, holds⟩ := shows
  exact ⟨store, represents, fun address isHeap => (holds address isHeap).keys⟩

section Operations

variable {interpretation : Interpretation} {regions : MapRegions} {keySort valueSort : ValueSort}
  (describes : regions.Describes interpretation.vocabulary keySort valueSort)
  {memory : Memory} {store : Store} (represents : memory.Represents interpretation store)
  {guard : Term} (guardValue : guard.IsValue interpretation.vocabulary .bool)

include describes represents

theorem get_denotes {map key : Term} (isObject : map.IsObject interpretation)
    (keyValue : key.IsValue interpretation.vocabulary keySort) :
    ∃ value, regions.get memory map key = .ok value ∧
      value.Denotes interpretation .closed valueSort
        (store regions.values (interpretation.model.valueOf map)
          (some (interpretation.model.valueOf key))) := by
  obtain ⟨mapType, rfl⟩ := describes.ofType
  exact represents.readElement describes.values isObject rfl keyValue.stored

include guardValue

private theorem put_represents {map key value : Term} {counted : CountedMap}
    (isObject : map.IsObject interpretation)
    (holds : regions.HoldsAt keySort store (interpretation.model.valueOf map) counted)
    (keyValue : key.IsValue interpretation.vocabulary keySort)
    (valueValue : value.IsValue interpretation.vocabulary valueSort) :
    Fresh.Succeeds (regions.put memory map key value guard) fun after =>
      after.Represents interpretation
        (if interpretation.model.holds guard then
          regions.stored store (interpretation.model.valueOf map)
            (interpretation.model.valueOf key) (interpretation.model.valueOf value)
            (!decide (interpretation.model.valueOf key ∈ counted.keys.members))
            (Int32.ofNat counted.keys.size + 1)
        else store) := by
  obtain ⟨flag, isFlag, flagDenotes⟩ :=
    SetRegions.wasMember_denotes describes.keys represents isObject holds.keys keyValue
  refine Fresh.succeeds_read isFlag ?_
  have written : (memory.write regions.values (Memory.elementKey map key) value guard).Ensures
      fun after => after.Represents interpretation
        (if interpretation.model.holds guard then
          store.write regions.values (interpretation.model.valueOf map)
            (some (interpretation.model.valueOf key)) (interpretation.model.valueOf value)
        else store) := by
    obtain ⟨mapType, rfl⟩ := describes.ofType
    exact represents.writeElement describes.values isObject valueValue.stored guardValue.stored rfl
      keyValue.stored
  refine written.succeeds.bind ?_
  intro between betweenRepresents
  have keysHold : regions.keys.HoldsAt keySort
      (if interpretation.model.holds guard then
        store.write regions.values (interpretation.model.valueOf map)
          (some (interpretation.model.valueOf key)) (interpretation.model.valueOf value)
      else store) (interpretation.model.valueOf map) counted.keys := by
    refine holds.keys.congr ?_
    intro region isKeys slot
    split
    · exact write_keys describes.apart _ _ _ isKeys _
    · rfl
  refine (SetRegions.enter_represents describes.keys betweenRepresents isObject keysHold keyValue
    guardValue flagDenotes).imp ?_
  intro after afterRepresents
  cases truth : interpretation.model.holds guard <;>
    simpa [truth, stored] using afterRepresents

private theorem mergeInto_represents {destination source : Term} {first second : CountedMap}
    (destinationIsObject : destination.IsObject interpretation)
    (sourceIsObject : source.IsObject interpretation)
    (destinationHolds :
      regions.HoldsAt keySort store (interpretation.model.valueOf destination) first)
    (sourceHolds : regions.HoldsAt keySort store (interpretation.model.valueOf source) second) :
    Fresh.Succeeds (regions.mergeInto memory destination source guard) fun after =>
      after.Represents interpretation
        (if interpretation.model.holds guard then
          regions.merged store (interpretation.model.valueOf destination)
            (interpretation.model.valueOf source)
            (Int32.ofNat first.keys.size + Int32.ofNat second.keys.size)
        else store) := by
  have takesValues : (MemoryOp.overlay regions.values regions.keys.members ⟨source, destination⟩
      guard).TakesValues interpretation.vocabulary := by
    obtain ⟨mapType, rfl⟩ := describes.ofType
    exact ⟨describes.values, describes.members, ⟨mapType, keySort, rfl, fun _ => rfl⟩,
      sourceIsObject.isReference, destinationIsObject.isReference, guardValue⟩
  have supports : regions.values.supportsMerge = true := by
    obtain ⟨mapType, rfl⟩ := describes.ofType
    rfl
  obtain ⟨size, isSize, sizeDenotes⟩ := SetRegions.jointSize_denotes describes.keys represents
    destinationIsObject sourceIsObject destinationHolds.keys.length sourceHolds.keys.length
  refine Fresh.succeeds_read isSize ?_
  refine (represents.overlaid supports takesValues
    ⟨sourceIsObject.notNull, destinationIsObject.notNull⟩).bind ?_
  intro overlaid overlaidRepresents
  refine (SetRegions.join_represents describes.keys overlaidRepresents destinationIsObject
    sourceIsObject sizeDenotes guardValue).imp ?_
  intro after afterRepresents
  cases truth : interpretation.model.holds guard <;>
    simpa [truth, merged, Store.step, supports] using afterRepresents

end Operations

/-! ## Runs -/

section Runs

variable {interpretation : Interpretation} {regions : MapRegions} {keySort valueSort : ValueSort}
  (describes : regions.Describes interpretation.vocabulary keySort valueSort)
  {memory : Memory} {store : Store} {maps : Constant → CountedMap}

include describes

theorem Shows.step (shows : regions.Shows interpretation keySort memory maps)
    {operation : MapOp}
    (takesValues : operation.TakesValues interpretation keySort valueSort) :
    Fresh.Succeeds (operation.run regions memory) fun after =>
      regions.Shows interpretation keySort after
        (operation.apply interpretation.model maps) := by
  obtain ⟨store, represents, holds⟩ := shows
  cases operation with
  | allocate typeName => exact Fresh.succeeds_pure ⟨store, represents.allocate typeName, holds⟩
  | put map key value guard =>
      obtain ⟨isAllocated, keyValue, valueValue, guardValue⟩ := takesValues
      have here := holds _ isAllocated.isHeap
      refine (put_represents describes represents guardValue isAllocated.isObject here keyValue
        valueValue).imp ?_
      intro after afterRepresents
      rw [MapOp.apply]
      refine ⟨_, afterRepresents, Store.holds_edit (regions.HoldsAt keySort) HoldsAt.elsewhere
        holds fun _ => ⟨?_, ?_⟩⟩
      · exact here.put describes.apart describes.keys.apart keyValue.stored.hasSort _
      · exact stored_elsewhere _ _ _ _
  | remove map key guard =>
      obtain ⟨isAllocated, keyValue, guardValue⟩ := takesValues
      have here := holds _ isAllocated.isHeap
      refine (SetRegions.remove_represents describes.keys represents isAllocated.isObject here.keys
        keyValue guardValue).imp ?_
      intro after afterRepresents
      rw [MapOp.apply]
      refine ⟨_, afterRepresents, Store.holds_edit (regions.HoldsAt keySort) HoldsAt.elsewhere
        holds fun _ => ⟨?_, ?_⟩⟩
      · exact here.erase describes.apart describes.keys.apart _
      · exact SetRegions.flagged_elsewhere _ _ _ _
  | mergeInto destination source guard =>
      obtain ⟨destinationAllocated, sourceAllocated, guardValue⟩ := takesValues
      have destinationHolds := holds _ destinationAllocated.isHeap
      have sourceHolds := holds _ sourceAllocated.isHeap
      refine (mergeInto_represents describes represents guardValue destinationAllocated.isObject
        sourceAllocated.isObject destinationHolds sourceHolds).imp ?_
      intro after afterRepresents
      rw [MapOp.apply]
      refine ⟨_, afterRepresents, Store.holds_edit (regions.HoldsAt keySort) HoldsAt.elsewhere
        holds fun _ => ⟨?_, ?_⟩⟩
      · exact destinationHolds.merge describes.apart describes.keys.apart sourceHolds
      · exact merged_elsewhere _ _

end Runs

/-! ## Reading maps -/

/-- Size, keys and values of the map are the same in both memories. -/
structure ReadsSame (interpretation : Interpretation) (keySort : ValueSort)
    (regions : MapRegions) (before after : Memory) (map : Term) : Prop where
  keys : regions.keys.ReadsSame interpretation keySort before after map
  get : ∀ key : Term, key.IsValue interpretation.vocabulary keySort →
    interpretation.model.ReadsSame (regions.get before map key) (regions.get after map key)

section Reads

variable {interpretation : Interpretation} {regions : MapRegions} {keySort valueSort : ValueSort}
  (describes : regions.Describes interpretation.vocabulary keySort valueSort)
  {memory before after : Memory} {store newStore : Store} {maps : Constant → CountedMap}

include describes

section Changes

variable (beforeRepresents : before.Represents interpretation store)
  (afterRepresents : after.Represents interpretation newStore)

include beforeRepresents afterRepresents

theorem readsSame_of_agree {map : Term} (isObject : map.IsObject interpretation)
    (agree : ∀ region slot, newStore region (interpretation.model.valueOf map) slot =
      store region (interpretation.model.valueOf map) slot) :
    regions.ReadsSame interpretation keySort before after map := by
  refine ⟨SetRegions.readsSame_of_agree describes.keys beforeRepresents afterRepresents isObject
    agree, ?_⟩
  intro key keyValue
  obtain ⟨first, isFirst, firstDenotes⟩ :=
    get_denotes describes beforeRepresents isObject keyValue
  obtain ⟨second, isSecond, secondDenotes⟩ :=
    get_denotes describes afterRepresents isObject keyValue
  rw [agree] at secondDenotes
  exact ⟨_, firstDenotes.reads isFirst, secondDenotes.reads isSecond⟩

end Changes

end Reads

end MapRegions

end SymbolicHeap
