import SymbolicHeap.Proofs.Heap.Operations
import SymbolicHeap.Proofs.Heap.Terms

/-!
Contract: what a ranged update that the region refuses leaves behind.

A region refuses a ranged update for its kind alone, and before anything is
entered. The memory puts the region back all the same. So a region that was
there is as it was, and one that was not is there from then on, empty.

Owns:
- updates and merges keep the identity of a region;
- memories reached by operations of any kind list every region once, by its own
  identity, in ascending order;
- the refused updates, and the memory after a refused one.
-/

namespace SymbolicHeap

/-! ## Identities of regions -/

namespace Region

private theorem pushEntry_id (region : Region) (address : Address) (entry : Entry) :
    (region.pushEntry address entry).Ensures fun updated => updated.id = region.id := by
  cases address with
  | null => exact Fresh.ensures_pure rfl
  | object number => exact fun _ => rfl
  | symbolic reference => exact fun _ => rfl

private theorem writeLeaf_id (region : Region) (key : Key) (value : Term) (leaf : Leaf) :
    (region.writeLeaf key value leaf).Ensures fun updated => updated.id = region.id := by
  simp only [writeLeaf]
  split
  · split
    · exact Fresh.ensures_pure rfl
    · exact region.pushEntry_id _ _
  · exact region.pushEntry_id _ _

private theorem write_id (region : Region) (key : Key) (value guard : Term) :
    (region.write key value guard).Ensures fun updated => updated.id = region.id := by
  refine Fresh.ensures_foldlM ?_ rfl
  intro current leaf _ sameId supply
  exact (current.writeLeaf_id key value leaf supply).trans sameId

private theorem pushRanged_id (region : Region) (destination guard : Term)
    (entry : Term → Term → Entry) :
    (region.pushRanged destination guard entry).Ensures fun updated =>
      updated.id = region.id := by
  refine Fresh.ensures_foldlM ?_ rfl
  intro current leaf _ sameId supply
  exact (current.pushEntry_id _ _ supply).trans sameId

private theorem pushRanged_succeeds (region : Region) (destination guard : Term)
    (entry : Term → Term → Entry) (supply : Supply) :
    ∃ updated after,
      (liftM (region.pushRanged destination guard entry) : ExceptT Fault Fresh Region).run.run
        supply = (.ok updated, after) ∧ updated.id = region.id :=
  ⟨_, _, Fresh.run_fresh _ _, region.pushRanged_id destination guard entry supply⟩

private theorem merge_id {left right merged : Region} {guard : Term} {owner : Owner}
    {supply after : Supply}
    (succeeds : (left.merge right guard owner).run.run supply = (.ok merged, after)) :
    merged.id = left.id := by
  rw [merge] at succeeds
  obtain ⟨objects, _, _, succeeds⟩ := Fresh.run_bind_eq_ok succeeds
  obtain ⟨input, _, _, succeeds⟩ := Fresh.run_bind_eq_ok succeeds
  cases succeeds
  rfl

private theorem read_withOwner (region : Region) (owner : Owner) (key : Key) :
    ({ region with owner } : Region).read key = region.read key := by
  obtain ⟨id, objects, input, previous⟩ := region
  rw [Region.read, Region.read]

end Region

/-! ## Ranged updates -/

private theorem RegionId.supportsCopy_iff {id : RegionId} :
    id.supportsCopy = true ↔ ∃ arrayType sort, id = .arrayElement arrayType sort := by
  cases id <;> simp [supportsCopy]

private theorem RegionId.supportsMerge_iff {id : RegionId} :
    id.supportsMerge = true ↔
      (∃ mapType keySort sort, id = .mapValue mapType keySort sort) ∨
        ∃ mapType keySort, id = .mapContains mapType keySort := by
  cases id <;> simp [supportsMerge]

/-- An update that enters one entry for many locations. -/
inductive RangedUpdate where
  | copyRange (id : RegionId) (range : CopyRange) (guard : Term)
  | overlay (id members : RegionId) (ends : OverlayEnds) (guard : Term)

namespace RangedUpdate

def region : RangedUpdate → RegionId
  | .copyRange id _ _ | .overlay id _ _ _ => id

/-- Ranges are copied between arrays, and maps are laid over maps of values or
of keys. -/
def Supported : RangedUpdate → Prop
  | .copyRange id _ _ => ∃ arrayType sort, id = .arrayElement arrayType sort
  | .overlay id _ _ _ =>
      (∃ mapType keySort sort, id = .mapValue mapType keySort sort) ∨
        ∃ mapType keySort, id = .mapContains mapType keySort

def run (memory : Memory) : RangedUpdate → Fresh (Except Fault Unit × Memory)
  | .copyRange id range guard => memory.copyRange id range guard
  | .overlay id members ends guard => memory.overlay id members ends guard

/-- The region as the update leaves it. -/
def updated (memory : Memory) : RangedUpdate → ExceptT Fault Fresh Region
  | .copyRange id range guard =>
      (memory.regionFor id).copyRange (memory.regionFor id) range guard
  | .overlay id members ends guard =>
      (memory.regionFor id).overlay (memory.regionFor id) (memory.regionFor members) ends guard

variable {memory : Memory} {update : RangedUpdate}

private theorem run_eq_settle (memory : Memory) (update : RangedUpdate) (supply : Supply) :
    (update.run memory).run supply =
      (memory.settle update.region ((update.updated memory).run.run supply).1,
        ((update.updated memory).run.run supply).2) := by
  cases update <;> rfl

private theorem updated_of_supported (sameId : (memory.regionFor update.region).id = update.region)
    (supported : update.Supported) (supply : Supply) :
    ∃ region after, (update.updated memory).run.run supply = (.ok region, after) ∧
      region.id = update.region := by
  cases update with
  | copyRange id range guard =>
      have accepts : (memory.regionFor id).id.supportsCopy = true := by
        rw [show (memory.regionFor id).id = id from sameId]
        exact RegionId.supportsCopy_iff.2 supported
      rw [updated, Region.copyRange, if_pos ⟨accepts, rfl⟩]
      obtain ⟨region, after, succeeds, regionId⟩ := Region.pushRanged_succeeds _ _ _ _ supply
      exact ⟨region, after, succeeds, regionId.trans sameId⟩
  | overlay id members ends guard =>
      have accepts : (memory.regionFor id).id.supportsMerge = true := by
        rw [show (memory.regionFor id).id = id from sameId]
        exact RegionId.supportsMerge_iff.2 supported
      rw [updated, Region.overlay, if_pos ⟨accepts, rfl⟩]
      obtain ⟨region, after, succeeds, regionId⟩ := Region.pushRanged_succeeds _ _ _ _ supply
      exact ⟨region, after, succeeds, regionId.trans sameId⟩

/-- The kind of the region decides, whatever the other operands are. -/
private theorem updated_of_unsupported
    (sameId : (memory.regionFor update.region).id = update.region)
    (unsupported : ¬ update.Supported) (supply : Supply) :
    (update.updated memory).run.run supply =
      (.error (.unsupportedRangedUpdate update.region), supply) := by
  cases update with
  | copyRange id range guard =>
      have sameId : (memory.regionFor id).id = id := sameId
      have refuses : ¬ (id.supportsCopy = true ∧ id = id) :=
        fun accepts => unsupported (RegionId.supportsCopy_iff.1 accepts.1)
      rw [updated, Region.copyRange, sameId, if_neg refuses]
      rfl
  | overlay id members ends guard =>
      have sameId : (memory.regionFor id).id = id := sameId
      have refuses : ¬ (id.supportsMerge = true ∧ id = id) :=
        fun accepts => unsupported (RegionId.supportsMerge_iff.1 accepts.1)
      rw [updated, Region.overlay, sameId, if_neg refuses]
      rfl

end RangedUpdate

/-! ## Listed regions -/

namespace Memory

/-- The memory is reached by operations on the memories reached before, in any
order and with any operands, also with keys that no location of their region
has. -/
inductive Reachable : Memory → Prop where
  | create (owner : Owner) : Reachable (empty owner)
  | operate {memory : Memory} (reachable : Reachable memory) (operation : MemoryOp)
      (supply : Supply) : Reachable ((operation.run memory).run supply).1
  | clone {memory : Memory} (reachable : Reachable memory) (supply : Supply) :
      Reachable (memory.withNewOwner.run supply).1
  /-- Frames are pushed and popped, and registers set. -/
  | setFrames {memory : Memory} (reachable : Reachable memory) (frames : List Frame) :
      Reachable { memory with frames }
  | merge {left right merged : Memory} {guard : Term} {owner : Owner} {supply after : Supply}
      (leftReachable : Reachable left) (rightReachable : Reachable right)
      (succeeds : (left.merge right guard owner).run.run supply = (.ok merged, after)) :
      Reachable merged

/-- Every region is listed once, under its own identity, in ascending order. -/
structure ListedById (regions : OrderedMap RegionId Region) : Prop where
  ascending : regions.Ascending
  identified : ∀ {id region}, regions.find? id = some region → region.id = id

namespace ListedById

variable {memory : Memory}

theorem empty : ListedById .empty where
  ascending := OrderedMap.empty_ascending
  identified found := by simp at found

theorem insert {regions : OrderedMap RegionId Region} (listed : ListedById regions)
    {id : RegionId} {region : Region} (sameId : region.id = id) :
    ListedById (regions.insert id region) where
  ascending := listed.ascending.insert
  identified {probe other} found := by
    rw [OrderedMap.find?_insert] at found
    split at found
    · next same =>
        cases found
        rw [same]
        exact sameId
    · exact listed.identified found

private theorem regionFor_id (listed : ListedById memory.regions) (id : RegionId) :
    (memory.regionFor id).id = id := by
  rw [regionFor]
  cases found : memory.regions.find? id with
  | none => rfl
  | some region => exact listed.identified found

private theorem runRanged (listed : ListedById memory.regions) (update : RangedUpdate)
    (supply : Supply) : ListedById ((update.run memory).run supply).1.2.regions := by
  have sameId := listed.regionFor_id update.region
  rw [RangedUpdate.run_eq_settle]
  by_cases supported : update.Supported
  · obtain ⟨region, after, succeeds, regionId⟩ :=
      RangedUpdate.updated_of_supported sameId supported supply
    rw [succeeds]
    exact listed.insert regionId
  · rw [RangedUpdate.updated_of_unsupported sameId supported]
    exact listed.insert sameId

theorem run (listed : ListedById memory.regions) (operation : MemoryOp) (supply : Supply) :
    ListedById ((operation.run memory).run supply).1.regions := by
  cases operation with
  | allocate typeName => exact listed
  | write region key value guard =>
      apply listed.insert
      exact ((memory.regionFor region).write_id key value guard supply).trans
        (listed.regionFor_id region)
  | copyRange region range guard => exact listed.runRanged (.copyRange region range guard) supply
  | overlay region members ends guard =>
      exact listed.runRanged (.overlay region members ends guard) supply

theorem merge {left right merged : Memory} {guard : Term} {owner : Owner}
    {supply after : Supply}
    (leftListed : ListedById left.regions)
    (succeeds : (left.merge right guard owner).run.run supply = (.ok merged, after)) :
    ListedById merged.regions := by
  rw [Memory.merge] at succeeds
  obtain ⟨_, _, _, succeeds⟩ := Fresh.run_bind_eq_ok succeeds
  obtain ⟨frames, _, _, succeeds⟩ := Fresh.run_bind_eq_ok succeeds
  obtain ⟨regions, _, mergesRegions, succeeds⟩ := Fresh.run_bind_eq_ok succeeds
  cases succeeds
  refine Region.forall_of_foldlM_ok ListedById ?_ empty mergesRegions
  intro regions id next before later regionsListed steps
  obtain ⟨region, _, mergesRegion, isNext⟩ := Fresh.run_bind_eq_ok steps
  cases isNext
  exact regionsListed.insert ((Region.merge_id mergesRegion).trans (leftListed.regionFor_id id))

end ListedById

private theorem Reachable.listedById {memory : Memory} (reachable : memory.Reachable) :
    ListedById memory.regions := by
  induction reachable with
  | create owner => exact .empty
  | operate _ operation supply listed => exact listed.run operation supply
  | clone _ supply listed => exact listed
  | setFrames _ frames listed => exact listed
  | merge _ _ succeeds leftListed _ => exact leftListed.merge succeeds

/-! ## Refused updates -/

/-- Afterwards the memory is as before, except that it lists the region: one
that was listed keeps its place and its contents, one that was not is empty. In
any case it belongs to the memory. -/
structure Touched (before : Memory) (id : RegionId) (after : Memory) : Prop where
  frames : after.frames = before.frames
  types : after.types = before.types
  nextAddress : after.nextAddress = before.nextAddress
  owner : after.owner = before.owner
  others : ∀ other, other ≠ id → after.regions.find? other = before.regions.find? other
  region : after.regions.find? id = some { before.regionFor id with owner := before.owner }
  reads : ∀ other key, after.read other key = before.read other key
  listed : after.regions.keys = before.regions.keys ↔ id ∈ before.regions.keys

private theorem ListedById.touched {memory : Memory} (listed : ListedById memory.regions)
    (id : RegionId) :
    memory.Touched id (memory.setRegion id (memory.regionFor id)) where
  frames := rfl
  types := rfl
  nextAddress := rfl
  owner := rfl
  others other different := by rw [Memory.setRegion, OrderedMap.find?_insert, if_neg different]
  region := by rw [Memory.setRegion, OrderedMap.find?_insert, if_pos rfl]
  reads other key := by
    rw [read, read, regionFor_setRegion]
    split
    · next same => rw [same, Region.read_withOwner]
    · rfl
  listed := by
    constructor
    · intro sameKeys
      rw [← sameKeys, Memory.setRegion, OrderedMap.mem_keys_insert]
      exact .inr rfl
    · exact fun present => listed.ascending.keys_insert present

/-- A ranged update fails exactly for regions of an unsupported kind. A failed
one hands out no identities, tells the region, and leaves the memory as it was
except that the region is listed. -/
theorem unsupported_update_refused {memory : Memory} (reachable : memory.Reachable)
    (update : RangedUpdate) (supply : Supply) :
    ((∃ fault, ((update.run memory).run supply).1.1 = .error fault) ↔ ¬ update.Supported) ∧
    ∀ fault, ((update.run memory).run supply).1.1 = .error fault →
      fault = .unsupportedRangedUpdate update.region ∧
        ((update.run memory).run supply).2 = supply ∧
          memory.Touched update.region ((update.run memory).run supply).1.2 := by
  have listed := reachable.listedById
  have sameId := listed.regionFor_id update.region
  rw [RangedUpdate.run_eq_settle]
  by_cases supported : update.Supported
  · obtain ⟨region, after, succeeds, _⟩ :=
      RangedUpdate.updated_of_supported sameId supported supply
    rw [succeeds]
    simp [settle, supported]
  · rw [RangedUpdate.updated_of_unsupported sameId supported]
    refine ⟨⟨fun _ => supported, fun _ => ⟨_, rfl⟩⟩, ?_⟩
    intro fault isFault
    cases isFault
    exact ⟨rfl, rfl, listed.touched update.region⟩

/-- A range of a field, which has no elements. -/
def copiedField : RangedUpdate :=
  .copyRange (.field "Point.x" .i32)
    ⟨.var "p" .reference, .const (.i32 0), .var "p" .reference, .const (.i32 1), .const (.i32 2)⟩
    (.ofBool true)

/-- A memory in which the field was written. -/
def writtenField : Memory :=
  (((MemoryOp.write (.field "Point.x" .i32) ⟨.var "p" .reference, none⟩ (.const (.i32 7))
    (.ofBool true)).run (empty ⟨0⟩)).run ⟨0, 1, 0⟩).1

theorem unsupported_update_refused_writtenField :
    ¬ copiedField.Supported ∧
      ((copiedField.run writtenField).run ⟨1, 1, 0⟩).1.2.regions.keys =
        [.field "Point.x" .i32] ∧
      ((copiedField.run writtenField).run ⟨1, 1, 0⟩).1.2.read (.field "Point.x" .i32)
        ⟨.var "p" .reference, none⟩ = .ok (.const (.i32 7)) := by
  have reachable : writtenField.Reachable := .operate (.create ⟨0⟩) _ _
  obtain ⟨fails, refused⟩ := unsupported_update_refused reachable copiedField ⟨1, 1, 0⟩
  obtain ⟨_, _, touched⟩ := refused _ rfl
  refine ⟨fails.1 ⟨_, rfl⟩, ?_, ?_⟩
  · rw [touched.listed.2 (by decide)]
    rfl
  · rw [touched.reads]
    rfl

/-- A refused copy is noticed: a memory without regions lists one afterwards. -/
theorem refused_copy_lists_region :
    ((copiedField.run (empty ⟨0⟩)).run ⟨0, 1, 0⟩).1.1 =
        .error (.unsupportedRangedUpdate (.field "Point.x" .i32)) ∧
      (empty ⟨0⟩).regions.keys = [] ∧
      ((copiedField.run (empty ⟨0⟩)).run ⟨0, 1, 0⟩).1.2.regions.keys =
        [.field "Point.x" .i32] :=
  ⟨rfl, rfl, rfl⟩

end Memory

end SymbolicHeap
