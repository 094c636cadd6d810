import SymbolicHeap.Memory.Basic
import SymbolicHeap.Proofs.Heap.Update

/-!
Contract: operations on a memory, one at a time.

An operation updates one region and leaves all others alone. Its operands are
closed terms without arrays, so they have a value under every admissible model.

Owns:
- operations on memory-level operands;
- the contents of all regions after an operation.
-/

namespace SymbolicHeap

/-! ## Operands -/

theorem Term.IsValue.stored {interpretation : Interpretation} {term : Term} {sort : ValueSort}
    (isValue : term.IsValue interpretation.vocabulary sort) :
    term.Stored interpretation sort :=
  isValue.denotes.stored

/-- The key of a location of the region: a reference, and a secondary key
exactly when the region asks for one. Both are memory-level values. -/
def Key.WellSorted (vocabulary : Vocabulary) (region : RegionId) (key : Key) : Prop :=
  key.address.IsReference vocabulary ∧
    match region.secondarySort, key.secondary with
    | none, none => True
    | some sort, some index => index.IsValue vocabulary sort
    | _, _ => False

theorem Key.WellSorted.fits {interpretation : Interpretation} {region : RegionId} {key : Key}
    (wellSorted : key.WellSorted interpretation.vocabulary region) :
    region.FitsKey interpretation key := by
  refine ⟨wellSorted.1, ?_⟩
  have secondary := wellSorted.2
  revert secondary
  unfold RegionId.FitsSecondary
  cases region.secondarySort with
  | none => cases key.secondary <;> exact id
  | some sort =>
      cases key.secondary with
      | none => exact id
      | some index => exact Term.IsValue.stored

/-- An update of a memory. -/
inductive MemoryOp where
  | allocate (typeName : String)
  | write (region : RegionId) (key : Key) (value guard : Term)
  | copyRange (region : RegionId) (range : CopyRange) (guard : Term)
  | overlay (region members : RegionId) (ends : OverlayEnds) (guard : Term)

namespace MemoryOp

/-- All operands, guards included, are memory-level values of the sorts that the
operation asks for, so none of them compares arrays. The members of a map are
those of a region of key sets with the same keys. -/
def TakesValues (vocabulary : Vocabulary) : MemoryOp → Prop
  | .allocate _ => True
  | .write region key value guard =>
      region.Known vocabulary ∧ key.WellSorted vocabulary region ∧
        value.IsValue vocabulary region.valueSort ∧ guard.IsValue vocabulary .bool
  | .copyRange region range guard =>
      region.Known vocabulary ∧ range.sourceAddress.IsReference vocabulary ∧
        range.destinationAddress.IsReference vocabulary ∧
          range.sourceFrom.IsValue vocabulary .i32 ∧
            range.destinationFrom.IsValue vocabulary .i32 ∧
              range.destinationTo.IsValue vocabulary .i32 ∧ guard.IsValue vocabulary .bool
  | .overlay region members ends guard =>
      region.Known vocabulary ∧ members.Known vocabulary ∧
        (∃ mapType keySort, members = .mapContains mapType keySort ∧
          (region.supportsMerge = true → region.secondarySort = some keySort)) ∧
          ends.sourceAddress.IsReference vocabulary ∧
            ends.destinationAddress.IsReference vocabulary ∧ guard.IsValue vocabulary .bool

/-- The memory after the operation. A refused update leaves its fault aside. -/
def run (memory : Memory) : MemoryOp → Fresh Memory
  | .allocate typeName => pure (memory.allocate typeName).2
  | .write region key value guard => memory.write region key value guard
  | .copyRange region range guard => do return (← memory.copyRange region range guard).2
  | .overlay region members ends guard => do
      return (← memory.overlay region members ends guard).2

end MemoryOp

/-! ## Regions of a memory -/

namespace Region

variable {interpretation : Interpretation}

theorem contents_withOwner (model : Model) (region : Region) (owner : Owner) :
    ({ region with owner } : Region).contents model = region.contents model := by
  obtain ⟨id, objects, input, previous⟩ := region
  funext place slot
  cases place with
  | null => rw [contents_null, contents_null]
  | object address =>
      rw [contents_object, contents_object]
      rfl
  | input address => rw [contents_input, contents_input]

private theorem wellKeyed_withOwner {region : Region} (owner : Owner) :
    ({ region with owner } : Region).WellKeyed interpretation ↔
      region.WellKeyed interpretation := by
  obtain ⟨id, objects, input, previous⟩ := region
  show WellKeyed interpretation ⟨id, objects, input, owner⟩ ↔ _
  rw [WellKeyed, WellKeyed]

theorem empty_wellKeyed {id : RegionId} (known : id.Known interpretation.vocabulary)
    (owner : Owner) : (empty id owner).WellKeyed interpretation := by
  rw [empty, WellKeyed, ObjectsWellKeyed, LogWellKeyed]
  exact ⟨known, trivial, trivial⟩

end Region

namespace Memory

variable {interpretation : Interpretation}

theorem regionFor_setRegion (memory : Memory) (id probe : RegionId) (region : Region) :
    (memory.setRegion id region).regionFor probe =
      if probe = id then { region with owner := memory.owner } else memory.regionFor probe := by
  simp only [regionFor, setRegion, OrderedMap.find?_insert]
  split <;> rfl

/-- Every region of the memory is well keyed, under its own identity. -/
def WellKeyed (interpretation : Interpretation) (memory : Memory) : Prop :=
  ∀ id, id.Known interpretation.vocabulary →
    (memory.regionFor id).id = id ∧ (memory.regionFor id).WellKeyed interpretation

theorem empty_wellKeyed (owner : Owner) : (empty owner).WellKeyed interpretation := by
  intro id known
  exact ⟨rfl, Region.empty_wellKeyed known owner⟩

/-- Every read has a value, namely what the region holds there. -/
theorem WellKeyed.read {memory : Memory} (wellKeyed : memory.WellKeyed interpretation)
    {id : RegionId}
    (known : id.Known interpretation.vocabulary)
    {key : Key}
    (keySorted : key.WellSorted interpretation.vocabulary id) :
    ∃ term, memory.read id key = .ok term ∧
      interpretation.model.evaluate term =
        .ok (some ((memory.regionFor id).contents interpretation.model
          (key.address.place interpretation.model) (key.slot interpretation.model))) := by
  obtain ⟨sameId, regionWellKeyed⟩ := wellKeyed id known
  obtain ⟨term, isRead, denotes⟩ :=
    Region.read_denotes _ regionWellKeyed key (sameId.symm ▸ keySorted.fits)
  exact ⟨term, isRead, Model.evaluate_of_eval denotes.eval⟩

/-- In one region, where a location is hit it holds what is provided for its
slot; everything else is as before. -/
structure Changes
    (interpretation : Interpretation)
    (region : RegionId)
    (hit : Place → Option Constant → Bool)
    (provided : Option Constant → Constant)
    (before after : Memory) :
    Prop where
  wellKeyed : after.WellKeyed interpretation
  contents : ∀ id place slot, id.Known interpretation.vocabulary → id.FitsSlot slot →
    (after.regionFor id).contents interpretation.model place slot =
      if id = region ∧ hit place slot = true then provided slot
      else (before.regionFor id).contents interpretation.model place slot

private theorem setRegion_changes {memory : Memory} (wellKeyed : memory.WellKeyed interpretation)
    {id : RegionId}
    (known : id.Known interpretation.vocabulary)
    {hit : Place → Option Constant → Bool}
    {provided : Option Constant → Constant}
    {region : Region}
    (changes : Region.Changes interpretation hit provided (memory.regionFor id) region) :
    Changes interpretation id hit provided memory (memory.setRegion id region) := by
  have sameId := (wellKeyed id known).1
  refine ⟨?_, ?_⟩
  · intro probe probeKnown
    rw [regionFor_setRegion]
    split
    · next here =>
        subst here
        exact ⟨changes.id.trans sameId, (Region.wellKeyed_withOwner _).2 changes.wellKeyed⟩
    · exact wellKeyed probe probeKnown
  · intro probe place slot _ fits
    rw [regionFor_setRegion]
    by_cases here : probe = id
    · subst here
      rw [if_pos rfl, Region.contents_withOwner, changes.contents place slot (sameId.symm ▸ fits)]
      simp
    · simp [here]

/-! ## Operations -/

theorem write_changes {memory : Memory} (wellKeyed : memory.WellKeyed interpretation)
    {id : RegionId}
    (known : id.Known interpretation.vocabulary)
    {key : Key}
    (fits : id.FitsKey interpretation key)
    {value guard : Term}
    (valueStored : value.Stored interpretation id.valueSort)
    (guardStored : guard.Stored interpretation .bool) :
    (memory.write id key value guard).Ensures
      (Changes interpretation id
        (updateHits interpretation.model key.address guard
          (slotsMatch (key.slot interpretation.model)))
        (fun _ => interpretation.model.valueOf value) memory) := by
  obtain ⟨sameId, regionWellKeyed⟩ := wellKeyed id known
  rw [← sameId] at fits valueStored
  exact (Region.write_changes regionWellKeyed fits valueStored guardStored).map
    fun region changes => setRegion_changes wellKeyed known changes

/-- A refused update changes nothing. -/
private theorem settle_refused {memory : Memory} (wellKeyed : memory.WellKeyed interpretation)
    {id : RegionId}
    (known : id.Known interpretation.vocabulary)
    (fault : Fault)
    (provided : Option Constant → Constant) :
    Changes interpretation id (fun _ _ => false) provided memory
      (memory.settle id (.error fault)).2 := by
  apply setRegion_changes wellKeyed known
  exact ⟨rfl, (wellKeyed id known).2, fun _ _ _ => rfl⟩

theorem copyRange_changes {memory : Memory} (wellKeyed : memory.WellKeyed interpretation)
    {id : RegionId}
    (known : id.Known interpretation.vocabulary)
    {range : CopyRange}
    (rangeSorted : range.WellSorted interpretation)
    (isReference : range.destinationAddress.IsReference interpretation.vocabulary)
    {guard : Term}
    (guardStored : guard.Stored interpretation .bool) :
    (memory.copyRange id range guard).Ensures fun result =>
      Changes interpretation id
        (fun place slot => id.supportsCopy &&
          updateHits interpretation.model range.destinationAddress guard
            (range.covers interpretation.model) place slot)
        (fun slot => (memory.regionFor id).contents interpretation.model
          (range.sourceAddress.place interpretation.model)
          (range.sourceSlot interpretation.model slot)) memory result.2 := by
  obtain ⟨sameId, regionWellKeyed⟩ := wellKeyed id known
  cases supports : id.supportsCopy with
  | true =>
      rw [← sameId] at supports
      refine (Region.copyRange_changes regionWellKeyed regionWellKeyed supports rfl rangeSorted
        isReference guardStored).map ?_
      rintro outcome ⟨region, rfl, changes⟩
      simp only [Bool.true_and]
      exact setRegion_changes wellKeyed known changes
  | false =>
      have refused : (memory.regionFor id).copyRange (memory.regionFor id) range guard =
          throw (.unsupportedRangedUpdate (memory.regionFor id).id) := by
        rw [Region.copyRange, if_neg]
        simp [sameId, supports]
      intro supply
      simp only [Bool.false_and]
      rw [copyRange, refused]
      exact settle_refused wellKeyed known _ _

theorem overlay_changes {memory : Memory} (wellKeyed : memory.WellKeyed interpretation)
    {id members : RegionId}
    (known : id.Known interpretation.vocabulary)
    (membersKnown : members.Known interpretation.vocabulary)
    (isBool : members.valueSort = .bool)
    (sameSort : id.supportsMerge = true → members.secondarySort = id.secondarySort)
    {ends : OverlayEnds}
    (sourceReference : ends.sourceAddress.IsReference interpretation.vocabulary)
    (isReference : ends.destinationAddress.IsReference interpretation.vocabulary)
    {guard : Term}
    (guardStored : guard.Stored interpretation .bool) :
    (memory.overlay id members ends guard).Ensures fun result =>
      Changes interpretation id
        (fun place slot => id.supportsMerge &&
          updateHits interpretation.model ends.destinationAddress guard
            (fun slot => (memory.regionFor members).contents interpretation.model
              (ends.sourceAddress.place interpretation.model) slot = .bool true) place slot)
        (fun slot => (memory.regionFor id).contents interpretation.model
          (ends.sourceAddress.place interpretation.model) slot) memory result.2 := by
  obtain ⟨sameId, regionWellKeyed⟩ := wellKeyed id known
  obtain ⟨sameMembers, membersWellKeyed⟩ := wellKeyed members membersKnown
  cases supports : id.supportsMerge with
  | true =>
      have sameSort := sameSort supports
      rw [← sameMembers] at isBool sameSort
      rw [← sameId] at supports sameSort
      refine (Region.overlay_changes regionWellKeyed regionWellKeyed membersWellKeyed supports rfl
        isBool sameSort sourceReference isReference guardStored).map ?_
      rintro outcome ⟨region, rfl, changes⟩
      simp only [Bool.true_and]
      exact setRegion_changes wellKeyed known changes
  | false =>
      have refused : (memory.regionFor id).overlay (memory.regionFor id)
          (memory.regionFor members) ends guard =
            throw (.unsupportedRangedUpdate (memory.regionFor id).id) := by
        rw [Region.overlay, if_neg]
        simp [sameId, supports]
      intro supply
      simp only [Bool.false_and]
      rw [overlay, refused]
      exact settle_refused wellKeyed known _ _

end Memory

end SymbolicHeap
