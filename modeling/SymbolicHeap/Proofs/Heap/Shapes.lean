import SymbolicHeap.Memory.Basic
import SymbolicHeap.Proofs.Heap.Terms

/-!
Contract: the shape of a region, which keeps its reads from failing.

A region holds terms of any kind, yet where an entry stands says what it is. An
entry lies in the log that its address belongs to, a write has a secondary key
exactly when the region asks for one, and ranges are copied or overlaid only
where the kind of the region allows it. The same holds of the regions that
ranged entries read from. Sorts and values of terms play no part in this.

Owns:
- keys and regions in shape;
- reads at keys in shape succeed, where the values are scalars.
-/

namespace SymbolicHeap

/-! ## Shapes -/

/-- The key has a secondary component exactly when the region asks for one. -/
def Key.Fits (region : RegionId) (key : Key) : Prop :=
  key.secondary.isSome = region.secondarySort.isSome

/-- The address is one that entries of the log write to: the object of the log,
or an address of which only a model tells which object it is. -/
def LogTarget.Takes (target : LogTarget) (address : Term) : Prop :=
  match target with
  | none => address ≠ .null ∧ (∀ number, address ≠ .const (.heap number)) ∧
      address.isConditional = false
  | some number => address = .const (.heap number)

/-- The bounds of the destination are 32-bit integers. -/
def CopyRange.HasIndexBounds (range : CopyRange) : Prop :=
  range.destinationFrom.sort = .i32 ∧ range.destinationTo.sort = .i32

mutual

def Region.Shaped : Region → Prop
  | ⟨id, objects, input, _⟩ => ObjectsShaped id objects ∧ LogShaped id none input

def ObjectsShaped (region : RegionId) : List ObjectStore → Prop
  | [] => True
  | ⟨address, _, updates⟩ :: rest =>
      LogShaped region (some address) updates ∧ ObjectsShaped region rest

def LogShaped (region : RegionId) (target : LogTarget) : List Node → Prop
  | [] => True
  | ⟨_, entry, _⟩ :: older => entry.Shaped region target ∧ LogShaped region target older

/-- The entry fits into a log of the region. What a ranged entry reads from is
a region of the same identity, and what tells its members is one of key sets. -/
def Entry.Shaped (region : RegionId) (target : LogTarget) : Entry → Prop
  | .write key _ _ => target.Takes key.address ∧ key.Fits region
  | .copy source range _ =>
      target.Takes range.destinationAddress ∧ region.supportsCopy = true ∧
        range.HasIndexBounds ∧ source.id = region ∧ source.Shaped
  | .overlay source members ends _ =>
      target.Takes ends.destinationAddress ∧ region.supportsMerge = true ∧
        source.id = region ∧ source.Shaped ∧
          (∃ mapType keySort, members.id = .mapContains mapType keySort) ∧ members.Shaped

end

theorem logShaped_iff {region : RegionId} {target : LogTarget} {log : Log} :
    LogShaped region target log ↔ ∀ node ∈ log, node.entry.Shaped region target := by
  induction log with
  | nil => simp [LogShaped]
  | cons node older inductionHypothesis =>
      obtain ⟨id, entry, length⟩ := node
      rw [LogShaped, List.forall_mem_cons, inductionHypothesis]

theorem objectsShaped_iff {region : RegionId} {objects : List ObjectStore} :
    ObjectsShaped region objects ↔
      ∀ object ∈ objects, LogShaped region (some object.address) object.updates := by
  induction objects with
  | nil => simp [ObjectsShaped]
  | cons object rest inductionHypothesis =>
      obtain ⟨address, values, updates⟩ := object
      rw [ObjectsShaped, List.forall_mem_cons, inductionHypothesis]

theorem Region.shaped_iff {region : Region} :
    region.Shaped ↔
      (∀ object ∈ region.objects, LogShaped region.id (some object.address) object.updates) ∧
        LogShaped region.id none region.input := by
  obtain ⟨id, objects, input, owner⟩ := region
  rw [Region.Shaped, objectsShaped_iff]

/-! ## Keys -/

theorem RegionId.hasSecondary_of_supportsCopy {region : RegionId}
    (supports : region.supportsCopy = true) : region.secondarySort.isSome = true := by
  rw [secondarySort_of_supportsCopy supports]
  rfl

theorem RegionId.hasSecondary_of_supportsMerge {region : RegionId}
    (supports : region.supportsMerge = true) : region.secondarySort.isSome = true := by
  cases region <;> simp_all [supportsMerge, secondarySort]

theorem RegionId.scalar_of_mapContains {members : RegionId}
    (areMembers : ∃ mapType keySort, members = .mapContains mapType keySort) :
    members.valueSort.isArray = false := by
  obtain ⟨mapType, keySort, rfl⟩ := areMembers
  rfl

namespace Key.Fits

variable {region : RegionId} {key : Key}

theorem convertCopy (fits : key.Fits region) (range : CopyRange) :
    (range.convert key).Fits region := by
  rw [Key.Fits, CopyRange.convert, Option.isSome_map]
  exact fits

theorem convertOverlay (fits : key.Fits region) (ends : OverlayEnds) :
    (ends.convert key).Fits region := fits

/-- Where maps can be overlaid, keys are those of a region of key sets too. -/
theorem convertMembers (fits : key.Fits region) (supports : region.supportsMerge = true)
    {members : RegionId}
    (areMembers : ∃ mapType keySort, members = .mapContains mapType keySort)
    (ends : OverlayEnds) : (ends.convert key).Fits members := by
  obtain ⟨mapType, keySort, rfl⟩ := areMembers
  have isSome : key.secondary.isSome = true :=
    fits.trans (RegionId.hasSecondary_of_supportsMerge supports)
  exact isSome

end Key.Fits

/-! ## Reads -/

theorem RegionId.defaultValue_ok {region : RegionId}
    (scalar : region.valueSort.isArray = false) : ∃ value, region.defaultValue = .ok value := by
  cases sort : region.valueSort with
  | array indices elements => simp [sort, ValueSort.isArray] at scalar
  | _ => exact ⟨_, by rw [defaultValue, sort, Constant.default]; rfl⟩

private theorem storedValue_ok {region : RegionId} (scalar : region.valueSort.isArray = false)
    (values : OrderedMap (Option Constant) Term) (secondary : Option Term) :
    ∃ value, storedValue region values secondary = .ok value := by
  obtain ⟨fallback, isFallback⟩ := region.defaultValue_ok scalar
  rw [storedValue, isFallback]
  dsimp only [bind, Except.bind]
  split <;> exact ⟨_, rfl⟩

theorem CopyRange.includes_ok (range : CopyRange) {key : Key}
    (hasIndex : key.secondary.isSome = true) : ∃ covers, range.includes key = .ok covers := by
  obtain ⟨index, isIndex⟩ := Option.isSome_iff_exists.1 hasIndex
  rw [includes, isIndex]
  exact ⟨_, rfl⟩

/-- A read succeeds if it does at every address. -/
private theorem Region.read_ok_of_addresses {region : Region}
    (scalar : region.id.valueSort.isArray = false) {key : Key}
    (readAddress : ∀ address, ∃ value, region.readAddress key address = .ok value) :
    ∃ value, region.read key = .ok value := by
  rw [Region.read_eq]
  split
  · have each : ∀ leaf ∈ splitReference key.address (.ofBool true),
        ∃ choice : Term × Term,
          (do return (leaf.guard, ← region.readAddress key leaf.address)) = .ok choice ∧ True := by
      intro leaf _
      obtain ⟨value, isValue⟩ := readAddress leaf.address
      exact ⟨(leaf.guard, value), by rw [isValue]; rfl, trivial⟩
    obtain ⟨choices, areChoices, _⟩ := mapM_ok each
    obtain ⟨fallback, isFallback⟩ := region.id.defaultValue_ok scalar
    exact ⟨_, by rw [areChoices, isFallback]; rfl⟩
  · exact readAddress _

mutual

theorem Region.read_ok : (region : Region) → region.Shaped →
    region.id.valueSort.isArray = false → (key : Key) → key.Fits region.id →
      ∃ value, region.read key = .ok value
  | ⟨id, objects, input, owner⟩, shaped, scalar, key, fits => by
      rw [Region.Shaped] at shaped
      apply Region.read_ok_of_addresses scalar
      intro address
      cases address with
      | null => exact id.defaultValue_ok scalar
      | object number => exact readObject_ok scalar objects shaped.1 number _ fits
      | symbolic reference =>
          exact readLog_ok scalar input shaped.2 (key.withAddress reference) fits
            ⟨.inputRead id (key.withAddress reference).components, rfl⟩

theorem readObject_ok {region : RegionId} (scalar : region.valueSort.isArray = false) :
    (objects : List ObjectStore) → ObjectsShaped region objects → (wanted : UInt32) →
      (key : Key) → key.Fits region → ∃ value, readObject region objects wanted key = .ok value
  | [], _, _, _, _ => by
      rw [readObject]
      exact region.defaultValue_ok scalar
  | ⟨address, values, updates⟩ :: rest, shaped, wanted, key, fits => by
      rw [ObjectsShaped] at shaped
      rw [readObject]
      split
      · exact readLog_ok scalar updates shaped.1 key fits
          (storedValue_ok scalar values key.secondary)
      · exact readObject_ok scalar rest shaped.2 wanted key fits

private theorem readLog_ok {region : RegionId} (scalar : region.valueSort.isArray = false)
    {target : LogTarget} :
    (log : List Node) → LogShaped region target log → (key : Key) → key.Fits region →
      {base : Except Fault Term} → (∃ value, base = .ok value) →
        ∃ value, readLog log key base = .ok value
  | [], _, _, _, _, baseOk => by
      rw [readLog]
      exact baseOk
  | ⟨_, entry, _⟩ :: older, shaped, key, fits, base, baseOk => by
      rw [LogShaped] at shaped
      obtain ⟨covers, isCovers⟩ := Entry.includes_ok entry shaped.1 key fits
      obtain ⟨value, isValue⟩ := Entry.valueAt_ok scalar entry shaped.1 key fits
      obtain ⟨previous, isPrevious⟩ := readLog_ok scalar older shaped.2 key fits baseOk
      rw [readLog, isCovers, isValue, isPrevious]
      dsimp only [bind, Except.bind]
      split <;> exact ⟨_, rfl⟩

theorem Entry.includes_ok {region : RegionId} {target : LogTarget} :
    (entry : Entry) → entry.Shaped region target → (key : Key) → key.Fits region →
      ∃ covers, entry.includes key = .ok covers
  | .write _ _ _, _, _, _ => ⟨_, by rw [Entry.includes]⟩
  | .copy _ range _, shaped, key, fits => by
      rw [Entry.Shaped] at shaped
      obtain ⟨covers, isCovers⟩ := range.includes_ok
        (fits.trans (RegionId.hasSecondary_of_supportsCopy shaped.2.1))
      rw [Entry.includes, isCovers]
      split <;> exact ⟨_, rfl⟩
  | .overlay _ members ends _, shaped, key, fits => by
      rw [Entry.Shaped] at shaped
      obtain ⟨_, supports, _, _, areMembers, membersShaped⟩ := shaped
      obtain ⟨member, isMember⟩ := Region.read_ok members membersShaped
        (RegionId.scalar_of_mapContains areMembers) (ends.convert key)
        (fits.convertMembers supports areMembers ends)
      rw [Entry.includes, isMember]
      split
      · exact ⟨_, rfl⟩
      · split <;> exact ⟨_, rfl⟩

private theorem Entry.valueAt_ok {region : RegionId} (scalar : region.valueSort.isArray = false)
    {target : LogTarget} :
    (entry : Entry) → entry.Shaped region target → (key : Key) → key.Fits region →
      ∃ value, entry.valueAt key = .ok value
  | .write _ _ _, _, _, _ => ⟨_, by rw [Entry.valueAt]⟩
  | .copy source range _, shaped, key, fits => by
      rw [Entry.Shaped] at shaped
      obtain ⟨_, _, _, sameRegion, sourceShaped⟩ := shaped
      rw [Entry.valueAt]
      subst sameRegion
      exact Region.read_ok source sourceShaped scalar _ (fits.convertCopy range)
  | .overlay source _ ends _, shaped, key, fits => by
      rw [Entry.Shaped] at shaped
      obtain ⟨_, _, sameRegion, sourceShaped, _⟩ := shaped
      rw [Entry.valueAt]
      subst sameRegion
      exact Region.read_ok source sourceShaped scalar _ (fits.convertOverlay ends)

end

end SymbolicHeap
