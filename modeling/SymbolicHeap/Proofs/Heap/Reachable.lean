import SymbolicHeap.Proofs.Heap.Operations
import SymbolicHeap.Proofs.Heap.Shapes

/-!
Contract: memories that operations reach are in shape.

An update splits its reference first, so an entry goes to the log of the one
object that it names, or to the log of all input objects. A merge replays
entries of both sides under further guards, in the logs that they come from.

Owns:
- writes, ranged updates and merges keep regions in shape;
- memories reached by operations, and that all their regions are in shape.
-/

namespace SymbolicHeap

/-! ## Addresses -/

/-- The log that entries at an address go to. -/
def Address.target : Address → LogTarget
  | .object number => some number
  | _ => none

private theorem Address.takes_classify {reference : Term} (flat : reference.isConditional = false)
    (notNull : Address.classify reference ≠ .null) :
    (Address.classify reference).target.Takes (Address.classify reference).toTerm := by
  unfold Address.classify at notNull ⊢
  split
  · simp at notNull
  · rfl
  · next other noHeap =>
      exact ⟨other, noHeap, flat⟩

private theorem takes_of_mem_splitReference {reference guard : Term} {leaf : Leaf}
    (member : leaf ∈ splitReference reference guard) (notNull : leaf.address ≠ .null) :
    leaf.address.target.Takes leaf.address.toTerm := by
  fun_induction splitReference reference guard with
  | case1 => cases member
  | case2 guard condition consequent alternate _ inConsequent inAlternate =>
      rcases List.mem_append.1 member with inside | inside
      · exact inConsequent inside
      · exact inAlternate inside
  | case3 => cases member
  | case4 reference guard noConditional _ =>
      have flat : reference.isConditional = false := by
        cases reference <;> simp [Term.isConditional] at noConditional ⊢
      rw [List.mem_singleton.1 member] at notNull ⊢
      exact Address.takes_classify flat notNull

/-! ## Updates -/

namespace Region

/-- The region has the identity and is in shape. -/
def ShapedAs (id : RegionId) (region : Region) : Prop := region.id = id ∧ region.Shaped

variable {id : RegionId} {region : Region}

private theorem empty_shapedAs (id : RegionId) (owner : Owner) : (empty id owner).ShapedAs id := by
  refine ⟨rfl, ?_⟩
  rw [empty, Shaped, ObjectsShaped, LogShaped]
  exact ⟨trivial, trivial⟩

theorem ShapedAs.withOwner (shaped : region.ShapedAs id) (owner : Owner) :
    ({ region with owner } : Region).ShapedAs id := by
  have parts := shaped_iff.1 shaped.2
  exact ⟨shaped.1, shaped_iff.2 parts⟩

theorem ShapedAs.object (shaped : region.ShapedAs id) (address : UInt32) :
    LogShaped id (some address) (region.object address).updates := by
  obtain ⟨rfl, shaped⟩ := shaped
  rw [Region.object, object?]
  cases found : region.objects.find? fun object => object.address = address with
  | none =>
      simp only [Option.getD_none, ObjectStore.empty, LogShaped]
  | some object =>
      have isAddress : object.address = address := by simpa using List.find?_some found
      rw [← isAddress]
      exact (shaped_iff.1 shaped).1 object (List.mem_of_find?_eq_some found)

theorem ShapedAs.setObject (shaped : region.ShapedAs id) {object : ObjectStore}
    (updatesShaped : LogShaped id (some object.address) object.updates) :
    (region.setObject object).ShapedAs id := by
  obtain ⟨rfl, shaped⟩ := shaped
  obtain ⟨objects, input⟩ := shaped_iff.1 shaped
  refine ⟨rfl, shaped_iff.2 ⟨?_, input⟩⟩
  intro other member
  rcases mem_insertObject member with rfl | before
  · exact updatesShaped
  · exact objects other before

private theorem logShaped_push {target : LogTarget} {log : Log} {entry : Entry}
    (logShaped : LogShaped id target log) (entryShaped : entry.Shaped id target) :
    (Log.push log entry).Ensures (LogShaped id target) := by
  intro supply
  show LogShaped id target (⟨⟨supply.nodes⟩, entry, Log.size log + 1⟩ :: log)
  rw [LogShaped]
  exact ⟨entryShaped, logShaped⟩

/-- An entry that fits into the log of its address may be appended there. -/
theorem ShapedAs.pushEntry (shaped : region.ShapedAs id) {address : Address} {entry : Entry}
    (entryShaped : address ≠ .null → entry.Shaped id address.target) :
    (region.pushEntry address entry).Ensures (ShapedAs id) := by
  cases address with
  | null => exact Fresh.ensures_pure shaped
  | object number =>
      refine (logShaped_push (shaped.object number) (entryShaped (by simp))).map ?_
      intro log logShaped
      refine shaped.setObject ?_
      dsimp only
      rw [region.object_address]
      exact logShaped
  | symbolic reference =>
      obtain ⟨rfl, isShaped⟩ := shaped
      obtain ⟨objects, input⟩ := shaped_iff.1 isShaped
      refine (logShaped_push input (entryShaped (by simp))).map ?_
      intro log logShaped
      exact ⟨rfl, shaped_iff.2 ⟨objects, logShaped⟩⟩

theorem ShapedAs.writeLeaf (shaped : region.ShapedAs id) {key : Key} (fits : key.Fits id)
    (value : Term) {leaf : Leaf}
    (takes : leaf.address ≠ .null → leaf.address.target.Takes leaf.address.toTerm) :
    (region.writeLeaf key value leaf).Ensures (ShapedAs id) := by
  have pushed : (region.pushEntry leaf.address
      (.write (key.withAddress leaf.address.toTerm) value leaf.guard)).Ensures (ShapedAs id) := by
    refine shaped.pushEntry fun notNull => ?_
    rw [Entry.Shaped]
    exact ⟨takes notNull, fits⟩
  simp only [Region.writeLeaf]
  split
  · next number slot _ _ =>
      split
      · refine Fresh.ensures_pure (shaped.setObject ?_)
        dsimp only
        rw [region.object_address]
        exact shaped.object number
      · exact pushed
  · exact pushed

theorem ShapedAs.write (shaped : region.ShapedAs id) {key : Key} (fits : key.Fits id)
    (value guard : Term) : (region.write key value guard).Ensures (ShapedAs id) := by
  refine Fresh.ensures_foldlM ?_ shaped
  intro current leaf member currentShaped
  exact currentShaped.writeLeaf fits value (takes_of_mem_splitReference member)

theorem ShapedAs.pushRanged (shaped : region.ShapedAs id) {destination guard : Term}
    {entry : Term → Term → Entry}
    (entryShaped : ∀ target address condition, LogTarget.Takes target address →
      (entry address condition).Shaped id target) :
    (region.pushRanged destination guard entry).Ensures (ShapedAs id) := by
  refine Fresh.ensures_foldlM ?_ shaped
  intro current leaf member currentShaped
  refine currentShaped.pushEntry fun notNull => ?_
  exact entryShaped _ _ _ (takes_of_mem_splitReference member notNull)

theorem ShapedAs.copyRange {source result : Region} {range : CopyRange} {guard : Term}
    {supply after : Supply}
    (shaped : region.ShapedAs id)
    (sourceShaped : source.ShapedAs id)
    (bounds : range.HasIndexBounds)
    (succeeds : (region.copyRange source range guard).run.run supply = (.ok result, after)) :
    result.ShapedAs id := by
  rw [Region.copyRange] at succeeds
  split at succeeds
  · next supported =>
      rw [show result = _ from (congrArg Prod.fst (Fresh.run_fresh_eq_ok succeeds)).symm]
      refine shaped.pushRanged ?_ supply
      intro target address condition takes
      rw [Entry.Shaped]
      exact ⟨takes, shaped.1 ▸ supported.1, bounds, sourceShaped.1, sourceShaped.2⟩
  · cases succeeds

theorem ShapedAs.overlay {source members result : Region} {ends : OverlayEnds} {guard : Term}
    {supply after : Supply}
    (shaped : region.ShapedAs id)
    (sourceShaped : source.ShapedAs id)
    {mapType : String} {keySort : ValueSort}
    (membersShaped : members.ShapedAs (.mapContains mapType keySort))
    (succeeds : (region.overlay source members ends guard).run.run supply =
      (.ok result, after)) :
    result.ShapedAs id := by
  rw [Region.overlay] at succeeds
  split at succeeds
  · next supported =>
      rw [show result = _ from (congrArg Prod.fst (Fresh.run_fresh_eq_ok succeeds)).symm]
      refine shaped.pushRanged ?_ supply
      intro target address condition takes
      rw [Entry.Shaped]
      exact ⟨takes, shaped.1 ▸ supported.1, sourceShaped.1, sourceShaped.2,
        ⟨mapType, keySort, membersShaped.1⟩, membersShaped.2⟩
  · cases succeeds

end Region

/-! ## Merges -/

theorem Entry.Shaped.withGuard {id : RegionId} {target : LogTarget} {entry : Entry}
    (shaped : entry.Shaped id target) (condition : Term) :
    (entry.withGuard condition).Shaped id target := by
  cases entry <;> simpa only [Entry.withGuard, Entry.Shaped] using shaped

namespace Log

variable {id : RegionId} {target : LogTarget}

private theorem replay_shaped {nodes onto : Log} (condition : Term)
    (nodesShaped : LogShaped id target nodes)
    (ontoShaped : LogShaped id target onto) :
    (replay condition nodes onto).Ensures (LogShaped id target) := by
  induction nodes with
  | nil => exact Fresh.ensures_pure ontoShaped
  | cons node older inductionHypothesis =>
      obtain ⟨number, entry, length⟩ := node
      rw [LogShaped] at nodesShaped
      rw [replay]
      refine (inductionHypothesis nodesShaped.2).bind ?_
      intro log logShaped
      exact Region.logShaped_push logShaped (nodesShaped.1.withGuard condition)

private theorem merge_shaped {left right : Log} (guard : Term)
    (leftShaped : LogShaped id target left)
    (rightShaped : LogShaped id target right) :
    (merge left right guard).Ensures (LogShaped id target) := by
  rw [merge]
  split
  · exact Fresh.ensures_pure leftShaped
  · rw [logShaped_iff] at leftShaped rightShaped
    have onlyLeft : LogShaped id target (ancestry left right).onlyLeft :=
      logShaped_iff.2 fun node member => leftShaped node (onlyLeft_subset left right member)
    have onlyRight : LogShaped id target (ancestry left right).onlyRight :=
      logShaped_iff.2 fun node member => rightShaped node (onlyRight_subset left right member)
    have shared : LogShaped id target (ancestry left right).shared :=
      logShaped_iff.2 fun node member =>
        leftShaped node ((shared_suffix left right).subset member)
    refine (replay_shaped guard.not onlyRight shared).bind ?_
    intro log logShaped
    exact replay_shaped guard onlyLeft logShaped

end Log

namespace Region

variable {id : RegionId}

private theorem mergeObjects_shaped {region : RegionId} {guard : Term}
    {left right merged : ObjectStore}
    {address : UInt32} {supply after : Supply}
    (isAddress : left.address = address)
    (leftShaped : LogShaped id (some address) left.updates)
    (rightShaped : LogShaped id (some address) right.updates)
    (succeeds : (mergeObjects region guard left right).run.run supply = (.ok merged, after)) :
    LogShaped id (some merged.address) merged.updates := by
  rw [mergeObjects] at succeeds
  obtain ⟨fallback, _, _, succeeds⟩ := Fresh.run_bind_eq_ok succeeds
  obtain ⟨updates, _, merges, succeeds⟩ := Fresh.run_bind_eq_ok succeeds
  cases succeeds
  rw [show updates = _ from (congrArg Prod.fst (Fresh.run_fresh_eq_ok merges)).symm, isAddress]
  exact Log.merge_shaped guard leftShaped rightShaped _

theorem ShapedAs.merge {left right merged : Region} {guard : Term} {owner : Owner}
    {supply after : Supply}
    (leftShaped : left.ShapedAs id)
    (rightShaped : right.ShapedAs id)
    (succeeds : (left.merge right guard owner).run.run supply = (.ok merged, after)) :
    merged.ShapedAs id := by
  rw [Region.merge] at succeeds
  obtain ⟨objects, _, mergesObjects, succeeds⟩ := Fresh.run_bind_eq_ok succeeds
  obtain ⟨input, _, mergesInput, succeeds⟩ := Fresh.run_bind_eq_ok succeeds
  cases succeeds
  refine ⟨leftShaped.1, shaped_iff.2 ⟨?_, ?_⟩⟩
  · dsimp only
    rw [leftShaped.1]
    refine forall_of_foldlM_ok (fun objects =>
      ∀ object ∈ objects, LogShaped id (some object.address) object.updates) ?_ (by simp)
      mergesObjects
    intro objects address next before later objectsShaped steps
    obtain ⟨object, _, mergesObject, isNext⟩ := Fresh.run_bind_eq_ok steps
    cases isNext
    intro other member
    rcases mem_insertObject member with rfl | earlier
    · exact mergeObjects_shaped (left.object_address address) (leftShaped.object address)
        (rightShaped.object address) mergesObject
    · exact objectsShaped other earlier
  · dsimp only
    rw [show input = _ from (congrArg Prod.fst (Fresh.run_fresh_eq_ok mergesInput)).symm,
      leftShaped.1]
    obtain ⟨leftId, leftShaped⟩ := leftShaped
    obtain ⟨rightId, rightShaped⟩ := rightShaped
    subst leftId
    exact Log.merge_shaped guard (shaped_iff.1 leftShaped).2
      (rightId ▸ (shaped_iff.1 rightShaped).2) _

end Region

/-! ## Memories -/

/-- Keys have the shape of their region, copied ranges have 32-bit bounds, and
members are told by a region of key sets. Nothing is asked of other operands,
and a ranged update may be one that the region refuses. -/
def MemoryOp.Fits : MemoryOp → Prop
  | .allocate _ => True
  | .write region key _ _ => key.Fits region
  | .copyRange _ range _ => range.HasIndexBounds
  | .overlay _ members _ _ => ∃ mapType keySort, members = .mapContains mapType keySort

namespace Memory

/-- The memory is reached by operations on the memories reached before, in any
order; a memory may be used more than once. -/
inductive Reached : Memory → Prop where
  | create (owner : Owner) : Reached (empty owner)
  | operate {memory : Memory} (reached : Reached memory) {operation : MemoryOp}
      (fits : operation.Fits) (supply : Supply) : Reached ((operation.run memory).run supply).1
  | clone {memory : Memory} (reached : Reached memory) (supply : Supply) :
      Reached (memory.withNewOwner.run supply).1
  /-- Frames are pushed and popped, and registers set. -/
  | setFrames {memory : Memory} (reached : Reached memory) (frames : List Frame) :
      Reached { memory with frames }
  | merge {left right merged : Memory} {guard : Term} {owner : Owner} {supply after : Supply}
      (leftReached : Reached left) (rightReached : Reached right)
      (succeeds : (left.merge right guard owner).run.run supply = (.ok merged, after)) :
      Reached merged

/-- All regions are in shape, under their own identities. -/
def Shaped (memory : Memory) : Prop := ∀ id, (memory.regionFor id).ShapedAs id

private theorem Shaped.ofRegions {memory : Memory}
    (shaped : ∀ id region, memory.regions.find? id = some region → region.ShapedAs id) :
    memory.Shaped := by
  intro id
  rw [regionFor]
  cases found : memory.regions.find? id with
  | none => exact Region.empty_shapedAs id memory.owner
  | some region => exact shaped id region found

theorem Shaped.region {memory : Memory} (shaped : memory.Shaped) {id : RegionId}
    {region : Region} (found : memory.regions.find? id = some region) : region.ShapedAs id := by
  have isShaped := shaped id
  rw [regionFor, found] at isShaped
  exact isShaped

theorem Shaped.setRegion {memory : Memory} (shaped : memory.Shaped) {id : RegionId}
    {region : Region} (regionShaped : region.ShapedAs id) :
    (memory.setRegion id region).Shaped := by
  intro probe
  rw [regionFor_setRegion]
  split
  · next same =>
      rw [same]
      exact regionShaped.withOwner memory.owner
  · exact shaped probe

theorem Shaped.settle {memory : Memory} (shaped : memory.Shaped) {id : RegionId}
    {outcome : Except Fault Region}
    (outcomeShaped : ∀ region, outcome = .ok region → region.ShapedAs id) :
    (memory.settle id outcome).2.Shaped := by
  cases outcome with
  | ok region => exact shaped.setRegion (outcomeShaped region rfl)
  | error fault => exact shaped.setRegion (shaped id)

theorem Shaped.run {memory : Memory} (shaped : memory.Shaped) {operation : MemoryOp}
    (fits : operation.Fits) (supply : Supply) : ((operation.run memory).run supply).1.Shaped := by
  cases operation with
  | allocate typeName => exact shaped
  | write region key value guard =>
      exact shaped.setRegion ((shaped region).write fits value guard supply)
  | copyRange region range guard =>
      refine shaped.settle fun result isResult => ?_
      exact (shaped region).copyRange (shaped region) fits (Prod.ext isResult rfl)
  | overlay region members ends guard =>
      obtain ⟨mapType, keySort, rfl⟩ := fits
      refine shaped.settle fun result isResult => ?_
      exact (shaped region).overlay (shaped region) (shaped (.mapContains mapType keySort))
        (Prod.ext isResult rfl)

theorem Shaped.merge {left right merged : Memory} {guard : Term} {owner : Owner}
    {supply after : Supply}
    (leftShaped : left.Shaped)
    (rightShaped : right.Shaped)
    (succeeds : (left.merge right guard owner).run.run supply = (.ok merged, after)) :
    merged.Shaped := by
  rw [Memory.merge] at succeeds
  obtain ⟨_, _, _, succeeds⟩ := Fresh.run_bind_eq_ok succeeds
  obtain ⟨frames, _, _, succeeds⟩ := Fresh.run_bind_eq_ok succeeds
  obtain ⟨regions, _, mergesRegions, succeeds⟩ := Fresh.run_bind_eq_ok succeeds
  cases succeeds
  apply Shaped.ofRegions
  refine Region.forall_of_foldlM_ok (fun (regions : OrderedMap RegionId Region) =>
    ∀ id region, regions.find? id = some region → region.ShapedAs id) ?_ (by simp) mergesRegions
  intro regions id next before later regionsShaped steps
  obtain ⟨region, _, mergesRegion, isNext⟩ := Fresh.run_bind_eq_ok steps
  cases isNext
  intro probe other found
  rw [OrderedMap.find?_insert] at found
  split at found
  · next same =>
      cases found
      rw [same]
      exact (leftShaped id).merge (rightShaped id) mergesRegion
  · exact regionsShaped probe other found

theorem Reached.shaped {memory : Memory} (reached : memory.Reached) : memory.Shaped := by
  induction reached with
  | create owner => exact fun id => Region.empty_shapedAs id owner
  | operate _ fits supply shaped => exact shaped.run fits supply
  | clone _ supply shaped =>
      refine Shaped.ofRegions fun id region found => ?_
      exact shaped.region found
  | setFrames _ frames shaped => exact shaped
  | merge _ _ succeeds leftShaped rightShaped => exact leftShaped.merge rightShaped succeeds

end Memory

end SymbolicHeap
