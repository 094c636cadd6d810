import Mathlib.Algebra.Group.Int.Defs
import SymbolicHeap.Proofs.ArrayTheory.Regions
import SymbolicHeap.Proofs.Heap.Reachable

/-!
Contract: regions in shape are encoded without failing.

An encoding stops where a key lacks the component that an array is indexed by,
where a ranged update meets a kind of region that has none, or where the length
of a copied range does not fit into a word. None of this can happen for a region
in shape: bounds of 32 bits are less than a word apart. What the session
remembers does not matter.

Owns:
- computations that succeed in every session;
- encoded entries, logs, objects and reads of regions in shape;
- reads and encodings of reached memories never fail.
-/

namespace SymbolicHeap

/-! ## Computations that succeed -/

namespace Encoding

variable {α β : Type}

/-- The computation succeeds, whatever the session remembers. -/
def Succeeds (action : PartialEncoding α) : Prop :=
  ∀ session, ∃ value after, action.run.run session = (.ok value, after)

theorem succeeds_pure (value : α) : Succeeds (pure value) :=
  fun session => ⟨value, session, rfl⟩

private theorem succeeds_lift (action : Encoding α) : Succeeds (liftM action) :=
  fun session => ⟨(action.run session).1, (action.run session).2, rfl⟩

private theorem succeeds_check {check : Except Fault α} (passes : ∃ value, check = .ok value) :
    Succeeds (liftM check) := by
  obtain ⟨value, rfl⟩ := passes
  exact succeeds_pure value

private theorem succeeds_get : Succeeds (get : PartialEncoding Session) :=
  fun session => ⟨session, session, rfl⟩

private theorem succeeds_modify (change : Session → Session) :
    Succeeds (modify change : PartialEncoding Unit) :=
  fun session => ⟨(), change session, rfl⟩

theorem Succeeds.bind {first : PartialEncoding α} {next : α → PartialEncoding β}
    (firstSucceeds : Succeeds first) (nextSucceeds : ∀ value, Succeeds (next value)) :
    Succeeds (first >>= next) := by
  intro session
  obtain ⟨value, middle, ran⟩ := firstSucceeds session
  obtain ⟨result, after, nextRan⟩ := nextSucceeds value middle
  refine ⟨result, after, ?_⟩
  rw [ExceptT.run_bind, StateT.run_bind, ran]
  exact nextRan

private theorem succeeds_mapM {items : List α} {action : α → PartialEncoding β}
    (each : ∀ item ∈ items, Succeeds (action item)) : Succeeds (items.mapM action) := by
  induction items with
  | nil => exact succeeds_pure []
  | cons item rest inductionHypothesis =>
      rw [List.forall_mem_cons] at each
      rw [List.mapM_cons]
      refine each.1.bind fun value => ?_
      exact (inductionHypothesis each.2).bind fun values => succeeds_pure _

theorem succeeds_foldlM {step : β → α → PartialEncoding β}
    (each : ∀ value item, Succeeds (step value item)) (items : List α) (start : β) :
    Succeeds (items.foldlM step start) := by
  induction items generalizing start with
  | nil => exact succeeds_pure start
  | cons item rest inductionHypothesis =>
      rw [List.foldlM_cons]
      exact (each start item).bind inductionHypothesis

private theorem succeeds_rememberedNode {node : NodeId} {base : Term}
    {compute : PartialEncoding Term}
    (computes : Succeeds compute) : Succeeds (rememberedNode node base compute) := by
  rw [rememberedNode]
  refine succeeds_get.bind fun session => ?_
  cases session.logs.lookup (node, base) with
  | some result => exact succeeds_pure result
  | none =>
      refine computes.bind fun result => ?_
      exact (succeeds_modify _).bind fun _ => succeeds_pure result

end Encoding

open Encoding

/-! ## Arrays and writes -/

variable {region : RegionId} {shape : KeyShape}

private theorem succeeds_keyIndices {key : Key}
    (hasIndex : shape = .object → key.secondary.isSome = true) :
    Succeeds (keyIndices key shape) := by
  cases shape with
  | input => exact succeeds_lift _
  | object =>
      obtain ⟨index, isIndex⟩ := Option.isSome_iff_exists.1 (hasIndex rfl)
      rw [keyIndices, isIndex]
      exact (succeeds_lift _).bind fun encoded => succeeds_pure _

private theorem emptyObjectArray_ok (scalar : region.valueSort.isArray = false)
    (hasSecondary : region.secondarySort.isSome = true) :
    ∃ array, emptyObjectArray region = .ok array := by
  obtain ⟨keySort, isKeySort⟩ := Option.isSome_iff_exists.1 hasSecondary
  obtain ⟨fallback, isFallback⟩ := region.defaultValue_ok scalar
  rw [emptyObjectArray, RegionId.objectArraySort, isKeySort, isFallback]
  exact ⟨_, rfl⟩

private theorem succeeds_storedArray (scalar : region.valueSort.isArray = false)
    (hasSecondary : region.secondarySort.isSome = true)
    (values : OrderedMap (Option Constant) Term) : Succeeds (storedArray region values) := by
  rw [storedArray]
  refine (succeeds_check (emptyObjectArray_ok scalar hasSecondary)).bind fun array => ?_
  refine succeeds_foldlM (fun array stored => ?_) _ array
  split
  · exact (succeeds_lift _).bind fun value => succeeds_pure _
  · exact succeeds_pure array

private theorem succeeds_encodeWrite {key : Key}
    (hasIndex : shape = .object → key.secondary.isSome = true) (previous value guard : Term) :
    Succeeds (encodeWrite shape previous key value guard) := by
  rw [encodeWrite]
  refine (succeeds_keyIndices hasIndex).bind fun indices => ?_
  refine (succeeds_lift _).bind fun value => ?_
  refine (succeeds_lift _).bind fun guard => ?_
  split <;> exact succeeds_pure _

/-! ## Ranged updates -/

/-- Bounds of 32 bits are numbers of 32 bits, where they are known. -/
private theorem Term.asInt?_bounds {term : Term} (isIndex : term.sort = .i32) {number : Int64}
    (known : term.asInt? = some number) :
    -2 ^ 31 ≤ number.toInt ∧ number.toInt < 2 ^ 31 := by
  cases term <;> simp only [asInt?, reduceCtorEq] at known
  next value =>
    cases value <;> simp [sort, Constant.sort] at isIndex
    next index =>
      cases known
      rw [Int32.toInt_toInt64]
      exact ⟨index.le_toInt, index.toInt_lt⟩

private theorem CopyRange.HasIndexBounds.length_le {range : CopyRange}
    (bounds : range.HasIndexBounds)
    {first last : Int64}
    (isFirst : range.destinationFrom.asInt? = some first)
    (isLast : range.destinationTo.asInt? = some last) :
    last.toInt - first.toInt ≤ Int64.maxValue.toInt := by
  have firstBounds := Term.asInt?_bounds bounds.1 isFirst
  have lastBounds := Term.asInt?_bounds bounds.2 isLast
  have word : Int64.maxValue.toInt = 2 ^ 63 - 1 := by decide
  omega

namespace RangedSource

/-- At every key with an index, what the update covers and provides is encoded;
and the bounds, where they are known, are close enough to be counted. -/
structure Encodable (source : RangedSource) : Prop where
  includes : ∀ key : Key, key.secondary.isSome = true → Succeeds (source.includes key)
  value : ∀ key : Key, key.secondary.isSome = true → Succeeds (source.value key)
  length : ∀ first last, source.bounds? = some (first, last) →
    last.toInt - first.toInt ≤ Int64.maxValue.toInt

variable {source : RangedSource}

private theorem Encodable.unrolled?_ok (encodable : source.Encodable) (limit : Nat) :
    ∃ indices, source.unrolled? limit = .ok indices := by
  unfold unrolled?
  split
  · exact ⟨none, rfl⟩
  · next first last isBounds =>
      have short := encodable.length first last isBounds
      dsimp only
      split
      · exact ⟨none, rfl⟩
      · rw [if_neg (by omega)]
        split <;> exact ⟨_, rfl⟩

theorem Encodable.encodePoint (encodable : source.Encodable) (previous : Term) {key : Key}
    (hasIndex : key.secondary.isSome = true) :
    Succeeds (source.encodePoint shape previous key) := by
  rw [RangedSource.encodePoint]
  refine (encodable.includes key hasIndex).bind fun covers => ?_
  split
  · exact succeeds_pure previous
  · refine (encodable.value key hasIndex).bind fun value => ?_
    exact (succeeds_keyIndices fun _ => hasIndex).bind fun indices => succeeds_pure _

theorem Encodable.encodeLambda (encodable : source.Encodable) (keySort : ValueSort)
    (previous : Term) : Succeeds (source.encodeLambda shape keySort previous) := by
  rw [RangedSource.encodeLambda]
  refine (succeeds_lift _).bind fun number => ?_
  refine (encodable.includes _ rfl).bind fun covers => ?_
  exact (encodable.value _ rfl).bind fun value => succeeds_pure _

theorem Encodable.encode (encodable : source.Encodable)
    (supported : region.supportsCopy = true ∨ region.supportsMerge = true) (previous : Term) :
    Succeeds (source.encode region shape previous) := by
  cases region with
  | arrayElement arrayType elementSort =>
      refine succeeds_get.bind fun session => ?_
      refine (succeeds_check (encodable.unrolled?_ok session.unrollLimit)).bind fun indices => ?_
      cases indices with
      | none => exact encodable.encodeLambda .i32 previous
      | some indices =>
          exact succeeds_foldlM (fun array index => encodable.encodePoint array rfl) indices
            previous
  | mapValue _ keySort _ | mapContains _ keySort => exact encodable.encodeLambda keySort previous
  | field _ _ | arrayLength _ | mapLength _ =>
      simp [RegionId.supportsCopy, RegionId.supportsMerge] at supported

end RangedSource

/-! ## Logs, objects and regions -/

/-- A read succeeds if its arrays are encoded. An object is read directly where
the region has no secondary keys. -/
private theorem Region.succeeds_encodeRead_of_arrays {region : Region} (shaped : region.Shaped)
    (scalar : region.id.valueSort.isArray = false)
    (allocated : region.id.secondarySort.isSome = true →
      ∀ address, Succeeds (encodeObject region.id region.objects address))
    (input : Succeeds (encodeLog region.id .input region.id.baseArray region.input))
    {key : Key} (fits : key.Fits region.id) : Succeeds (region.encodeRead key) := by
  have addressSucceeds : ∀ address, Succeeds (region.encodeAddress key address) := by
    intro address
    cases address with
    | null => exact succeeds_check (region.id.defaultValue_ok scalar)
    | object number =>
        rw [encodeAddress]
        cases isIndex : key.secondary with
        | none =>
            have readable := readObject_ok scalar region.objects
              (objectsShaped_iff.2 (shaped_iff.1 shaped).1) number
              (key.withAddress (.const (.heap number))) fits
            exact (succeeds_check readable).bind fun value => succeeds_lift _
        | some index =>
            have hasSecondary : region.id.secondarySort.isSome = true := by
              rw [← fits, isIndex]
              rfl
            refine (allocated hasSecondary number).bind fun array => ?_
            exact (succeeds_lift _).bind fun encoded => succeeds_pure _
    | symbolic reference =>
        refine input.bind fun array => ?_
        exact (succeeds_lift _).bind fun indices => succeeds_pure _
  rw [encodeRead_eq]
  refine (succeeds_mapM fun leaf _ => ?_).bind fun values => ?_
  · refine (addressSucceeds leaf.address).bind fun value => ?_
    exact (succeeds_lift _).bind fun guard => succeeds_pure _
  · exact (succeeds_check (region.id.defaultValue_ok scalar)).bind fun fallback =>
      succeeds_pure _

mutual

private theorem Region.succeeds_encodeRead : (region : Region) → region.Shaped →
    region.id.valueSort.isArray = false → (key : Key) → key.Fits region.id →
      Succeeds (region.encodeRead key)
  | ⟨id, objects, input, owner⟩, shaped, scalar, key, fits => by
      have parts := shaped
      rw [Region.Shaped] at parts
      exact Region.succeeds_encodeRead_of_arrays shaped scalar
        (fun hasSecondary => succeeds_encodeObject scalar hasSecondary objects parts.1)
        (succeeds_encodeLog scalar (by simp) input parts.2 id.baseArray) fits

private theorem succeeds_encodeObject {region : RegionId}
    (scalar : region.valueSort.isArray = false)
    (hasSecondary : region.secondarySort.isSome = true) :
    (objects : List ObjectStore) → ObjectsShaped region objects → (wanted : UInt32) →
      Succeeds (encodeObject region objects wanted)
  | [], _, _ => by
      rw [encodeObject]
      exact succeeds_check (emptyObjectArray_ok scalar hasSecondary)
  | ⟨address, values, updates⟩ :: rest, shaped, wanted => by
      rw [ObjectsShaped] at shaped
      rw [encodeObject]
      split
      · exact (succeeds_storedArray scalar hasSecondary values).bind fun base =>
          succeeds_encodeLog scalar (fun _ => hasSecondary) updates shaped.1 base
      · exact succeeds_encodeObject scalar hasSecondary rest shaped.2 wanted

private theorem succeeds_encodeLog {region : RegionId} (scalar : region.valueSort.isArray = false)
    {shape : KeyShape} (indexed : shape = .object → region.secondarySort.isSome = true)
    {target : LogTarget} :
    (log : List Node) → LogShaped region target log → (base : Term) →
      Succeeds (encodeLog region shape base log)
  | [], _, base => by
      rw [encodeLog]
      exact succeeds_pure base
  | ⟨_, entry, _⟩ :: older, shaped, base => by
      rw [LogShaped] at shaped
      rw [encodeLog]
      apply succeeds_rememberedNode
      exact (succeeds_encodeLog scalar indexed older shaped.2 base).bind
        (succeeds_encodeEntry scalar indexed entry shaped.1)

private theorem succeeds_encodeEntry {region : RegionId} (scalar : region.valueSort.isArray = false)
    {shape : KeyShape} (indexed : shape = .object → region.secondarySort.isSome = true)
    {target : LogTarget} :
    (entry : Entry) → entry.Shaped region target → (previous : Term) →
      Succeeds (encodeEntry region shape previous entry)
  | .write key value guard, shaped, previous => by
      rw [Entry.Shaped] at shaped
      rw [encodeEntry]
      exact succeeds_encodeWrite (fun isObject => shaped.2.trans (indexed isObject)) previous
        value guard
  | .copy source range guard, shaped, previous => by
      rw [Entry.Shaped] at shaped
      obtain ⟨_, supports, bounds, sameRegion, sourceShaped⟩ := shaped
      subst sameRegion
      have hasSecondary := RegionId.hasSecondary_of_supportsCopy supports
      rw [encodeEntry]
      refine RangedSource.Encodable.encode ⟨?_, ?_, ?_⟩ (.inl supports) previous
      · intro key hasIndex
        refine (succeeds_lift _).bind fun guard => ?_
        refine (succeeds_check (range.includes_ok hasIndex)).bind fun covers => ?_
        exact (succeeds_lift _).bind fun encoded => succeeds_pure _
      · intro key hasIndex
        have fits : key.Fits source.id := hasIndex.trans hasSecondary.symm
        exact Region.succeeds_encodeRead source sourceShaped scalar _ (fits.convertCopy range)
      · intro first last isBounds
        obtain ⟨lower, isLower, rest⟩ := Option.bind_eq_some_iff.1 isBounds
        obtain ⟨upper, isUpper, isPair⟩ := Option.map_eq_some_iff.1 rest
        cases isPair
        exact bounds.length_le isLower isUpper
  | .overlay source members ends guard, shaped, previous => by
      rw [Entry.Shaped] at shaped
      obtain ⟨_, supports, sameRegion, sourceShaped, areMembers, membersShaped⟩ := shaped
      subst sameRegion
      have keyFits : ∀ key : Key, key.secondary.isSome = true → key.Fits source.id :=
        fun key hasIndex =>
          hasIndex.trans (RegionId.hasSecondary_of_supportsMerge supports).symm
      rw [encodeEntry]
      refine RangedSource.Encodable.encode ⟨?_, ?_, by simp⟩ (.inr supports) previous
      · intro key hasIndex
        refine (succeeds_lift _).bind fun guard => ?_
        dsimp only
        split
        · exact succeeds_pure _
        · refine (Region.succeeds_encodeRead members membersShaped
            (RegionId.scalar_of_mapContains areMembers) _
            ((keyFits key hasIndex).convertMembers supports areMembers ends)).bind
              fun member => ?_
          exact (succeeds_lift _).bind fun same => succeeds_pure _
      · intro key hasIndex
        exact Region.succeeds_encodeRead source sourceShaped scalar _
          ((keyFits key hasIndex).convertOverlay ends)

end

/-! ## Memories -/

namespace Memory

/-- Every region of a reached memory is in shape, under its own identity. So a
read at a key in shape succeeds where the values are scalars, and so does its
encoding in every session. -/
theorem reached_reads_never_fail {memory : Memory} (reached : memory.Reached) :
    (∀ id region, memory.regions.find? id = some region → region.id = id ∧ region.Shaped) ∧
    ∀ id key, id.valueSort.isArray = false → key.Fits id →
      (∃ value, memory.read id key = .ok value) ∧
        ∀ session, ∃ value after,
          ((memory.regionFor id).encodeRead key).run.run session = (.ok value, after) := by
  have shaped := reached.shaped
  refine ⟨fun id region found => shaped.region found, ?_⟩
  intro id key scalar fits
  obtain ⟨sameId, isShaped⟩ := shaped id
  have regionScalar : (memory.regionFor id).id.valueSort.isArray = false := by
    rw [sameId]
    exact scalar
  have regionFits : key.Fits (memory.regionFor id).id := by
    rw [sameId]
    exact fits
  exact ⟨Region.read_ok _ isShaped regionScalar key regionFits,
    Region.succeeds_encodeRead _ isShaped regionScalar key regionFits⟩

/-- The largest range of elements is copied to a new array or to one of the
input. -/
def copyEverything : MemoryOp :=
  .copyRange (.arrayElement "Items" .i32)
    { sourceAddress := .var "p" .reference
      destinationAddress :=
        .conditional (.var "fresh" .bool) (.const (.heap 1)) (.var "q" .reference)
      sourceFrom := .const (.i32 0)
      destinationFrom := .const (.i32 Int32.minValue)
      destinationTo := .const (.i32 Int32.maxValue) }
    (.const (.bool true))

def everythingCopied : Memory := ((copyEverything.run (empty ⟨0⟩)).run Supply.initial).1

theorem reads_of_everythingCopied :
    ∃ merged after,
      (everythingCopied.merge (empty ⟨0⟩) (.var "late" .bool) ⟨1⟩).run.run ⟨2, 2, 0⟩ =
        (.ok merged, after) ∧
      (merged.regionFor (.arrayElement "Items" .i32)).Shaped ∧
      (∃ value, merged.read (.arrayElement "Items" .i32)
        ⟨.var "q" .reference, some (.var "i" .i32)⟩ = .ok value) ∧
      ∃ value after, ((merged.regionFor (.arrayElement "Items" .i32)).encodeRead
        ⟨.var "q" .reference, some (.var "i" .i32)⟩).run.run (.start 16) = (.ok value, after) := by
  have copied : everythingCopied.Reached :=
    .operate (.create ⟨0⟩) (show copyEverything.Fits from ⟨rfl, rfl⟩) Supply.initial
  have succeeds :
      (everythingCopied.merge (empty ⟨0⟩) (.var "late" .bool) ⟨1⟩).run.run ⟨2, 2, 0⟩ =
        (.ok _, _) := rfl
  obtain ⟨shaped, reads⟩ := reached_reads_never_fail (.merge copied (.create ⟨0⟩) succeeds)
  obtain ⟨readable, encodable⟩ := reads (.arrayElement "Items" .i32)
    ⟨.var "q" .reference, some (.var "i" .i32)⟩ rfl rfl
  exact ⟨_, _, succeeds, (shaped (.arrayElement "Items" .i32) _ rfl).2, readable,
    encodable (.start 16)⟩

end Memory

end SymbolicHeap
