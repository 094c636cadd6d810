import SymbolicHeap.Proofs.Heap.Ancestry
import SymbolicHeap.Proofs.Heap.Read
import SymbolicHeap.Proofs.Heap.Update
import SymbolicHeap.Proofs.Simplify.Hereditary

/-!
Contract: the terms that a region holds.

A region holds keys, values, guards and ranges, and with its ranged entries all
that the regions hold which they read from. A hereditary property of these terms
is one of every value that is read, and of the terms of every region that is made
from regions and operands with the property.

Owns:
- the terms of a region;
- hereditary properties of what is read from a region;
- hereditary properties of what is written, copied, overlaid and merged.
-/

namespace SymbolicHeap

/-! ## Terms of a region -/

def CopyRange.terms (range : CopyRange) : List Term :=
  [range.sourceAddress, range.sourceFrom, range.destinationAddress, range.destinationFrom,
    range.destinationTo]

def OverlayEnds.terms (ends : OverlayEnds) : List Term :=
  [ends.sourceAddress, ends.destinationAddress]

mutual

def Region.terms : Region → List Term
  | ⟨_, objects, input, _⟩ => objectsTerms objects ++ logTerms input

def objectsTerms : List ObjectStore → List Term
  | [] => []
  | ⟨_, values, updates⟩ :: rest =>
      values.entries.map Prod.snd ++ logTerms updates ++ objectsTerms rest

def logTerms : List Node → List Term
  | [] => []
  | ⟨_, entry, _⟩ :: older => entry.terms ++ logTerms older

def Entry.terms : Entry → List Term
  | .write key value guard => key.components ++ [value, guard]
  | .copy source range guard => source.terms ++ range.terms ++ [guard]
  | .overlay source members ends guard => source.terms ++ members.terms ++ ends.terms ++ [guard]

end

variable {property : Term → Prop}

theorem Key.forall_components {key : Key} :
    (∀ term ∈ key.components, property term) ↔
      property key.address ∧ ∀ index ∈ key.secondary, property index := by
  rw [Key.components, List.forall_mem_cons]
  simp only [Option.mem_toList, Option.mem_def]

private theorem forall_logTerms {log : Log} :
    (∀ term ∈ logTerms log, property term) ↔
      ∀ node ∈ log, ∀ term ∈ node.entry.terms, property term := by
  induction log with
  | nil => simp [logTerms]
  | cons node older inductionHypothesis =>
      obtain ⟨id, entry, length⟩ := node
      rw [logTerms, List.forall_mem_append, List.forall_mem_cons, inductionHypothesis]

/-- What an object stores and what its log holds. -/
def ObjectStore.terms (object : ObjectStore) : List Term :=
  object.values.entries.map Prod.snd ++ logTerms object.updates

theorem ObjectStore.forall_terms {object : ObjectStore} :
    (∀ term ∈ object.terms, property term) ↔
      (∀ stored ∈ object.values.entries, property stored.2) ∧
        ∀ term ∈ logTerms object.updates, property term := by
  rw [ObjectStore.terms, List.forall_mem_append, List.forall_mem_map]

theorem forall_objectsTerms {objects : List ObjectStore} :
    (∀ term ∈ objectsTerms objects, property term) ↔
      ∀ object ∈ objects, ∀ term ∈ object.terms, property term := by
  induction objects with
  | nil => simp [objectsTerms]
  | cons object rest inductionHypothesis =>
      obtain ⟨address, values, updates⟩ := object
      rw [objectsTerms, List.forall_mem_append, List.forall_mem_cons, inductionHypothesis,
        ObjectStore.terms]

theorem Region.forall_terms {region : Region} :
    (∀ term ∈ region.terms, property term) ↔
      (∀ object ∈ region.objects, ∀ term ∈ object.terms, property term) ∧
        ∀ term ∈ logTerms region.input, property term := by
  obtain ⟨id, objects, input, owner⟩ := region
  rw [Region.terms, List.forall_mem_append, forall_objectsTerms]

theorem CopyRange.forall_terms {range : CopyRange} :
    (∀ term ∈ range.terms, property term) ↔
      property range.sourceAddress ∧ property range.sourceFrom ∧
        property range.destinationAddress ∧ property range.destinationFrom ∧
          property range.destinationTo := by
  simp only [CopyRange.terms, List.forall_mem_cons, List.not_mem_nil, false_imp_iff,
    implies_true, and_true]

theorem OverlayEnds.forall_terms {ends : OverlayEnds} :
    (∀ term ∈ ends.terms, property term) ↔
      property ends.sourceAddress ∧ property ends.destinationAddress := by
  simp only [OverlayEnds.terms, List.forall_mem_cons, List.not_mem_nil, false_imp_iff,
    implies_true, and_true]

namespace Entry

theorem forall_write {key : Key} {value guard : Term} :
    (∀ term ∈ (write key value guard).terms, property term) ↔
      (∀ term ∈ key.components, property term) ∧ property value ∧ property guard := by
  rw [terms, List.forall_mem_append, List.forall_mem_cons, List.forall_mem_singleton]

theorem forall_copy {source : Region} {range : CopyRange} {guard : Term} :
    (∀ term ∈ (copy source range guard).terms, property term) ↔
      (∀ term ∈ source.terms, property term) ∧ (∀ term ∈ range.terms, property term) ∧
        property guard := by
  rw [terms, List.forall_mem_append, List.forall_mem_append, List.forall_mem_singleton, and_assoc]

theorem forall_overlay {source members : Region} {ends : OverlayEnds} {guard : Term} :
    (∀ term ∈ (overlay source members ends guard).terms, property term) ↔
      (∀ term ∈ source.terms, property term) ∧ (∀ term ∈ members.terms, property term) ∧
        (∀ term ∈ ends.terms, property term) ∧ property guard := by
  rw [terms, List.forall_mem_append, List.forall_mem_append, List.forall_mem_append,
    List.forall_mem_singleton, and_assoc, and_assoc]

end Entry

/-! ## Keys and ranges -/

section Keys

variable (hereditary : Term.Hereditary property)

include hereditary

private theorem Key.equals_holds {left right : Key}
    (leftHolds : ∀ term ∈ left.components, property term)
    (rightHolds : ∀ term ∈ right.components, property term) : property (left.equals right) := by
  rw [Key.forall_components] at leftHolds rightHolds
  have sameAddress := hereditary.equals leftHolds.1 rightHolds.1
  unfold Key.equals
  dsimp only
  split
  · next leftIndex rightIndex isLeft isRight =>
      exact hereditary.and sameAddress
        (hereditary.equals (leftHolds.2 _ isLeft) (rightHolds.2 _ isRight))
  · exact sameAddress

theorem CopyRange.includes_holds {range : CopyRange} {key : Key} {result : Term}
    (rangeHolds : ∀ term ∈ range.terms, property term)
    (keyHolds : ∀ term ∈ key.components, property term)
    (succeeds : range.includes key = .ok result) : property result := by
  rw [CopyRange.forall_terms] at rangeHolds
  rw [Key.forall_components] at keyHolds
  obtain ⟨_, _, destinationHolds, fromHolds, toHolds⟩ := rangeHolds
  unfold CopyRange.includes at succeeds
  split at succeeds
  · cases succeeds
  · next index isIndex =>
      cases succeeds
      have indexHolds := keyHolds.2 index isIndex
      exact hereditary.and
        (hereditary.and (hereditary.equals destinationHolds keyHolds.1)
          (hereditary.lessOrEqual fromHolds indexHolds))
        (hereditary.lessThan indexHolds toHolds)

theorem CopyRange.convert_holds {range : CopyRange} {key : Key}
    (rangeHolds : ∀ term ∈ range.terms, property term)
    (keyHolds : ∀ term ∈ key.components, property term) :
    ∀ term ∈ (range.convert key).components, property term := by
  rw [CopyRange.forall_terms] at rangeHolds
  rw [Key.forall_components] at keyHolds ⊢
  refine ⟨rangeHolds.1, ?_⟩
  intro index isIndex
  obtain ⟨earlier, isEarlier, rfl⟩ := Option.map_eq_some_iff.1 isIndex
  exact hereditary.add (hereditary.sub (keyHolds.2 earlier isEarlier) rangeHolds.2.2.2.1)
    rangeHolds.2.1

omit hereditary in
theorem OverlayEnds.convert_holds {ends : OverlayEnds} {key : Key}
    (endsHold : ∀ term ∈ ends.terms, property term)
    (keyHolds : ∀ term ∈ key.components, property term) :
    ∀ term ∈ (ends.convert key).components, property term := by
  rw [OverlayEnds.forall_terms] at endsHold
  rw [Key.forall_components] at keyHolds ⊢
  exact ⟨endsHold.1, keyHolds.2⟩

omit hereditary in
theorem Key.withAddress_holds {key : Key} {address : Term}
    (addressHolds : property address)
    (keyHolds : ∀ term ∈ key.components, property term) :
    ∀ term ∈ (key.withAddress address).components, property term := by
  rw [Key.forall_components] at keyHolds ⊢
  exact ⟨addressHolds, keyHolds.2⟩

/-! ## Reads -/

theorem RegionId.defaultValue_holds {region : RegionId} {result : Term}
    (succeeds : region.defaultValue = .ok result) : property result := by
  obtain ⟨value, _, isResult⟩ := Model.bind_eq_ok.1 succeeds
  rw [← Model.pure_eq_ok.1 isResult]
  exact hereditary.const value

omit hereditary in
/-- A stored value, or the fallback where there is none. -/
private theorem OrderedMap.getD_holds {values : OrderedMap (Option Constant) Term} {fallback : Term}
    (valuesHold : ∀ stored ∈ values.entries, property stored.2)
    (fallbackHolds : property fallback)
    (slot : Option Constant) : property ((values.find? slot).getD fallback) := by
  cases isFound : values.find? slot with
  | none => exact fallbackHolds
  | some value => exact valuesHold (slot, value) (mem_of_find? isFound)

private theorem storedValue_holds {region : RegionId} {values : OrderedMap (Option Constant) Term}
    {secondary : Option Term} {result : Term}
    (valuesHold : ∀ stored ∈ values.entries, property stored.2)
    (indexHolds : ∀ index ∈ secondary, property index)
    (succeeds : storedValue region values secondary = .ok result) : property result := by
  obtain ⟨fallback, isFallback, rest⟩ := Model.bind_eq_ok.1 succeeds
  have fallbackHolds := RegionId.defaultValue_holds hereditary isFallback
  have found := OrderedMap.getD_holds valuesHold fallbackHolds
  split at rest
  · exact Model.pure_eq_ok.1 rest ▸ found none
  · exact Model.pure_eq_ok.1 rest ▸ found _
  · next index _ =>
      rw [← Model.pure_eq_ok.1 rest]
      have keyHolds := indexHolds index rfl
      clear rest succeeds found
      generalize values.entries = entries at valuesHold
      induction entries with
      | nil => exact fallbackHolds
      | cons stored others inductionHypothesis =>
          rw [List.forall_mem_cons] at valuesHold
          have othersHold := inductionHypothesis valuesHold.2
          rw [List.foldr_cons]
          split
          · exact hereditary.ite (hereditary.equals keyHolds (hereditary.const _)) valuesHold.1
              othersHold
          · exact othersHold

private theorem Region.readAddress_holds {region : Region} {key : Key}
    (keyHolds : ∀ term ∈ key.components, property term)
    (objectHolds : ∀ number key, (∀ term ∈ key.components, property term) →
      ∀ result, region.readAllocated number key = .ok result → property result)
    (inputHolds : ∀ key, (∀ term ∈ key.components, property term) →
      ∀ result, region.readInput key = .ok result → property result)
    {address : Address}
    (addressHolds : property address.toTerm)
    {result : Term}
    (succeeds : region.readAddress key address = .ok result) : property result := by
  have leafHolds := Key.withAddress_holds addressHolds keyHolds
  cases address with
  | null => exact RegionId.defaultValue_holds hereditary succeeds
  | object number => exact objectHolds number _ leafHolds result succeeds
  | symbolic reference => exact inputHolds _ leafHolds result succeeds

omit hereditary in
/-- What a list of reads returns, its reads return. -/
private theorem forall_of_mapM_ok {α β : Type} {step : α → Except Fault β} {holds : β → Prop}
    {items : List α} {results : List β}
    (each : ∀ item ∈ items, ∀ result, step item = .ok result → holds result)
    (succeeds : items.mapM step = .ok results) : ∀ result ∈ results, holds result := by
  induction items generalizing results with
  | nil =>
      cases succeeds
      simp
  | cons item rest inductionHypothesis =>
      rw [List.mapM_cons] at succeeds
      obtain ⟨first, isFirst, succeeds⟩ := Model.bind_eq_ok.1 succeeds
      obtain ⟨others, areOthers, isResults⟩ := Model.bind_eq_ok.1 succeeds
      rw [List.forall_mem_cons] at each
      rw [← Model.pure_eq_ok.1 isResults, List.forall_mem_cons]
      exact ⟨each.1 first isFirst, inductionHypothesis each.2 areOthers⟩

end Keys

/-- A hereditary property that the contents of a location before execution have
with its key. -/
structure Term.Storable (property : Term → Prop) : Prop extends Hereditary property where
  inputRead : ∀ {region key}, (∀ term ∈ key, property term) → property (.inputRead region key)

section Reads

variable (storable : Term.Storable property)

include storable

mutual

private theorem Region.read_holds : (region : Region) → (∀ term ∈ region.terms, property term) →
    (key : Key) → (∀ term ∈ key.components, property term) →
      ∀ result, region.read key = .ok result → property result
  | ⟨id, objects, input, owner⟩, regionHolds, key, keyHolds, result, succeeds => by
      rw [Region.terms, List.forall_mem_append] at regionHolds
      have leafHolds : ∀ address : Address, property address.toTerm → ∀ result,
          Region.readAddress ⟨id, objects, input, owner⟩ key address = .ok result →
            property result := by
        intro address addressHolds result succeeds
        refine Region.readAddress_holds storable.toHereditary keyHolds ?_ ?_ addressHolds succeeds
        · intro number key keyHolds result succeeds
          exact readObject_holds objects regionHolds.1 number key keyHolds result succeeds
        · intro key keyHolds result succeeds
          refine readLog_holds input regionHolds.2 key keyHolds ?_ result succeeds
          rintro _ ⟨⟩
          exact storable.inputRead keyHolds
      rw [Region.read_eq] at succeeds
      split at succeeds
      · obtain ⟨values, areValues, succeeds⟩ := Model.bind_eq_ok.1 succeeds
        obtain ⟨fallback, isFallback, isResult⟩ := Model.bind_eq_ok.1 succeeds
        rw [← Model.pure_eq_ok.1 isResult]
        apply storable.joinLeaves (RegionId.defaultValue_holds storable.toHereditary isFallback)
        refine forall_of_mapM_ok ?_ areValues
        intro leaf member choice isChoice
        obtain ⟨addressHolds, guardHolds⟩ := storable.splitReference
          (Key.forall_components.1 keyHolds).1 (storable.ofBool true) leaf member
        obtain ⟨value, isValue, isPair⟩ := Model.bind_eq_ok.1 isChoice
        rw [← Model.pure_eq_ok.1 isPair]
        exact ⟨guardHolds, leafHolds leaf.address addressHolds value isValue⟩
      · exact leafHolds _ (storable.classify (Key.forall_components.1 keyHolds).1) result succeeds

theorem readObject_holds {region : RegionId} : (objects : List ObjectStore) →
    (∀ term ∈ objectsTerms objects, property term) → (number : UInt32) → (key : Key) →
      (∀ term ∈ key.components, property term) →
        ∀ result, readObject region objects number key = .ok result → property result
  | [], _, _, _, _, _, succeeds => by
      rw [readObject] at succeeds
      exact RegionId.defaultValue_holds storable.toHereditary succeeds
  | ⟨address, values, updates⟩ :: rest, objectsHold, number, key, keyHolds, result, succeeds => by
      rw [objectsTerms, List.forall_mem_append, List.forall_mem_append, List.forall_mem_map]
        at objectsHold
      obtain ⟨⟨valuesHold, updatesHold⟩, restHolds⟩ := objectsHold
      rw [readObject] at succeeds
      split at succeeds
      · refine readLog_holds updates updatesHold key keyHolds ?_ result succeeds
        intro base isBase
        exact storedValue_holds storable.toHereditary valuesHold
          (Key.forall_components.1 keyHolds).2 isBase
      · exact readObject_holds rest restHolds number key keyHolds result succeeds

private theorem readLog_holds : (log : List Node) → (∀ term ∈ logTerms log, property term) →
    (key : Key) → (∀ term ∈ key.components, property term) → {base : Except Fault Term} →
      (∀ result, base = .ok result → property result) →
        ∀ result, readLog log key base = .ok result → property result
  | [], _, _, _, _, baseHolds, result, succeeds => by
      rw [readLog] at succeeds
      exact baseHolds result succeeds
  | ⟨_, entry, _⟩ :: older, logHolds, key, keyHolds, base, baseHolds, result, succeeds => by
      rw [logTerms, List.forall_mem_append] at logHolds
      rw [readLog] at succeeds
      obtain ⟨covers, isCovers, rest⟩ := Model.bind_eq_ok.1 succeeds
      split at rest
      · exact readLog_holds older logHolds.2 key keyHolds baseHolds result rest
      · exact Entry.valueAt_holds entry logHolds.1 key keyHolds result rest
      · obtain ⟨value, isValue, rest⟩ := Model.bind_eq_ok.1 rest
        obtain ⟨previous, isPrevious, rest⟩ := Model.bind_eq_ok.1 rest
        rw [← Model.pure_eq_ok.1 rest]
        exact storable.ite (Entry.includes_holds entry logHolds.1 key keyHolds covers isCovers)
          (Entry.valueAt_holds entry logHolds.1 key keyHolds value isValue)
          (readLog_holds older logHolds.2 key keyHolds baseHolds previous isPrevious)

theorem Entry.includes_holds : (entry : Entry) → (∀ term ∈ entry.terms, property term) →
    (key : Key) → (∀ term ∈ key.components, property term) →
      ∀ result, entry.includes key = .ok result → property result
  | .write written value guard, entryHolds, key, keyHolds, result, succeeds => by
      rw [Entry.forall_write] at entryHolds
      rw [Entry.includes] at succeeds
      cases succeeds
      exact storable.and (Key.equals_holds storable.toHereditary entryHolds.1 keyHolds)
        entryHolds.2.2
  | .copy source range guard, entryHolds, key, keyHolds, result, succeeds => by
      obtain ⟨_, rangeHolds, guardHolds⟩ := Entry.forall_copy.1 entryHolds
      rw [Entry.includes] at succeeds
      split at succeeds
      · cases succeeds
        exact guardHolds
      · obtain ⟨covers, isCovers, isResult⟩ := Model.bind_eq_ok.1 succeeds
        rw [← Model.pure_eq_ok.1 isResult]
        have coversHolds :=
          CopyRange.includes_holds storable.toHereditary rangeHolds keyHolds isCovers
        exact storable.and coversHolds guardHolds
  | .overlay source members ends guard, entryHolds, key, keyHolds, result, succeeds => by
      obtain ⟨_, membersHold, endsHold, guardHolds⟩ := Entry.forall_overlay.1 entryHolds
      have sameObject := storable.equals (OverlayEnds.forall_terms.1 endsHold).2
        (Key.forall_components.1 keyHolds).1
      rw [Entry.includes] at succeeds
      split at succeeds
      · cases succeeds
        exact guardHolds
      · split at succeeds
        · cases succeeds
          exact storable.and sameObject guardHolds
        · obtain ⟨member, isMember, isResult⟩ := Model.bind_eq_ok.1 succeeds
          rw [← Model.pure_eq_ok.1 isResult]
          have memberHolds := Region.read_holds members membersHold (ends.convert key)
            (OverlayEnds.convert_holds endsHold keyHolds) member isMember
          exact storable.and (storable.and sameObject memberHolds) guardHolds

private theorem Entry.valueAt_holds : (entry : Entry) → (∀ term ∈ entry.terms, property term) →
    (key : Key) → (∀ term ∈ key.components, property term) →
      ∀ result, entry.valueAt key = .ok result → property result
  | .write written value guard, entryHolds, key, keyHolds, result, succeeds => by
      rw [Entry.forall_write] at entryHolds
      rw [Entry.valueAt] at succeeds
      cases succeeds
      exact entryHolds.2.1
  | .copy source range guard, entryHolds, key, keyHolds, result, succeeds => by
      obtain ⟨sourceHolds, rangeHolds, _⟩ := Entry.forall_copy.1 entryHolds
      rw [Entry.valueAt] at succeeds
      exact Region.read_holds source sourceHolds (range.convert key)
        (CopyRange.convert_holds storable.toHereditary rangeHolds keyHolds) result succeeds
  | .overlay source members ends guard, entryHolds, key, keyHolds, result, succeeds => by
      obtain ⟨sourceHolds, _, endsHold, _⟩ := Entry.forall_overlay.1 entryHolds
      rw [Entry.valueAt] at succeeds
      exact Region.read_holds source sourceHolds (ends.convert key)
        (OverlayEnds.convert_holds endsHold keyHolds) result succeeds

end

end Reads

/-! ## Updates -/

section Updates

variable (hereditary : Term.Hereditary property) {region : Region}

theorem Fresh.ensures_foldlM {α β : Type} {step : β → α → Fresh β} {holds : β → Prop}
    {items : List α} {start : β}
    (each : ∀ value, ∀ item ∈ items, holds value → (step value item).Ensures holds)
    (startHolds : holds start) : (items.foldlM step start).Ensures holds := by
  induction items generalizing start with
  | nil => exact ensures_pure startHolds
  | cons item rest inductionHypothesis =>
      rw [List.foldlM_cons]
      refine (each start item List.mem_cons_self startHolds).bind ?_
      intro value valueHolds
      exact inductionHypothesis
        (fun later other member => each later other (List.mem_cons_of_mem item member)) valueHolds

namespace Region

theorem withOwner_holds (regionHolds : ∀ term ∈ region.terms, property term) (owner : Owner) :
    ∀ term ∈ ({ region with owner } : Region).terms, property term := by
  rw [forall_terms] at regionHolds ⊢
  exact regionHolds

private theorem object_holds (regionHolds : ∀ term ∈ region.terms, property term)
    (address : UInt32) :
    ∀ term ∈ (region.object address).terms, property term := by
  rw [object, object?]
  cases found : region.objects.find? fun object => object.address = address with
  | none =>
      intro term member
      cases member
  | some object => exact (forall_terms.1 regionHolds).1 object (List.mem_of_find?_eq_some found)

private theorem setObject_holds {object : ObjectStore}
    (regionHolds : ∀ term ∈ region.terms, property term)
    (objectHolds : ∀ term ∈ object.terms, property term) :
    ∀ term ∈ (region.setObject object).terms, property term := by
  rw [forall_terms] at regionHolds ⊢
  refine ⟨?_, regionHolds.2⟩
  intro other member
  rcases mem_insertObject member with rfl | before
  · exact objectHolds
  · exact regionHolds.1 other before

private theorem pushEntry_holds {entry : Entry} (regionHolds : ∀ term ∈ region.terms, property term)
    (entryHolds : ∀ term ∈ entry.terms, property term) (address : Address) :
    (region.pushEntry address entry).Ensures fun result =>
      ∀ term ∈ result.terms, property term := by
  have pushed : ∀ log : Log, (∀ term ∈ logTerms log, property term) →
      (Log.push log entry).Ensures fun result => ∀ term ∈ logTerms result, property term := by
    intro log logHolds supply
    show ∀ term ∈ logTerms (⟨⟨supply.nodes⟩, entry, log.size + 1⟩ :: log), property term
    rw [logTerms, List.forall_mem_append]
    exact ⟨entryHolds, logHolds⟩
  cases address with
  | null => exact Fresh.ensures_pure regionHolds
  | object number =>
      obtain ⟨valuesHold, updatesHold⟩ :=
        ObjectStore.forall_terms.1 (object_holds regionHolds number)
      refine (pushed _ updatesHold).map ?_
      intro log logHolds
      exact setObject_holds regionHolds (ObjectStore.forall_terms.2 ⟨valuesHold, logHolds⟩)
  | symbolic reference =>
      have parts := forall_terms.1 regionHolds
      refine (pushed _ parts.2).map ?_
      intro log logHolds
      exact forall_terms.2 ⟨parts.1, logHolds⟩

private theorem writeLeaf_holds {key : Key} {value : Term} {leaf : Leaf}
    (regionHolds : ∀ term ∈ region.terms, property term)
    (keyHolds : ∀ term ∈ key.components, property term)
    (valueHolds : property value)
    (leafHolds : property leaf.address.toTerm ∧ property leaf.guard) :
    (region.writeLeaf key value leaf).Ensures fun result =>
      ∀ term ∈ result.terms, property term := by
  have pushed := pushEntry_holds regionHolds
    (Entry.forall_write.2 ⟨Key.withAddress_holds leafHolds.1 keyHolds, valueHolds, leafHolds.2⟩)
    leaf.address
  simp only [writeLeaf]
  split
  · next number slot _ _ =>
      split
      · have object := ObjectStore.forall_terms.1 (object_holds regionHolds number)
        refine Fresh.ensures_pure
          (setObject_holds regionHolds (ObjectStore.forall_terms.2 ⟨?_, object.2⟩))
        intro stored member
        rcases OrderedMap.mem_insert member with rfl | before
        · exact valueHolds
        · exact object.1 stored before
      · exact pushed
  · exact pushed

include hereditary

theorem write_holds {key : Key} {value guard : Term}
    (regionHolds : ∀ term ∈ region.terms, property term)
    (keyHolds : ∀ term ∈ key.components, property term)
    (valueHolds : property value)
    (guardHolds : property guard) :
    (region.write key value guard).Ensures fun result =>
      ∀ term ∈ result.terms, property term := by
  refine Fresh.ensures_foldlM ?_ regionHolds
  intro current leaf member currentHolds
  exact writeLeaf_holds currentHolds keyHolds valueHolds
    (hereditary.splitReference (Key.forall_components.1 keyHolds).1 guardHolds leaf member)

private theorem pushRanged_holds {destination guard : Term} {entry : Term → Term → Entry}
    (regionHolds : ∀ term ∈ region.terms, property term)
    (destinationHolds : property destination)
    (guardHolds : property guard)
    (entryHolds : ∀ address condition, property address → property condition →
      ∀ term ∈ (entry address condition).terms, property term) :
    (region.pushRanged destination guard entry).Ensures fun result =>
      ∀ term ∈ result.terms, property term := by
  refine Fresh.ensures_foldlM ?_ regionHolds
  intro current leaf member currentHolds
  obtain ⟨addressHolds, conditionHolds⟩ :=
    hereditary.splitReference destinationHolds guardHolds leaf member
  exact pushEntry_holds currentHolds (entryHolds _ _ addressHolds conditionHolds) leaf.address

theorem copyRange_holds {source result : Region} {range : CopyRange} {guard : Term}
    {supply after : Supply}
    (regionHolds : ∀ term ∈ region.terms, property term)
    (sourceHolds : ∀ term ∈ source.terms, property term)
    (rangeHolds : ∀ term ∈ range.terms, property term)
    (guardHolds : property guard)
    (succeeds : (region.copyRange source range guard).run.run supply = (.ok result, after)) :
    ∀ term ∈ result.terms, property term := by
  rw [CopyRange.forall_terms] at rangeHolds
  obtain ⟨sourceAddress, sourceFrom, destination, destinationFrom, destinationTo⟩ := rangeHolds
  rw [copyRange] at succeeds
  split at succeeds
  · rw [show result = _ from (congrArg Prod.fst (Fresh.run_fresh_eq_ok succeeds)).symm]
    refine pushRanged_holds hereditary regionHolds destination guardHolds ?_ supply
    intro address condition addressHolds conditionHolds
    exact Entry.forall_copy.2 ⟨sourceHolds, CopyRange.forall_terms.2
      ⟨sourceAddress, sourceFrom, addressHolds, destinationFrom, destinationTo⟩, conditionHolds⟩
  · cases succeeds

theorem overlay_holds {source members result : Region} {ends : OverlayEnds} {guard : Term}
    {supply after : Supply}
    (regionHolds : ∀ term ∈ region.terms, property term)
    (sourceHolds : ∀ term ∈ source.terms, property term)
    (membersHold : ∀ term ∈ members.terms, property term)
    (endsHold : ∀ term ∈ ends.terms, property term)
    (guardHolds : property guard)
    (succeeds : (region.overlay source members ends guard).run.run supply =
      (.ok result, after)) :
    ∀ term ∈ result.terms, property term := by
  rw [OverlayEnds.forall_terms] at endsHold
  rw [overlay] at succeeds
  split at succeeds
  · rw [show result = _ from (congrArg Prod.fst (Fresh.run_fresh_eq_ok succeeds)).symm]
    refine pushRanged_holds hereditary regionHolds endsHold.2 guardHolds ?_ supply
    intro address condition addressHolds conditionHolds
    exact Entry.forall_overlay.2 ⟨sourceHolds, membersHold,
      OverlayEnds.forall_terms.2 ⟨endsHold.1, addressHolds⟩, conditionHolds⟩
  · cases succeeds

end Region

/-! ## Merges -/

include hereditary

private theorem Entry.withGuard_holds {entry : Entry} {condition : Term}
    (entryHolds : ∀ term ∈ entry.terms, property term)
    (conditionHolds : property condition) :
    ∀ term ∈ (entry.withGuard condition).terms, property term := by
  cases entry with
  | write key value guard =>
      obtain ⟨keyHolds, valueHolds, guardHolds⟩ := forall_write.1 entryHolds
      exact forall_write.2 ⟨keyHolds, valueHolds, hereditary.and guardHolds conditionHolds⟩
  | copy source range guard =>
      obtain ⟨sourceHolds, rangeHolds, guardHolds⟩ := forall_copy.1 entryHolds
      exact forall_copy.2 ⟨sourceHolds, rangeHolds, hereditary.and guardHolds conditionHolds⟩
  | overlay source members ends guard =>
      obtain ⟨sourceHolds, membersHold, endsHold, guardHolds⟩ := forall_overlay.1 entryHolds
      exact forall_overlay.2
        ⟨sourceHolds, membersHold, endsHold, hereditary.and guardHolds conditionHolds⟩

private theorem Log.replay_holds {nodes onto : Log} {condition : Term}
    (nodesHold : ∀ term ∈ logTerms nodes, property term)
    (ontoHolds : ∀ term ∈ logTerms onto, property term)
    (conditionHolds : property condition) :
    (replay condition nodes onto).Ensures fun log => ∀ term ∈ logTerms log, property term := by
  induction nodes with
  | nil => exact Fresh.ensures_pure ontoHolds
  | cons node older inductionHypothesis =>
      rw [forall_logTerms, List.forall_mem_cons, ← forall_logTerms] at nodesHold
      rw [replay]
      refine (inductionHypothesis nodesHold.2).bind ?_
      intro log logHolds supply
      show ∀ term ∈ logTerms (⟨⟨supply.nodes⟩, node.entry.withGuard condition, log.size + 1⟩ :: log),
        property term
      rw [logTerms, List.forall_mem_append]
      exact ⟨Entry.withGuard_holds hereditary nodesHold.1 conditionHolds, logHolds⟩

theorem Log.merge_holds {left right : Log} {guard : Term}
    (leftHolds : ∀ term ∈ logTerms left, property term)
    (rightHolds : ∀ term ∈ logTerms right, property term)
    (guardHolds : property guard) :
    (merge left right guard).Ensures fun log => ∀ term ∈ logTerms log, property term := by
  rw [merge]
  split
  · exact Fresh.ensures_pure leftHolds
  · rw [forall_logTerms] at leftHolds rightHolds
    have onlyLeft : ∀ term ∈ logTerms (ancestry left right).onlyLeft, property term :=
      forall_logTerms.2 fun node member => leftHolds node (onlyLeft_subset left right member)
    have onlyRight : ∀ term ∈ logTerms (ancestry left right).onlyRight, property term :=
      forall_logTerms.2 fun node member => rightHolds node (onlyRight_subset left right member)
    have shared : ∀ term ∈ logTerms (ancestry left right).shared, property term :=
      forall_logTerms.2 fun node member =>
        leftHolds node ((shared_suffix left right).subset member)
    refine (replay_holds hereditary onlyRight shared (hereditary.not guardHolds)).bind ?_
    intro log logHolds
    exact replay_holds hereditary onlyLeft logHolds guardHolds

namespace Region

private theorem mergeValues_holds {fallback guard : Term}
    {left right : OrderedMap (Option Constant) Term}
    (fallbackHolds : property fallback)
    (guardHolds : property guard)
    (leftHolds : ∀ stored ∈ left.entries, property stored.2)
    (rightHolds : ∀ stored ∈ right.entries, property stored.2) :
    ∀ stored ∈ (mergeValues fallback guard left right).entries, property stored.2 := by
  have leftFound := OrderedMap.getD_holds leftHolds fallbackHolds
  have rightFound := OrderedMap.getD_holds rightHolds fallbackHolds
  unfold mergeValues
  generalize left.unionKeys right = slots
  suffices all : ∀ merged : OrderedMap (Option Constant) Term,
      (∀ stored ∈ merged.entries, property stored.2) →
        ∀ stored ∈ (slots.foldl (fun merged slot => merged.insert slot
          (guard.ite ((left.find? slot).getD fallback) ((right.find? slot).getD fallback)))
          merged).entries, property stored.2 from
    all .empty (by simp [OrderedMap.empty])
  induction slots with
  | nil => exact fun merged mergedHolds => mergedHolds
  | cons slot rest inductionHypothesis =>
      intro merged mergedHolds
      rw [List.foldl_cons]
      apply inductionHypothesis
      intro stored member
      rcases OrderedMap.mem_insert member with rfl | before
      · exact hereditary.ite guardHolds (leftFound slot) (rightFound slot)
      · exact mergedHolds stored before

private theorem mergeObjects_holds {region : RegionId} {guard : Term}
    {left right merged : ObjectStore}
    {supply after : Supply}
    (leftHolds : ∀ term ∈ left.terms, property term)
    (rightHolds : ∀ term ∈ right.terms, property term)
    (guardHolds : property guard)
    (succeeds : (mergeObjects region guard left right).run.run supply = (.ok merged, after)) :
    ∀ term ∈ merged.terms, property term := by
  rw [ObjectStore.forall_terms] at leftHolds rightHolds
  rw [mergeObjects] at succeeds
  obtain ⟨fallback, _, isFallback, succeeds⟩ := Fresh.run_bind_eq_ok succeeds
  obtain ⟨updates, _, merges, succeeds⟩ := Fresh.run_bind_eq_ok succeeds
  cases succeeds
  have fallbackHolds :=
    RegionId.defaultValue_holds hereditary (Fresh.run_lift_eq_ok isFallback).1
  have updatesHold := Log.merge_holds hereditary leftHolds.2 rightHolds.2 guardHolds
  refine ObjectStore.forall_terms.2
    ⟨mergeValues_holds hereditary fallbackHolds guardHolds leftHolds.1 rightHolds.1, ?_⟩
  rw [show updates = _ from (congrArg Prod.fst (Fresh.run_fresh_eq_ok merges)).symm]
  exact updatesHold _

omit hereditary in
/-- What each step of a fold keeps, a fold that succeeds keeps. -/
theorem forall_of_foldlM_ok {α β : Type} (holds : β → Prop)
    {step : β → α → ExceptT Fault Fresh β} {items : List α} {start result : β}
    {supply after : Supply}
    (each : ∀ {value item next before later}, holds value →
      (step value item).run.run before = (.ok next, later) → holds next)
    (startHolds : holds start)
    (succeeds : (items.foldlM step start).run.run supply = (.ok result, after)) :
    holds result := by
  induction items generalizing start supply with
  | nil =>
      cases succeeds
      exact startHolds
  | cons item rest inductionHypothesis =>
      rw [List.foldlM_cons] at succeeds
      obtain ⟨value, _, steps, succeeds⟩ := Fresh.run_bind_eq_ok succeeds
      exact inductionHypothesis (each startHolds steps) succeeds

theorem merge_holds {left right merged : Region} {guard : Term} {owner : Owner}
    {supply after : Supply}
    (leftHolds : ∀ term ∈ left.terms, property term)
    (rightHolds : ∀ term ∈ right.terms, property term)
    (guardHolds : property guard)
    (succeeds : (left.merge right guard owner).run.run supply = (.ok merged, after)) :
    ∀ term ∈ merged.terms, property term := by
  rw [merge] at succeeds
  obtain ⟨objects, _, mergesObjects, succeeds⟩ := Fresh.run_bind_eq_ok succeeds
  obtain ⟨input, _, mergesInput, succeeds⟩ := Fresh.run_bind_eq_ok succeeds
  cases succeeds
  refine forall_terms.2 ⟨?_, ?_⟩
  · refine forall_of_foldlM_ok (fun objects =>
      ∀ object ∈ objects, ∀ term ∈ object.terms, property term) ?_ (by simp) mergesObjects
    intro objects address next before later objectsHold steps
    obtain ⟨object, _, mergesObject, isNext⟩ := Fresh.run_bind_eq_ok steps
    cases isNext
    intro other member
    rcases mem_insertObject member with rfl | earlier
    · exact mergeObjects_holds hereditary (object_holds leftHolds address)
        (object_holds rightHolds address) guardHolds mergesObject
    · exact objectsHold other earlier
  · rw [show input = _ from (congrArg Prod.fst (Fresh.run_fresh_eq_ok mergesInput)).symm]
    exact Log.merge_holds hereditary (forall_terms.1 leftHolds).2 (forall_terms.1 rightHolds).2
      guardHolds _

end Region

end Updates

end SymbolicHeap
