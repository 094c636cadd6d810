import SymbolicHeap.Proofs.Heap.History

/-!
Contract: the merge of two regions is a choice between them.

Two versions of a log are merged by replaying what only one of them has, under
the guard of its side, on what both share. Below the logs, stored values become
choices by the guard. So the merged region holds what the left one holds where
the guard is true, and what the right one holds where it is false.

Owns:
- replayed and merged logs, merged values, objects and regions;
- merged regions are well keyed and recorded.
-/

namespace SymbolicHeap

variable {interpretation : Interpretation}

/-! ## Logs -/

private theorem logWellKeyed_iff {region : RegionId} {target : LogTarget} {log : Log} :
    LogWellKeyed interpretation region target log ↔
      ∀ node ∈ log, node.entry.WellKeyed interpretation region target := by
  induction log with
  | nil => simp [LogWellKeyed]
  | cons node older inductionHypothesis =>
      obtain ⟨id, entry, length⟩ := node
      rw [LogWellKeyed, List.forall_mem_cons, inductionHypothesis]

private theorem logContents_append (model : Model) (newer older : Log) (address : Constant)
    (slot : Option Constant) (base : Constant) :
    logContents model (newer ++ older) address slot base =
      logContents model newer address slot (logContents model older address slot base) := by
  induction newer with
  | nil => rw [List.nil_append, logContents]
  | cons node rest inductionHypothesis =>
      obtain ⟨id, entry, length⟩ := node
      rw [List.cons_append, logContents, logContents, inductionHypothesis]

namespace Entry

variable {region : RegionId} {target : LogTarget} {entry : Entry} {condition : Term}

theorem WellKeyed.guard (wellKeyed : entry.WellKeyed interpretation region target) :
    entry.guard.Stored interpretation .bool := by
  cases entry with
  | write key value guard =>
      rw [WellKeyed] at wellKeyed
      exact wellKeyed.2.2.2
  | copy source range guard =>
      rw [WellKeyed] at wellKeyed
      exact wellKeyed.2.2.2.2.2
  | overlay source members ends guard =>
      rw [WellKeyed] at wellKeyed
      exact wellKeyed.2.2.2.2.2.2.2.2

theorem WellKeyed.withGuard (wellKeyed : entry.WellKeyed interpretation region target)
    (conditionStored : condition.Stored interpretation .bool) :
    (entry.withGuard condition).WellKeyed interpretation region target := by
  have guardStored : (entry.guard.and condition).Stored interpretation .bool :=
    (wellKeyed.guard.truth.and conditionStored.truth).stored
  cases entry with
  | write key value guard =>
      rw [Entry.withGuard, WellKeyed]
      rw [WellKeyed] at wellKeyed
      exact ⟨wellKeyed.1, wellKeyed.2.1, wellKeyed.2.2.1, guardStored⟩
  | copy source range guard =>
      rw [Entry.withGuard, WellKeyed]
      rw [WellKeyed] at wellKeyed
      obtain ⟨admits, supports, sameId, sourceWellKeyed, rangeSorted, _⟩ := wellKeyed
      exact ⟨admits, supports, sameId, sourceWellKeyed, rangeSorted, guardStored⟩
  | overlay source members ends guard =>
      rw [Entry.withGuard, WellKeyed]
      rw [WellKeyed] at wellKeyed
      obtain ⟨admits, supports, sameId, sourceWellKeyed, isBool, sameSort, membersWellKeyed,
        sourceReference, _⟩ := wellKeyed
      exact ⟨admits, supports, sameId, sourceWellKeyed, isBool, sameSort, membersWellKeyed,
        sourceReference, guardStored⟩

theorem Recorded.withGuard {history : History} (recorded : entry.Recorded history)
    (condition : Term) : (entry.withGuard condition).Recorded history := by
  cases entry <;> rw [Entry.withGuard, Recorded] <;> rw [Recorded] at recorded <;> exact recorded

private theorem provides_withGuard (model : Model) (entry : Entry) (condition : Term) :
    (entry.withGuard condition).provides model = entry.provides model := by
  funext slot
  cases entry <;> simp only [Entry.withGuard, provides]

/-- One more guard is one more condition for covering a location. -/
private theorem covers_withGuard (wellKeyed : entry.WellKeyed interpretation region target)
    (conditionStored : condition.Stored interpretation .bool)
    (address : Constant)
    (slot : Option Constant) :
    (entry.withGuard condition).covers interpretation.model address slot =
      (entry.covers interpretation.model address slot &&
        interpretation.model.holds condition) := by
  have bothHold := (wellKeyed.guard.truth.and conditionStored.truth).holds
  cases entry <;>
    simp only [Entry.withGuard, Entry.guard, covers] at bothHold ⊢ <;>
    simp only [bothHold, Bool.and_assoc]

end Entry

/-- The log is in order, and leaves what one of two logs leaves, by the guard. -/
structure Log.Chooses
    (interpretation : Interpretation)
    (region : RegionId)
    (target : LogTarget)
    (guard : Term)
    (left right merged : Log) :
    Prop where
  wellKeyed : LogWellKeyed interpretation region target merged
  contents : ∀ address slot base,
    logContents interpretation.model merged address slot base =
      logContents interpretation.model
        (if interpretation.model.holds guard then left else right) address slot base

namespace Log

variable {history : History} {region : RegionId} {target : LogTarget}

private theorem replay_records {condition : Term} {nodes onto : Log}
    (conditionStored : condition.Stored interpretation .bool)
    (nodesRecorded : ∀ node ∈ nodes, node.entry.Recorded history)
    (nodesWellKeyed : ∀ node ∈ nodes, node.entry.WellKeyed interpretation region target)
    (ontoRecorded : LogRecorded history onto)
    (ontoWellKeyed : LogWellKeyed interpretation region target onto) :
    (replay condition nodes onto).Records history fun newer log =>
      LogRecorded newer log ∧
        Chooses interpretation region target condition (nodes ++ onto) onto log := by
  induction nodes with
  | nil => exact Fresh.records_pure ⟨ontoRecorded, ontoWellKeyed, fun _ _ _ => by simp⟩
  | cons node older inductionHypothesis =>
      rw [List.forall_mem_cons] at nodesRecorded nodesWellKeyed
      rw [replay]
      refine (inductionHypothesis nodesRecorded.2 nodesWellKeyed.2).bind ?_
      rintro newer log extended ⟨logRecorded, chooses⟩
      have entryRecorded := (Entry.Recorded.mono extended _ nodesRecorded.1).withGuard condition
      refine (push_records logRecorded entryRecorded).imp ?_
      rintro further _ _ ⟨pushedRecorded, id, rfl⟩
      refine ⟨pushedRecorded, ?_, ?_⟩
      · rw [LogWellKeyed]
        exact ⟨nodesWellKeyed.1.withGuard conditionStored, chooses.wellKeyed⟩
      · intro address slot base
        obtain ⟨nodeId, entry, length⟩ := node
        rw [logContents, chooses.contents, Entry.provides_withGuard,
          Entry.covers_withGuard nodesWellKeyed.1 conditionStored]
        cases interpretation.model.holds condition <;> simp [logContents]

/-- A merged log leaves what the log of one side leaves. -/
theorem merge_records {guard : Term} {left right : Log}
    (guardStored : guard.Stored interpretation .bool)
    (leftRecorded : LogRecorded history left)
    (leftWellKeyed : LogWellKeyed interpretation region target left)
    (rightRecorded : LogRecorded history right)
    (rightWellKeyed : LogWellKeyed interpretation region target right) :
    (merge left right guard).Records history fun newer log =>
      LogRecorded newer log ∧ Chooses interpretation region target guard left right log := by
  rw [merge]
  split
  · next same =>
      have sameLog := leftRecorded.chained.eq_of_sameVersion rightRecorded.chained same
      refine Fresh.records_pure ⟨leftRecorded, leftWellKeyed, fun _ _ _ => ?_⟩
      rw [← sameLog, ite_self]
  · have rightSplit := leftRecorded.chained.ancestry_right rightRecorded.chained
    have leftSplit := ancestry_left left right
    have onlyLeft := onlyLeft_subset left right
    have onlyRight := onlyRight_subset left right
    have shared := shared_suffix left right
    have sharedWellKeyed :
        LogWellKeyed interpretation region target (ancestry left right).shared :=
      logWellKeyed_iff.2 fun node member =>
        logWellKeyed_iff.1 leftWellKeyed node (shared.subset member)
    refine (replay_records guardStored.truth.not.stored
      (fun node member => rightRecorded.entry (onlyRight member))
      (fun node member => logWellKeyed_iff.1 rightWellKeyed node (onlyRight member))
      (leftRecorded.of_suffix shared) sharedWellKeyed).bind ?_
    rintro newer rightLog extended ⟨rightLogRecorded, rightChooses⟩
    refine (replay_records guardStored
      (fun node member =>
        (LogRecorded.mono extended left leftRecorded).entry (onlyLeft member))
      (fun node member => logWellKeyed_iff.1 leftWellKeyed node (onlyLeft member))
      rightLogRecorded rightChooses.wellKeyed).imp ?_
    rintro further log _ ⟨logRecorded, chooses⟩
    refine ⟨logRecorded, chooses.wellKeyed, ?_⟩
    intro address slot base
    have rightContents := rightChooses.contents address slot base
    rw [rightSplit, guardStored.truth.not.holds] at rightContents
    rw [chooses.contents]
    -- Under the guard only the left replay shows, and otherwise only the right one.
    cases holds : interpretation.model.holds guard with
    | true =>
        rw [holds] at rightContents
        simp only [↓reduceIte, logContents_append, rightContents, Bool.not_true,
          Bool.false_eq_true]
        rw [← logContents_append, leftSplit]
    | false =>
        rw [holds] at rightContents
        simpa using rightContents

end Log

/-! ## Stored values -/

section Values

variable {region : RegionId} {guard : Term} {left right : OrderedMap (Option Constant) Term}

private theorem mergeValues_contents (known : region.Known interpretation.vocabulary)
    (guardStored : guard.Stored interpretation .bool)
    (leftWellKeyed : ValuesWellKeyed interpretation region left)
    (rightWellKeyed : ValuesWellKeyed interpretation region right)
    (slot : Option Constant) :
    storedContents interpretation.model region
        (Region.mergeValues (.const region.initial) guard left right) slot =
      storedContents interpretation.model region
        (if interpretation.model.holds guard then left else right) slot := by
  have choice := guardStored.truth.ite (findStored_denotes known leftWellKeyed slot)
    (findStored_denotes known rightWellKeyed slot)
  rw [storedContents, Region.mergeValues, OrderedMap.find?_foldl_insert, OrderedMap.find?_empty]
  by_cases stored : slot ∈ left.unionKeys right
  · rw [if_pos stored]
    refine choice.valueOf.trans ?_
    cases interpretation.model.holds guard <;> rfl
  · obtain ⟨notLeft, notRight⟩ := OrderedMap.not_mem_unionKeys.1 stored
    rw [if_neg stored]
    cases interpretation.model.holds guard <;> simp [storedContents, notLeft, notRight]

theorem ValuesWellKeyed.merge (known : region.Known interpretation.vocabulary)
    (guardStored : guard.Stored interpretation .bool)
    (leftWellKeyed : ValuesWellKeyed interpretation region left)
    (rightWellKeyed : ValuesWellKeyed interpretation region right) :
    ValuesWellKeyed interpretation region
      (Region.mergeValues (.const region.initial) guard left right) := by
  have fits : ∀ slot ∈ left.unionKeys right, region.FitsSlot slot := by
    intro slot member
    rw [OrderedMap.unionKeys, List.mem_append, List.mem_filter] at member
    rcases member with inLeft | ⟨inRight, _⟩
    · obtain ⟨stored, member, rfl⟩ := List.mem_map.1 inLeft
      exact (leftWellKeyed.fits stored member).1
    · obtain ⟨stored, member, rfl⟩ := List.mem_map.1 inRight
      exact (rightWellKeyed.fits stored member).1
  rw [Region.mergeValues]
  refine List.foldlRecOn _ _ ValuesWellKeyed.empty ?_
  intro values wellKeyed slot member
  exact wellKeyed.insert (fits slot member)
    (guardStored.truth.ite (findStored_denotes known leftWellKeyed slot)
      (findStored_denotes known rightWellKeyed slot)).stored

end Values

/-! ## Objects -/

/-- The object is in order, and holds what one of two objects holds, by the
guard. -/
structure ObjectStore.Chooses
    (interpretation : Interpretation)
    (region : RegionId)
    (guard : Term)
    (left right merged : ObjectStore) :
    Prop where
  address : merged.address = left.address
  wellKeyed : merged.WellKeyed interpretation region
  contents : ∀ slot, merged.contents interpretation.model region slot =
    (if interpretation.model.holds guard then left else right).contents interpretation.model
      region slot

private theorem Region.mergeObjects_records {history : History} {region : RegionId} {guard : Term}
    {left right : ObjectStore}
    (known : region.Known interpretation.vocabulary)
    (guardStored : guard.Stored interpretation .bool)
    (sameAddress : left.address = right.address)
    (leftRecorded : LogRecorded history left.updates)
    (leftWellKeyed : left.WellKeyed interpretation region)
    (rightRecorded : LogRecorded history right.updates)
    (rightWellKeyed : right.WellKeyed interpretation region) :
    Fresh.RecordsOk (mergeObjects region guard left right) history fun newer merged =>
      LogRecorded newer merged.updates ∧
        ObjectStore.Chooses interpretation region guard left right merged := by
  rw [mergeObjects]
  refine Fresh.recordsOk_check ?_
  intro fallback isFallback
  cases (RegionId.defaultValue_eq known).1.symm.trans isFallback
  refine (Log.merge_records guardStored leftRecorded leftWellKeyed.2 rightRecorded
    (sameAddress ▸ rightWellKeyed.2)).ok.bind ?_
  rintro newer log extended ⟨logRecorded, chooses⟩
  refine Fresh.recordsOk_pure ⟨logRecorded, rfl, ⟨?_, chooses.wellKeyed⟩, ?_⟩
  · exact leftWellKeyed.1.merge known guardStored rightWellKeyed.1
  · intro slot
    rw [ObjectStore.contents, chooses.contents,
      mergeValues_contents known guardStored leftWellKeyed.1 rightWellKeyed.1]
    cases interpretation.model.holds guard with
    | true => rfl
    | false =>
        show logContents _ right.updates (.heap left.address) slot _ = _
        rw [sameAddress]
        rfl

/-! ## Regions -/

/-- The region is in order, and holds what one of two regions holds, by the
guard. -/
structure Region.Chooses
    (interpretation : Interpretation)
    (guard : Term)
    (left right merged : Region) :
    Prop where
  id : merged.id = left.id
  wellKeyed : merged.WellKeyed interpretation
  contents : ∀ place slot, merged.contents interpretation.model place slot =
    (if interpretation.model.holds guard then left else right).contents interpretation.model
      place slot

namespace Region

variable {history : History} {guard : Term} {left right : Region}

/-- Merged objects at the addresses so far. -/
structure ObjectsMerged
    (interpretation : Interpretation)
    (guard : Term)
    (left right : Region)
    (history : History)
    (past : List UInt32)
    (objects : List ObjectStore) :
    Prop where
  recorded : ∀ object ∈ objects, LogRecorded history object.updates
  chooses : ∀ object ∈ objects, ObjectStore.Chooses interpretation left.id guard
    (left.object object.address) (right.object object.address) object
  all : ∀ address ∈ past, ∃ object ∈ objects, object.address = address

theorem ObjectsMerged.insert {past : List UInt32} {objects : List ObjectStore}
    (merged : ObjectsMerged interpretation guard left right history past objects)
    {object : ObjectStore}
    (recorded : LogRecorded history object.updates)
    (chooses : ObjectStore.Chooses interpretation left.id guard (left.object object.address)
      (right.object object.address) object) :
    ObjectsMerged interpretation guard left right history (object.address :: past)
      (insertObject object objects) where
  recorded := by
    intro other member
    rcases mem_insertObject member with rfl | before
    · exact recorded
    · exact merged.recorded other before
  chooses := by
    intro other member
    rcases mem_insertObject member with rfl | before
    · exact chooses
    · exact merged.chooses other before
  all := by
    intro address inPast
    have found := find?_insertObject object objects address
    by_cases here : object.address = address
    · rw [if_pos here] at found
      exact ⟨object, List.mem_of_find?_eq_some found, here⟩
    · rw [if_neg here] at found
      obtain ⟨other, member, isAddress⟩ :=
        merged.all address ((List.mem_cons.1 inPast).resolve_left (Ne.symm here))
      cases before : objects.find? fun other => other.address = address with
      | none =>
          rw [List.find?_eq_none] at before
          simpa [isAddress] using before other member
      | some kept =>
          rw [before] at found
          exact ⟨kept, List.mem_of_find?_eq_some found, by simpa using List.find?_some before⟩

theorem ObjectsMerged.mono {newer : History} {past : List UInt32} {objects : List ObjectStore}
    (merged : ObjectsMerged interpretation guard left right history past objects)
    (extended : history.Extends newer) :
    ObjectsMerged interpretation guard left right newer past objects :=
  ⟨fun object member => LogRecorded.mono extended _ (merged.recorded object member),
    merged.chooses, merged.all⟩

/-- Where no object was merged, neither region has one. -/
private theorem object_of_not_mem {address : UInt32} (region : Region)
    (missing : address ∉ region.addresses) : region.object address = .empty address := by
  have notFound : region.object? address = none := by
    rw [object?, List.find?_eq_none]
    intro object member
    have different : object.address ≠ address := fun same =>
      missing (same ▸ List.mem_map_of_mem member)
    simpa using different
  rw [object, notFound, Option.getD_none]

theorem ObjectsMerged.contents {past : List UInt32} {objects : List ObjectStore}
    (merged : ObjectsMerged interpretation guard left right history past objects)
    (all : ∀ address, address ∈ left.addresses ∨ address ∈ right.addresses → address ∈ past)
    (input : Log)
    (owner : Owner)
    (address : UInt32)
    (slot : Option Constant) :
    ((⟨left.id, objects, input, owner⟩ : Region).object address).contents interpretation.model
        left.id slot =
      ((if interpretation.model.holds guard then left else right).object address).contents
        interpretation.model left.id slot := by
  rw [object, object?]
  cases found : objects.find? fun object => object.address = address with
  | some object =>
      have isAddress : object.address = address := by simpa using List.find?_some found
      have chooses := merged.chooses object (List.mem_of_find?_eq_some found)
      rw [isAddress] at chooses
      rw [Option.getD_some, chooses.contents]
      cases interpretation.model.holds guard <;> rfl
  | none =>
      have missing : address ∉ past := by
        intro inPast
        obtain ⟨object, member, isAddress⟩ := merged.all address inPast
        rw [List.find?_eq_none] at found
        simpa [isAddress] using found object member
      have notLeft := left.object_of_not_mem fun inLeft => missing (all address (.inl inLeft))
      have notRight := right.object_of_not_mem fun inRight => missing (all address (.inr inRight))
      rw [Option.getD_none]
      cases interpretation.model.holds guard <;> simp [notLeft, notRight]

/-- A merged region is a choice between two. -/
theorem merge_records
    (guardStored : guard.Stored interpretation .bool)
    (sameId : right.id = left.id)
    (leftRecorded : left.Recorded history)
    (leftWellKeyed : left.WellKeyed interpretation)
    (rightRecorded : right.Recorded history)
    (rightWellKeyed : right.WellKeyed interpretation)
    (owner : Owner) :
    Fresh.RecordsOk (left.merge right guard owner) history fun newer merged =>
      merged.Recorded newer ∧ Region.Chooses interpretation guard left right merged := by
  have known := (wellKeyed_iff.1 leftWellKeyed).1
  have noObjects : ObjectsMerged interpretation guard left right history [] [] :=
    ⟨by simp, by simp, by simp⟩
  rw [merge]
  refine (Fresh.recordsOk_foldlM (ObjectsMerged interpretation guard left right) ?_
    noObjects).bind ?_
  · intro newer past objects address _ extended merged
    refine (mergeObjects_records known guardStored
      ((left.object_address address).trans (right.object_address address).symm)
      ((Recorded.mono extended left leftRecorded).object address) (leftWellKeyed.object address)
      ((Recorded.mono extended right rightRecorded).object address)
      (sameId ▸ rightWellKeyed.object address)).bind ?_
    rintro further object furtherExtended ⟨objectRecorded, chooses⟩
    have isAddress : object.address = address :=
      chooses.address.trans (left.object_address address)
    refine Fresh.recordsOk_pure ?_
    rw [← isAddress] at chooses ⊢
    exact (merged.mono furtherExtended).insert objectRecorded chooses
  · intro newer objects extended merged
    refine (Log.merge_records guardStored
      (recorded_iff.1 (Recorded.mono extended left leftRecorded)).2
      (wellKeyed_iff.1 leftWellKeyed).2.2
      (recorded_iff.1 (Recorded.mono extended right rightRecorded)).2
      (sameId ▸ (wellKeyed_iff.1 rightWellKeyed).2.2)).ok.bind ?_
    rintro further input furtherExtended ⟨inputRecorded, chooses⟩
    have objectsMerged := merged.mono furtherExtended
    refine Fresh.recordsOk_pure
      ⟨recorded_iff.2 ⟨objectsMerged.recorded, inputRecorded⟩, rfl, ?_, ?_⟩
    · exact wellKeyed_iff.2
        ⟨known, fun object member => (objectsMerged.chooses object member).wellKeyed,
          chooses.wellKeyed⟩
    · have chosenId : (if interpretation.model.holds guard then left else right).id = left.id := by
        split
        · rfl
        · exact sameId
      intro place slot
      cases place with
      | null =>
          rw [contents_null, contents_null, chosenId]
      | object address =>
          rw [contents_object, contents_object, chosenId]
          refine objectsMerged.contents ?_ input owner address slot
          intro address isAddress
          rcases isAddress with inLeft | inRight
          · simp [inLeft]
          · by_cases inLeft : address ∈ left.addresses <;> simp [inLeft, inRight]
      | input address =>
          rw [contents_input, contents_input, chosenId, chooses.contents]
          cases interpretation.model.holds guard <;> rfl

end Region

end SymbolicHeap
