import SymbolicHeap.Proofs.ArrayTheory.Updates

/-!
Contract: an encoded region has the contents of the region.

A region is encoded by replaying its logs on arrays, with help from what the
session remembers. In a session that is sound for the history that records the
region this succeeds, and the arrays have the contents as elements. Entries
that read from older regions are encoded inside lambdas; their secondary keys
depend on the parameters, their addresses never do.

Owns:
- encoded entries, logs, objects and reads, by recursion on their shape;
- encodings of any key, which leave a sound session sound.
-/

namespace SymbolicHeap

open Encoding

variable {interpretation : Interpretation} {history : History}

/-! ## Ranged entries -/

/-- Reads of the region are encoded to terms for its contents. -/
def Region.Encodes (interpretation : Interpretation) (history : History) (region : Region) : Prop :=
  ∀ (environment : Environment) (key : Key) (slot : Option Constant),
    key.address.IsReference interpretation.vocabulary →
      region.id.SecondaryDenotes interpretation environment key.secondary slot →
        Yields interpretation history (region.encodeRead key) fun result =>
          result.Denotes interpretation environment region.id.valueSort
            (region.contents interpretation.model (key.address.place interpretation.model) slot)

/-- An index that is known has the value that it shows. -/
private theorem Term.Stored.asInt?_eq {index : Term} (stored : index.Stored interpretation .i32)
    {number : Int64} (known : index.asInt? = some number) :
    ∃ value : Int32, interpretation.model.valueOf index = .i32 value ∧ number = value.toInt64 := by
  obtain ⟨constant, rfl, isNumber⟩ := eq_const_of_asInt? known
  obtain ⟨same, _⟩ := Model.eval_const_eq_ok.1 stored.eval
  obtain ⟨value, isValue⟩ := stored.hasSort.i32_cases
  rw [same, isValue] at isNumber
  exact ⟨value, isValue, (Option.some.inj isNumber).symm⟩

private theorem CopyRange.index_of_covers {model : Model} {range : CopyRange} {lower upper : Int32}
    (isLower : model.valueOf range.destinationFrom = .i32 lower)
    (isUpper : model.valueOf range.destinationTo = .i32 upper)
    {slot : Option Constant}
    (covered : range.covers model slot = true) :
    ∃ index : Int32, slot = some (.i32 index) ∧ lower ≤ index ∧ index < upper := by
  unfold CopyRange.covers at covered
  rw [isLower, isUpper] at covered
  split at covered
  · next first last index sameFirst sameLast =>
      cases sameFirst
      cases sameLast
      simp only [Bool.and_eq_true, decide_eq_true_eq] at covered
      exact ⟨index, rfl, covered⟩
  · simp at covered

section Entries

variable {region : RegionId} {target : LogTarget} {source : Region} {guard : Term}

private theorem Region.Encodes.describesCopy {range : CopyRange}
    (encodes : source.Encodes interpretation history)
    (wellKeyed : (Entry.copy source range guard).WellKeyed interpretation region target) :
    RangedSource.Describes interpretation history region (.copy source range guard)
      { destination := range.destinationAddress
        bounds? := range.destinationFrom.asInt?.bind fun first =>
          range.destinationTo.asInt?.map fun last => (first, last)
        includes := fun key => do
          let guard ← guard.encode
          let covers ← (range.includes key : PartialEncoding Term)
          return (← covers.encode).and guard
        value := fun key => source.encodeRead (range.convert key) } := by
  simp only [Entry.WellKeyed] at wellKeyed
  obtain ⟨admits, supports, rfl, _, rangeSorted, guardStored⟩ := wellKeyed
  refine ⟨rfl, ?_, ?_, ?_⟩
  · rintro environment ⟨addressTerm, secondary⟩ address slot ⟨addressDenotes, secondaryDenotes⟩
    obtain ⟨index, number, rfl, rfl, indexDenotes⟩ := secondaryDenotes.index supports
    refine (yields_encode_denotes (guardStored.truth.widen environment)).bind
      fun condition conditionDenotes => ?_
    obtain ⟨included, isIncluded, includedDenotes⟩ :=
      rangeSorted.includes_denotes admits.stored addressDenotes rfl indexDenotes
    refine yields_check isIncluded ?_
    refine (yields_encode_denotes includedDenotes).bind fun covers coversDenotes => ?_
    exact yields_pure (coversDenotes.and conditionDenotes)
  · rintro environment ⟨addressTerm, secondary⟩ address slot ⟨_, secondaryDenotes⟩
    obtain ⟨index, number, rfl, rfl, indexDenotes⟩ := secondaryDenotes.index supports
    obtain ⟨sourceNumber, isSource, sourceDenotes⟩ := rangeSorted.sourceIndex_denotes indexDenotes
    rw [Entry.provides, isSource]
    exact encodes environment _ _ rangeSorted.source
      (.present (RegionId.secondarySort_of_supportsCopy supports) sourceDenotes)
  · intro first last bounds
    obtain ⟨first, isFirst, last, isLast, rfl, rfl⟩ : ∃ lower,
        range.destinationFrom.asInt? = some lower ∧ ∃ upper,
          range.destinationTo.asInt? = some upper ∧ lower = first ∧ upper = last := by
      simpa [Option.bind_eq_some_iff] using bounds
    obtain ⟨lower, isLower, rfl⟩ := rangeSorted.destinationFrom.asInt?_eq isFirst
    obtain ⟨upper, isUpper, rfl⟩ := rangeSorted.destinationTo.asInt?_eq isLast
    refine ⟨lower, upper, rfl, rfl, ?_⟩
    intro address slot covered
    simp only [Entry.covers, Bool.and_eq_true] at covered
    exact CopyRange.index_of_covers isLower isUpper covered.1.2

private theorem Region.Encodes.describesOverlay {members : Region} {ends : OverlayEnds}
    (encodes : source.Encodes interpretation history)
    (membersEncodes : members.Encodes interpretation history)
    (wellKeyed : (Entry.overlay source members ends guard).WellKeyed interpretation region target) :
    RangedSource.Describes interpretation history region (.overlay source members ends guard)
      { destination := ends.destinationAddress
        bounds? := none
        includes := fun key => do
          let guard ← guard.encode
          let sameObject := ends.destinationAddress.equals key.address
          if sameObject.asBool? = some false then return sameObject
          else
            let member ← members.encodeRead (ends.convert key)
            return ((← sameObject.encode).and member).and guard
        value := fun key => source.encodeRead (ends.convert key) } := by
  simp only [Entry.WellKeyed] at wellKeyed
  obtain ⟨admits, _, rfl, _, isBool, sameSort, _, sourceReference, guardStored⟩ := wellKeyed
  refine ⟨rfl, ?_, ?_, by simp⟩
  · rintro environment key address slot ⟨addressDenotes, secondaryDenotes⟩
    refine (yields_encode_denotes (guardStored.truth.widen environment)).bind
      fun condition conditionDenotes => ?_
    have sameObject := (admits.stored.widen environment).equals addressDenotes
    rw [Entry.covers]
    by_cases excluded : (ends.destinationAddress.equals key.address).asBool? = some false
    · simp only [excluded, if_true]
      have apart := Constant.bool.inj (sameObject.eq_of_asBool? excluded)
      rw [apart] at sameObject ⊢
      exact yields_pure sameObject
    · simp only [excluded, if_false]
      refine (membersEncodes environment (ends.convert key) slot sourceReference
        (secondaryDenotes.congr sameSort)).bind fun member memberDenotes => ?_
      refine (yields_encode_denotes sameObject).bind fun same sameDenotes => ?_
      rw [isBool] at memberDenotes
      exact yields_pure ((sameDenotes.and memberDenotes.decided).and conditionDenotes)
  · rintro environment key address slot ⟨_, secondaryDenotes⟩
    rw [Entry.provides]
    exact encodes environment (ends.convert key) slot sourceReference secondaryDenotes

end Entries

/-! ## Logs, objects and regions -/

/-- Encodes a read of a region at one address. -/
def Region.encodeAddress (region : Region) (key : Key) : Address → PartialEncoding Term
  | .null => (region.id.defaultValue : PartialEncoding Term)
  | .object number =>
      match key.secondary with
      | none => do
          let value ← (readObject region.id region.objects number
            (key.withAddress (.const (.heap number))) : PartialEncoding Term)
          value.encode
      | some secondary => do
          let array ← encodeObject region.id region.objects number
          pure (array.select [← secondary.encode])
  | .symbolic reference => do
      let array ← encodeLog region.id .input region.id.baseArray region.input
      pure (array.select (← Term.encodeAll (key.withAddress reference).components))

/-- Encodes a read of a region at one of the addresses that its key may be. -/
def Region.encodeLeaf (region : Region) (key : Key) (leaf : Leaf) :
    PartialEncoding (Term × Term) := do
  let value ← region.encodeAddress key leaf.address
  return (← leaf.guard.encode, value)

theorem Region.encodeRead_eq (region : Region) (key : Key) :
    region.encodeRead key = do
      let values ← (splitReference key.address (.ofBool true)).mapM (region.encodeLeaf key)
      return joinLeaves (← region.id.defaultValue) values := by
  obtain ⟨id, objects, input, owner⟩ := region
  obtain ⟨address, secondary⟩ := key
  rw [Region.encodeRead]
  congr
  funext ⟨leafAddress, guard⟩
  cases leafAddress <;> cases secondary <;>
    simp only [Region.encodeLeaf, Region.encodeAddress, bind_assoc] <;> rfl

/-- A read chooses between the addresses that its key may be. -/
private theorem Region.yields_encodeRead_of_addresses {region : Region}
    (known : region.id.Known interpretation.vocabulary)
    {environment : Environment} {key : Key} {slot : Option Constant}
    (isReference : key.address.IsReference interpretation.vocabulary)
    (encodeAddress : ∀ address : Address, address.Valid interpretation.vocabulary →
      Yields interpretation history (region.encodeAddress key address) fun result =>
        result.Denotes interpretation environment region.id.valueSort
          (region.contents interpretation.model (address.place interpretation.model) slot)) :
    Yields interpretation history (region.encodeRead key) fun result =>
      result.Denotes interpretation environment region.id.valueSort
        (region.contents interpretation.model (key.address.place interpretation.model) slot) := by
  have trivialGuard : (Term.ofBool true).Denotes interpretation .closed .bool (.bool true) :=
    Term.Denotes.ofBool true
  have each : ∀ leaf ∈ splitReference key.address (.ofBool true),
      Yields interpretation history (region.encodeLeaf key leaf) fun choice =>
        choice.1.Denotes interpretation environment .bool
          (.bool (interpretation.model.holds leaf.guard)) ∧
        choice.2.Denotes interpretation environment region.id.valueSort
          (region.contents interpretation.model (leaf.address.place interpretation.model)
            slot) := by
    intro leaf member
    obtain ⟨valid, guardDenotes⟩ := splitReference_valid isReference trivialGuard leaf member
    refine (encodeAddress leaf.address valid).bind fun value valueDenotes => ?_
    refine (yields_encode_denotes (guardDenotes.widen environment)).bind
      fun guard guardDenotes => ?_
    exact yields_pure ⟨guardDenotes, valueDenotes⟩
  rw [encodeRead_eq]
  refine (yields_mapM each).bind fun values related => ?_
  refine yields_check (RegionId.defaultValue_eq known).1 (yields_pure ?_)
  exact joinLeaves_splitReference isReference trivialGuard
    (RegionId.initial_denotes known environment)
    (fun address => region.contents interpretation.model (address.place interpretation.model) slot)
    related

/-- What is right for a node is right for its log, on top of whatever elements
the base is known to have. -/
theorem LogEncoded.denotes {node : NodeId} {base result : Term} {log : Log} {target : LogTarget}
    {domain : List ValueSort} {range : ValueSort} {below : List Constant → Constant}
    (encoded : LogEncoded interpretation history node base result)
    (isLog : history.log node = log)
    (isTarget : log.target = target)
    (baseDenotes : base.DenotesArray interpretation .closed domain range below) :
    result.DenotesArray interpretation .closed domain range
      (logElements interpretation.model log target below) := by
  obtain ⟨otherDomain, otherRange, elements, otherDenotes, resultDenotes⟩ := encoded
  obtain ⟨rfl, rfl, same⟩ := baseDenotes.unique otherDenotes
  rw [isLog, isTarget] at resultDenotes
  refine resultDenotes.congr ?_
  intro places haveSorts
  rw [logElements, logElements, same places haveSorts]

mutual

/-- Reads of a recorded region are encoded to terms for its contents. -/
theorem Region.encodes : (region : Region) → region.WellKeyed interpretation →
    region.Recorded history → region.Encodes interpretation history
  | ⟨id, objects, input, owner⟩, wellKeyed, recorded => by
      simp only [Region.WellKeyed] at wellKeyed
      rw [Region.Recorded] at recorded
      obtain ⟨known, objectsWellKeyed, inputWellKeyed⟩ := wellKeyed
      rintro environment ⟨reference, secondary⟩ slot isReference secondaryDenotes
      have encodeAddress : ∀ address : Address, address.Valid interpretation.vocabulary →
          Yields interpretation history
            ((⟨id, objects, input, owner⟩ : Region).encodeAddress ⟨reference, secondary⟩ address)
            fun result => result.Denotes interpretation environment id.valueSort
              ((⟨id, objects, input, owner⟩ : Region).contents interpretation.model
                (address.place interpretation.model) slot) := by
        intro address valid
        simp only [Address.place, Region.contents]
        cases address with
        | null =>
            exact yields_lift (RegionId.defaultValue_eq known).1
              (RegionId.initial_denotes known environment)
        | object number =>
            cases secondaryDenotes with
            | absent noSort =>
                have fits : id.FitsSecondary interpretation none := by
                  unfold RegionId.FitsSecondary
                  rw [noSort]
                  trivial
                obtain ⟨value, isValue, valueDenotes⟩ := readObject_denotes known objects
                  objectsWellKeyed number ⟨.const (.heap number), none⟩ (.heap number) fits
                refine yields_check isValue ?_
                exact yields_encode_denotes (valueDenotes.widen environment)
            | present hasSort indexDenotes =>
                refine (yields_encodeObject known hasSort objects objectsWellKeyed recorded.1
                  number).bind fun array arrayDenotes => ?_
                refine (yields_encode_denotes indexDenotes).bind fun index indexDenotes => ?_
                exact yields_pure ((arrayDenotes.widen environment).element
                  (.cons indexDenotes .nil))
        | symbolic term =>
            have locates : Key.Locates interpretation environment id ⟨term, secondary⟩
                (interpretation.model.valueOf term) slot :=
              ⟨valid.1.denotes.widen environment, secondaryDenotes⟩
            have hasArray : LogTarget.HasArray id none := trivial
            refine (yields_encodeLog known hasArray (RegionId.baseArray_denotes known) input
              inputWellKeyed recorded.2).bind fun array arrayDenotes => ?_
            refine (yields_keyIndices locates hasArray).bind fun indices indicesDenote => ?_
            have element := (arrayDenotes.widen environment).element indicesDenote
            have sameSlot : LogTarget.slot none (LogTarget.indices
                (interpretation.model.valueOf term) slot none) = slot := by
              cases slot <;> rfl
            rw [logElements, sameSlot] at element
            exact yields_pure element
      exact Region.yields_encodeRead_of_addresses known isReference encodeAddress

/-- The array of an allocated object has its contents as elements. -/
private theorem yields_encodeObject {region : RegionId}
    (known : region.Known interpretation.vocabulary)
    {keySort : ValueSort} (hasSort : region.secondarySort = some keySort) :
    (objects : List ObjectStore) → ObjectsWellKeyed interpretation region objects →
      ObjectsRecorded history objects → (wanted : UInt32) →
        Yields interpretation history (encodeObject region objects wanted) fun array =>
          array.DenotesArray interpretation .closed [keySort] region.valueSort fun places =>
            objectContents interpretation.model region objects wanted places.head?
  | [], _, _, wanted => by
      obtain ⟨empty, isEmpty, emptyDenotes⟩ := emptyObjectArray_denotes known hasSort
      rw [encodeObject]
      refine yields_lift isEmpty (emptyDenotes.congr fun places _ => ?_)
      rw [objectContents]
  | ⟨address, values, updates⟩ :: rest, wellKeyed, recorded, wanted => by
      simp only [ObjectsWellKeyed] at wellKeyed
      rw [ObjectsRecorded] at recorded
      have domain : LogTarget.domain region (some wanted) = [keySort] := by
        rw [LogTarget.domain, hasSort]
        rfl
      have hasArray : LogTarget.HasArray region (some wanted) := by
        rw [LogTarget.HasArray, hasSort]
        rfl
      rw [encodeObject]
      by_cases here : address = wanted
      · subst here
        simp only [if_true]
        refine (yields_storedArray known hasSort wellKeyed.1).bind fun base baseDenotes => ?_
        rw [← domain] at baseDenotes ⊢
        refine (yields_encodeLog known hasArray baseDenotes updates wellKeyed.2.1 recorded.1).imp
          fun array arrayDenotes => arrayDenotes.congr fun places _ => ?_
        rw [objectContents, if_pos rfl]
        rfl
      · simp only [here, if_false]
        refine (yields_encodeObject known hasSort rest wellKeyed.2.2 recorded.2 wanted).imp
          fun array arrayDenotes => arrayDenotes.congr fun places _ => ?_
        rw [objectContents, if_neg here]

/-- A log changes the elements below it like it changes contents. -/
private theorem yields_encodeLog {region : RegionId}
    (known : region.Known interpretation.vocabulary)
    {target : LogTarget} (hasArray : target.HasArray region)
    {base : Term} {below : List Constant → Constant}
    (baseDenotes : base.DenotesArray interpretation .closed (target.domain region)
      region.valueSort below) :
    (log : List Node) → LogWellKeyed interpretation region target log → LogRecorded history log →
      Yields interpretation history (encodeLog region target.shape base log) fun array =>
        array.DenotesArray interpretation .closed (target.domain region) region.valueSort
          (logElements interpretation.model log target below)
  | [], _, _ => by
      rw [encodeLog]
      exact yields_pure (baseDenotes.congr fun places _ => by rw [logElements, logContents])
  | ⟨node, entry, length⟩ :: older, wellKeyed, recorded => by
      simp only [LogWellKeyed] at wellKeyed
      rw [LogRecorded] at recorded
      obtain ⟨_, isLog, _, entryRecorded, olderRecorded⟩ := recorded
      have isTarget : Log.target (⟨node, entry, length⟩ :: older) = target :=
        LogTarget.of_eq wellKeyed.1.destination
      rw [encodeLog]
      -- The result may come from another region that shares the log.
      refine (yields_rememberedNode ?_).imp fun result encoded =>
        encoded.denotes isLog isTarget baseDenotes
      refine (yields_encodeLog known hasArray baseDenotes older wellKeyed.2 olderRecorded).bind
        fun previous previousDenotes => ?_
      refine (yields_encodeEntry known hasArray previousDenotes entry wellKeyed.1
        entryRecorded).imp fun result resultDenotes => ?_
      refine ⟨_, _, below, baseDenotes, ?_⟩
      rw [isLog, isTarget, logElements_cons]
      exact resultDenotes

private theorem yields_encodeEntry {region : RegionId}
    (known : region.Known interpretation.vocabulary)
    {target : LogTarget} (hasArray : target.HasArray region)
    {previous : Term} {below : List Constant → Constant}
    (previousDenotes : previous.DenotesArray interpretation .closed (target.domain region)
      region.valueSort below) :
    (entry : Entry) → entry.WellKeyed interpretation region target → entry.Recorded history →
      Yields interpretation history (encodeEntry region target.shape previous entry) fun array =>
        array.DenotesArray interpretation .closed (target.domain region) region.valueSort
          (entry.elements interpretation.model target below)
  | .write key value guard, wellKeyed, _ => by
      rw [encodeEntry]
      exact yields_encodeWrite wellKeyed hasArray previousDenotes
  | .copy source range guard, wellKeyed, recorded => by
      rw [encodeEntry]
      rw [Entry.Recorded] at recorded
      have parts := wellKeyed
      simp only [Entry.WellKeyed] at parts
      obtain ⟨admits, supports, _, sourceWellKeyed, _⟩ := parts
      have describes := (Region.encodes source sourceWellKeyed recorded).describesCopy wellKeyed
      exact describes.yields_encode admits hasArray known (.inl supports) previousDenotes
  | .overlay source members ends guard, wellKeyed, recorded => by
      rw [encodeEntry]
      rw [Entry.Recorded] at recorded
      have parts := wellKeyed
      simp only [Entry.WellKeyed] at parts
      obtain ⟨admits, supports, _, sourceWellKeyed, _, _, membersWellKeyed, _⟩ := parts
      have describes := (Region.encodes source sourceWellKeyed recorded.1).describesOverlay
        (Region.encodes members membersWellKeyed recorded.2) wellKeyed
      exact describes.yields_encode admits hasArray known (.inr supports) previousDenotes

end

/-! ## Any key -/

/-- Allocated objects without secondary keys have no array, and asking for it
changes nothing. -/
private theorem keeps_encodeObject {region : RegionId}
    (known : region.Known interpretation.vocabulary)
    {objects : List ObjectStore}
    (wellKeyed : ObjectsWellKeyed interpretation region objects)
    (recorded : ObjectsRecorded history objects)
    (wanted : UInt32) :
    Keeps interpretation history (encodeObject region objects wanted) := by
  cases hasSort : region.secondarySort with
  | some keySort =>
      exact (yields_encodeObject known hasSort objects wellKeyed recorded wanted).keeps
  | none =>
      have missing : emptyObjectArray region = .error .objectArrayMissing := by
        rw [emptyObjectArray, RegionId.objectArraySort, hasSort]
        rfl
      clear wellKeyed recorded
      induction objects with
      | nil =>
          rw [encodeObject]
          exact keeps_check _
      | cons object rest inductionHypothesis =>
          obtain ⟨address, values, updates⟩ := object
          rw [encodeObject]
          split
          · rw [storedArray, missing]
            exact fun _ sound => sound
          · exact inductionHypothesis

namespace Region

variable {region : Region}

section Recorded

variable (wellKeyed : region.WellKeyed interpretation) (recorded : region.Recorded history)

include wellKeyed recorded

theorem keeps_encodeAllocated (address : UInt32) :
    Keeps interpretation history (region.encodeAllocated address) := by
  obtain ⟨id, objects, input, owner⟩ := region
  simp only [WellKeyed] at wellKeyed
  rw [Recorded] at recorded
  exact keeps_encodeObject wellKeyed.1 wellKeyed.2.1 recorded.1 address

theorem keeps_encodeInput : Keeps interpretation history region.encodeInput := by
  obtain ⟨id, objects, input, owner⟩ := region
  simp only [WellKeyed] at wellKeyed
  rw [Recorded] at recorded
  have hasArray : LogTarget.HasArray id none := trivial
  exact (yields_encodeLog wellKeyed.1 hasArray (RegionId.baseArray_denotes wellKeyed.1) input
    wellKeyed.2.2 recorded.2).keeps

end Recorded

/-- Whatever the key, a read of a region encodes nothing but keys and the arrays
of the region. -/
private theorem keeps_encodeRead_of_arrays
    (allocatedKeep : ∀ address, Keeps interpretation history (region.encodeAllocated address))
    (inputKeeps : Keeps interpretation history region.encodeInput)
    (key : Key) : Keeps interpretation history (region.encodeRead key) := by
  have addressesKeep : ∀ address : Address,
      Keeps interpretation history (region.encodeAddress key address) := by
    intro address
    cases address with
    | null => exact keeps_check _
    | object number =>
        rw [encodeAddress]
        cases key.secondary with
        | none => exact (keeps_check _).bind fun value => (yields_encode value).keeps
        | some secondary =>
            exact (allocatedKeep number).bind fun array =>
              (yields_encode secondary).keeps.bind fun _ => keeps_pure _
    | symbolic reference =>
        exact inputKeeps.bind fun array => (yields_encodeAll _).keeps.bind fun _ => keeps_pure _
  have leavesKeep : Keeps interpretation history
      ((splitReference key.address (.ofBool true)).mapM (region.encodeLeaf key)) :=
    keeps_mapM fun leaf _ => (addressesKeep leaf.address).bind
      fun value => (yields_encode leaf.guard).keeps.bind fun _ => keeps_pure _
  rw [encodeRead_eq]
  exact leavesKeep.bind fun values => (keeps_check _).bind fun _ => keeps_pure _

theorem keeps_encodeRead (wellKeyed : region.WellKeyed interpretation)
    (recorded : region.Recorded history) (key : Key) :
    Keeps interpretation history (region.encodeRead key) :=
  keeps_encodeRead_of_arrays (keeps_encodeAllocated wellKeyed recorded)
    (keeps_encodeInput wellKeyed recorded) key

/-- A region that was never written to has no nodes, so nothing is asked of its
sorts. -/
theorem keeps_encodeRead_empty (id : RegionId) (owner : Owner) (key : Key) :
    Keeps interpretation history ((empty id owner).encodeRead key) := by
  apply keeps_encodeRead_of_arrays
  · intro address
    rw [encodeAllocated, empty, encodeObject]
    exact keeps_check _
  · rw [encodeInput, empty, encodeLog]
    exact keeps_pure _

end Region

end SymbolicHeap
