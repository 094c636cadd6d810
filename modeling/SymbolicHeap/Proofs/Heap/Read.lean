import SymbolicHeap.Proofs.Heap.Contents

/-!
Contract: a read gives the contents.

Reading a region folds its updates into one term. Under any model that the
region is well keyed for, the term has the value that the region holds at the
place and slot that the key denotes; in particular every such read succeeds.

Owns:
- reads of stored values, of logs and of regions, by recursion on their shape.
-/

namespace SymbolicHeap

variable {interpretation : Interpretation}

/-! ## Locations -/

namespace RegionId

variable {region : RegionId}

theorem defaultValue_eq (known : region.Known interpretation.vocabulary) :
    region.defaultValue = .ok (.const region.initial) ∧
      region.initial.HasSort region.valueSort := by
  have scalar := known.1
  simp only [isScalar, Bool.and_eq_true, Bool.not_eq_true'] at scalar
  cases initial : Constant.default region.valueSort with
  | error fault =>
      cases sort : region.valueSort <;> simp_all [Constant.default, ValueSort.isArray]
  | ok value =>
      rw [RegionId.initial, initial, defaultValue, initial]
      exact ⟨rfl, Constant.hasSort_of_default initial⟩

theorem initial_denotes (known : region.Known interpretation.vocabulary)
    (environment : Environment) :
    (Term.const region.initial).Denotes interpretation environment region.valueSort
      region.initial :=
  Term.Denotes.const (defaultValue_eq known).2

end RegionId

theorem Term.Denotes.stored {term : Term} {sort : ValueSort} {value : Constant}
    (denotes : term.Denotes interpretation .closed sort value) :
    term.Stored interpretation sort := by
  rw [Term.Stored, denotes.valueOf]
  exact denotes

theorem LogTarget.Admits.stored {target : LogTarget} {address : Term}
    (admits : target.Admits interpretation.vocabulary address) :
    address.Stored interpretation .reference := by
  cases target with
  | none => exact admits.1.denotes
  | some number =>
      rw [show address = .const (.heap number) from admits]
      exact (Term.Denotes.heap number).stored

theorem RegionId.fitsSecondary_cases {region : RegionId} {secondary : Option Term}
    (fits : region.FitsSecondary interpretation secondary) :
    (region.secondarySort = none ∧ secondary = none) ∨
      ∃ sort index, region.secondarySort = some sort ∧ secondary = some index ∧
        index.Stored interpretation sort := by
  unfold RegionId.FitsSecondary at fits
  split at fits
  · next noSort => exact .inl ⟨noSort, rfl⟩
  · next sort index hasSort => exact .inr ⟨sort, index, hasSort, rfl, fits⟩
  · exact fits.elim

/-- The contents of an input location before execution have a value. -/
private theorem inputRead_denotes {region : RegionId}
    (known : region.Known interpretation.vocabulary)
    {key : Key} {address : Constant}
    (addressDenotes : key.address.Denotes interpretation .closed .reference address)
    (secondaryFits : region.FitsSecondary interpretation key.secondary) :
    (Term.inputRead region key.components).Denotes interpretation .closed region.valueSort
      (interpretation.model.inputValue region address (key.slot interpretation.model)) := by
  have scalar := known.1
  simp only [RegionId.isScalar, Bool.and_eq_true, Bool.not_eq_true'] at scalar
  obtain ⟨value, found⟩ : ∃ value, interpretation.model.lookupArray region.baseArrayName
      (address :: (key.slot interpretation.model).toList) region.valueSort = .ok value :=
    Model.lookupArray_ok scalar.1
  have hasSort : value.HasSort region.valueSort :=
    Model.lookupArray_hasSort interpretation.admissible.sorted known.2 found
  have components : Term.AllWellSorted interpretation.vocabulary [] key.components ∧
      Term.sorts key.components = region.inputArraySort.domain ∧
        interpretation.model.evalAll [] key.components =
          .ok (address :: (key.slot interpretation.model).toList) := by
    have addressSorted : key.address.WellSorted interpretation.vocabulary [] :=
      addressDenotes.wellSorted
    have addressEvaluates : interpretation.model.eval [] key.address = .ok address :=
      addressDenotes.eval
    rcases RegionId.fitsSecondary_cases secondaryFits with
      ⟨noSort, isNone⟩ | ⟨sort, index, hasSort, isSome, indexStored⟩
    · simp [Key.components, Key.slot, isNone, RegionId.inputArraySort, noSort, Term.sorts,
        ValueSort.domain, Term.AllWellSorted, addressSorted, addressDenotes.sorted, Model.evalAll,
        addressEvaluates, Model.bind_eq_ok]
    · have indexSorted : index.WellSorted interpretation.vocabulary [] := indexStored.wellSorted
      have indexEvaluates : interpretation.model.eval [] index =
          .ok (interpretation.model.valueOf index) := indexStored.eval
      simp [Key.components, Key.slot, isSome, RegionId.inputArraySort, hasSort, Term.sorts,
        ValueSort.domain, Term.AllWellSorted, addressSorted, addressDenotes.sorted, Model.evalAll,
        addressEvaluates, indexSorted, indexEvaluates, indexStored.sorted, Model.bind_eq_ok]
  refine ⟨?_, rfl, ?_⟩
  · rw [Term.WellSorted]
    exact ⟨components.1, components.2.1, known.2⟩
  · rw [Model.inputValue, found]
    exact Model.eval_inputRead_eq_ok.2 ⟨hasSort.1, _, components.2.2, found⟩

/-! ## Stored values -/

private theorem stored_of_find? {region : RegionId} {values : OrderedMap (Option Constant) Term}
    (wellKeyed : ValuesWellKeyed interpretation region values) {slot : Option Constant}
    {value : Term} (found : values.find? slot = some value) :
    value.Stored interpretation region.valueSort :=
  (wellKeyed.fits _ (OrderedMap.mem_of_find? found)).2

/-- A known slot is looked up. -/
theorem findStored_denotes {region : RegionId} (known : region.Known interpretation.vocabulary)
    {values : OrderedMap (Option Constant) Term}
    (wellKeyed : ValuesWellKeyed interpretation region values)
    (slot : Option Constant) :
    ((values.find? slot).getD (.const region.initial)).Denotes interpretation .closed
      region.valueSort (storedContents interpretation.model region values slot) := by
  rw [storedContents]
  cases found : values.find? slot with
  | none => exact RegionId.initial_denotes known .closed
  | some value => exact stored_of_find? wellKeyed found

/-- A symbolic slot is compared with the stored ones in their order. -/
private theorem chooseStored_denotes {region : RegionId}
    (known : region.Known interpretation.vocabulary)
    {sort : ValueSort}
    (hasSort : region.secondarySort = some sort)
    {index : Term}
    (indexStored : index.Stored interpretation sort)
    (entries : List (Option Constant × Term))
    (wellKeyed : ValuesWellKeyed interpretation region ⟨entries⟩) :
    (entries.foldr
      (fun (stored : Option Constant × Term) rest =>
        match stored.1 with
        | some slot => (index.equals (.const slot)).ite stored.2 rest
        | none => rest)
      (.const region.initial)).Denotes interpretation .closed region.valueSort
        (storedContents interpretation.model region ⟨entries⟩
          (some (interpretation.model.valueOf index))) := by
  induction entries with
  | nil => exact RegionId.initial_denotes known .closed
  | cons head tail inductionHypothesis =>
      obtain ⟨slot, value⟩ := head
      have headFits := wellKeyed.fits _ List.mem_cons_self
      have rest := inductionHypothesis ⟨(List.pairwise_cons.1 wellKeyed.ascending).2,
        fun stored member => wellKeyed.fits stored (List.mem_cons_of_mem _ member)⟩
      cases slot with
      | none => simp [RegionId.FitsSlot, hasSort] at headFits
      | some slot =>
          have slotFits : slot.HasSort sort := by
            have fits := headFits.1
            simp only [RegionId.FitsSlot, hasSort] at fits
            exact fits
          have here : storedContents interpretation.model region ⟨(some slot, value) :: tail⟩
              (some (interpretation.model.valueOf index)) =
                if interpretation.model.valueOf index = slot then
                  interpretation.model.valueOf value
                else storedContents interpretation.model region ⟨tail⟩
                  (some (interpretation.model.valueOf index)) := by
            simp only [storedContents, OrderedMap.find?, OrderedMap.findEntry,
              Option.some.injEq]
            by_cases same : interpretation.model.valueOf index = slot <;> simp [same]
          have chosen := (indexStored.equals (Term.Denotes.const slotFits)).ite headFits.2 rest
          simp only [decide_eq_true_eq] at chosen
          rw [here]
          exact chosen

private theorem storedValue_denotes {region : RegionId}
    (known : region.Known interpretation.vocabulary)
    {values : OrderedMap (Option Constant) Term}
    (wellKeyed : ValuesWellKeyed interpretation region values)
    {secondary : Option Term}
    (fits : region.FitsSecondary interpretation secondary) :
    ∃ term, storedValue region values secondary = .ok term ∧
      term.Denotes interpretation .closed region.valueSort
        (storedContents interpretation.model region values
          (secondary.map interpretation.model.valueOf)) := by
  rcases RegionId.fitsSecondary_cases fits with
    ⟨_, rfl⟩ | ⟨sort, index, hasSort, rfl, indexStored⟩
  · refine ⟨(values.find? none).getD (.const region.initial), ?_,
      findStored_denotes known wellKeyed none⟩
    simp only [storedValue, (RegionId.defaultValue_eq known).1]
    rfl
  · cases index with
    | const slot =>
        refine ⟨(values.find? (some slot)).getD (.const region.initial), ?_, ?_⟩
        · simp only [storedValue, (RegionId.defaultValue_eq known).1]
          rfl
        · obtain ⟨same, _⟩ := Model.eval_const_eq_ok.1 indexStored.eval
          rw [Option.map_some, ← same]
          exact findStored_denotes known wellKeyed (some slot)
    | _ =>
        refine ⟨_, ?_, chooseStored_denotes known hasSort indexStored values.entries wellKeyed⟩
        simp only [storedValue, (RegionId.defaultValue_eq known).1]
        rfl

/-- A guard known to fail excludes everything. -/
private theorem Term.Stored.known_false {guard : Term} (stored : guard.Stored interpretation .bool)
    (known : guard.asBool? = some false) (covered : Bool) :
    guard.Denotes interpretation .closed .bool
      (.bool (covered && interpretation.model.holds guard)) := by
  have isFalse := stored.eq_of_asBool? known
  rw [Term.Stored, isFalse] at stored
  rw [stored.holds, Bool.and_false]
  exact stored

/-! ## Ranges -/

theorem Term.Stored.i32_cases {term : Term} (stored : term.Stored interpretation .i32) :
    ∃ number, interpretation.model.valueOf term = .i32 number ∧
      term.Denotes interpretation .closed .i32 (.i32 number) := by
  obtain ⟨number, isNumber⟩ := stored.hasSort.i32_cases
  rw [Term.Stored, isNumber] at stored
  exact ⟨number, isNumber, stored⟩

namespace CopyRange.WellSorted

variable {range : CopyRange} (wellSorted : range.WellSorted interpretation)

include wellSorted

/-- The condition that a range covers a location. -/
theorem includes_denotes {environment : Environment} {key : Key} {address : Constant}
    (destinationStored : range.destinationAddress.Stored interpretation .reference)
    (addressDenotes : key.address.Denotes interpretation environment .reference address)
    {index : Term} {number : Int32}
    (isIndex : key.secondary = some index)
    (indexDenotes : index.Denotes interpretation environment .i32 (.i32 number)) :
    ∃ term, range.includes key = .ok term ∧
      term.Denotes interpretation environment .bool
        (.bool (interpretation.model.valueOf range.destinationAddress = address &&
          range.covers interpretation.model (some (.i32 number)))) := by
  obtain ⟨first, firstValue, firstDenotes⟩ := wellSorted.destinationFrom.i32_cases
  obtain ⟨last, lastValue, lastDenotes⟩ := wellSorted.destinationTo.i32_cases
  refine ⟨_, by simp only [includes, isIndex]; rfl, ?_⟩
  have covered := (((destinationStored.widen environment).equals addressDenotes).and
    ((firstDenotes.widen environment).lessOrEqual indexDenotes)).and
      (indexDenotes.lessThan (lastDenotes.widen environment))
  simp only [covers, firstValue, lastValue]
  rw [← Bool.and_assoc]
  exact covered

/-- The index that an element is copied from. -/
theorem sourceIndex_denotes {environment : Environment} {index : Term} {number : Int32}
    (indexDenotes : index.Denotes interpretation environment .i32 (.i32 number)) :
    ∃ source, range.sourceSlot interpretation.model (some (.i32 number)) = some (.i32 source) ∧
      ((index.sub range.destinationFrom).add range.sourceFrom).Denotes interpretation
        environment .i32 (.i32 source) := by
  obtain ⟨first, firstValue, firstDenotes⟩ := wellSorted.destinationFrom.i32_cases
  obtain ⟨source, sourceValue, sourceDenotes⟩ := wellSorted.sourceFrom.i32_cases
  refine ⟨number - first + source, ?_, ?_⟩
  · simp only [sourceSlot, firstValue, sourceValue]
  · exact (indexDenotes.sub (firstDenotes.widen environment)).add
      (sourceDenotes.widen environment)

end CopyRange.WellSorted

/-- Regions whose elements can be copied are indexed by integers. -/
theorem RegionId.secondarySort_of_supportsCopy {region : RegionId}
    (supports : region.supportsCopy = true) : region.secondarySort = some .i32 := by
  cases region <;> simp_all [supportsCopy, secondarySort]

/-! ## Keys -/

theorem RegionId.FitsSecondary.congr {region other : RegionId} {secondary : Option Term}
    (fits : region.FitsSecondary interpretation secondary)
    (sameSort : other.secondarySort = region.secondarySort) :
    other.FitsSecondary interpretation secondary := by
  unfold RegionId.FitsSecondary at fits ⊢
  rw [sameSort]
  exact fits

private theorem RegionId.FitsSecondary.of_denotes {region : RegionId} {sort : ValueSort}
    {index : Term}
    {value : Constant}
    (hasSort : region.secondarySort = some sort)
    (denotes : index.Denotes interpretation .closed sort value) :
    region.FitsSecondary interpretation (some index) := by
  unfold RegionId.FitsSecondary
  rw [hasSort]
  exact denotes.stored

/-- The index of an element. -/
theorem RegionId.FitsSecondary.index {region : RegionId} {secondary : Option Term}
    (fits : region.FitsSecondary interpretation secondary)
    (supports : region.supportsCopy = true) :
    ∃ index number, secondary = some index ∧
      index.Denotes interpretation .closed .i32 (.i32 number) ∧
        secondary.map interpretation.model.valueOf = some (.i32 number) := by
  rcases fitsSecondary_cases fits with ⟨noSort, _⟩ | ⟨sort, index, hasSort, rfl, indexStored⟩
  · simp [secondarySort_of_supportsCopy supports] at noSort
  · rw [secondarySort_of_supportsCopy supports, Option.some.injEq] at hasSort
    subst hasSort
    obtain ⟨number, isNumber, denotes⟩ := indexStored.i32_cases
    exact ⟨index, number, rfl, denotes, by rw [Option.map_some, isNumber]⟩

private theorem Key.equals_denotes {region : RegionId} {written key : Key} {address : Constant}
    (writtenStored : written.address.Stored interpretation .reference)
    (writtenFits : region.FitsSecondary interpretation written.secondary)
    (addressDenotes : key.address.Denotes interpretation .closed .reference address)
    (fits : region.FitsSecondary interpretation key.secondary) :
    (written.equals key).Denotes interpretation .closed .bool
      (.bool (interpretation.model.valueOf written.address = address &&
        slotsMatch (written.slot interpretation.model) (key.slot interpretation.model))) := by
  have sameAddress := writtenStored.equals addressDenotes
  rcases RegionId.fitsSecondary_cases writtenFits with
    ⟨noSort, writtenNone⟩ | ⟨sort, writtenIndex, hasSort, writtenSome, writtenStored⟩
  · simp only [Key.equals, Key.slot, writtenNone, Option.map_none, slotsMatch, Bool.and_true]
    exact sameAddress
  · rcases RegionId.fitsSecondary_cases fits with
      ⟨noSort, _⟩ | ⟨otherSort, index, sameSort, isSome, indexStored⟩
    · simp [hasSort] at noSort
    · rw [hasSort, Option.some.injEq] at sameSort
      subst sameSort
      simp only [Key.equals, Key.slot, writtenSome, isSome, Option.map_some, slotsMatch]
      exact sameAddress.and (writtenStored.equals indexStored)

/-! ## Regions by address -/

/-- Reads a location of a region at one address. -/
def Region.readAddress (region : Region) (key : Key) (address : Address) : Except Fault Term :=
  match address with
  | .null => region.id.defaultValue
  | .object number => region.readAllocated number (key.withAddress address.toTerm)
  | .symbolic _ => region.readInput (key.withAddress address.toTerm)

theorem Region.read_eq (region : Region) (key : Key) :
    region.read key =
      if key.address.isConditional then do
        let values ← (splitReference key.address (.ofBool true)).mapM fun leaf => do
          return (leaf.guard, ← region.readAddress key leaf.address)
        return joinLeaves (← region.id.defaultValue) values
      else region.readAddress key (.classify key.address) := by
  obtain ⟨id, objects, input, owner⟩ := region
  rw [Region.read]
  rfl

/-- Reads that all succeed. -/
theorem mapM_ok {α β : Type} {step : α → Except Fault β} {property : α → β → Prop}
    {items : List α}
    (each : ∀ item ∈ items, ∃ result, step item = .ok result ∧ property item result) :
    ∃ results, items.mapM step = .ok results ∧ List.Forall₂ property items results := by
  induction items with
  | nil => exact ⟨[], rfl, .nil⟩
  | cons head tail inductionHypothesis =>
      obtain ⟨first, isFirst, firstProperty⟩ := each head List.mem_cons_self
      obtain ⟨rest, isRest, restProperty⟩ := inductionHypothesis fun item member =>
        each item (List.mem_cons_of_mem _ member)
      refine ⟨first :: rest, ?_, .cons firstProperty restProperty⟩
      rw [List.mapM_cons, isFirst, isRest]
      rfl

/-- A read chooses between the addresses that its key may be. -/
private theorem Region.read_of_addresses {region : Region}
    (known : region.id.Known interpretation.vocabulary)
    {key : Key}
    (isReference : key.address.IsReference interpretation.vocabulary)
    (readAddress : ∀ address : Address, address.Valid interpretation.vocabulary →
      ∃ term, region.readAddress key address = .ok term ∧
        term.Denotes interpretation .closed region.id.valueSort
          (region.contents interpretation.model (address.place interpretation.model)
            (key.slot interpretation.model))) :
    ∃ term, region.read key = .ok term ∧
      term.Denotes interpretation .closed region.id.valueSort
        (region.contents interpretation.model (key.address.place interpretation.model)
          (key.slot interpretation.model)) := by
  rw [Region.read_eq]
  split
  · have trivialGuard : (Term.ofBool true).Denotes interpretation .closed .bool (.bool true) :=
      Term.Denotes.ofBool true
    have each : ∀ leaf ∈ splitReference key.address (.ofBool true),
        ∃ choice, (do return (leaf.guard, ← region.readAddress key leaf.address)) = .ok choice ∧
          choice.1.Denotes interpretation .closed .bool
            (.bool (interpretation.model.holds leaf.guard)) ∧
          choice.2.Denotes interpretation .closed region.id.valueSort
            (region.contents interpretation.model (leaf.address.place interpretation.model)
              (key.slot interpretation.model)) := by
      intro leaf member
      obtain ⟨valid, guardDenotes⟩ := splitReference_valid isReference trivialGuard leaf member
      obtain ⟨term, isTerm, termDenotes⟩ := readAddress leaf.address valid
      exact ⟨(leaf.guard, term), by rw [isTerm]; rfl, guardDenotes, termDenotes⟩
    obtain ⟨choices, areChoices, related⟩ := mapM_ok each
    refine ⟨_, by rw [areChoices, (RegionId.defaultValue_eq known).1]; rfl, ?_⟩
    exact joinLeaves_splitReference isReference trivialGuard
      (RegionId.initial_denotes known .closed) (fun address =>
        region.contents interpretation.model (address.place interpretation.model)
          (key.slot interpretation.model)) related
  · next flat =>
      have isFlat : key.address.isConditional = false := by simpa using flat
      rw [Term.place, Term.addressUnder_of_not_conditional isFlat]
      exact readAddress _ (isReference.classify_valid isFlat).1

/-! ## Logs and regions -/

/-- One entry on top of the rest of a log. -/
private theorem foldEntry_denotes {covers value rest : Term} {truth : Bool} {sort : ValueSort}
    {provided below : Constant}
    (coversDenotes : covers.Denotes interpretation .closed .bool (.bool truth))
    (valueDenotes : value.Denotes interpretation .closed sort provided)
    (restDenotes : rest.Denotes interpretation .closed sort below) :
    ∃ term,
      (match covers.asBool? with
        | some false => .ok rest
        | some true => .ok value
        | none => .ok (covers.ite value rest) : Except Fault Term) = .ok term ∧
      term.Denotes interpretation .closed sort (if truth then provided else below) := by
  cases known : covers.asBool? with
  | none => exact ⟨_, rfl, coversDenotes.ite valueDenotes restDenotes⟩
  | some decided =>
      have same := Constant.bool.inj (coversDenotes.eq_of_asBool? known)
      subst same
      cases truth with
      | true => exact ⟨value, rfl, valueDenotes⟩
      | false => exact ⟨rest, rfl, restDenotes⟩

mutual

theorem Region.read_denotes : (region : Region) → region.WellKeyed interpretation →
    (key : Key) → region.id.FitsKey interpretation key →
      ∃ term, region.read key = .ok term ∧
        term.Denotes interpretation .closed region.id.valueSort
          (region.contents interpretation.model (key.address.place interpretation.model)
            (key.slot interpretation.model))
  | ⟨id, objects, input, owner⟩, wellKeyed, key, fits => by
      simp only [Region.WellKeyed] at wellKeyed
      obtain ⟨known, objectsWellKeyed, inputWellKeyed⟩ := wellKeyed
      obtain ⟨isReference, secondaryFits⟩ := fits
      have readAddress : ∀ address : Address, address.Valid interpretation.vocabulary →
          ∃ term, (⟨id, objects, input, owner⟩ : Region).readAddress key address = .ok term ∧
            term.Denotes interpretation .closed id.valueSort
              ((⟨id, objects, input, owner⟩ : Region).contents interpretation.model
                (address.place interpretation.model) (key.slot interpretation.model)) := by
        intro address valid
        simp only [Address.place, Region.contents]
        cases address with
        | null =>
            exact ⟨_, (RegionId.defaultValue_eq known).1, RegionId.initial_denotes known .closed⟩
        | object number =>
            exact readObject_denotes known objects objectsWellKeyed number
              (key.withAddress (.const (.heap number))) (.heap number) secondaryFits
        | symbolic reference =>
            exact readLog_denotes known input inputWellKeyed
              (key.withAddress reference) valid.1.denotes secondaryFits
              (inputRead_denotes known valid.1.denotes secondaryFits)
      exact Region.read_of_addresses known isReference readAddress

theorem readObject_denotes {region : RegionId} (known : region.Known interpretation.vocabulary) :
    (objects : List ObjectStore) → ObjectsWellKeyed interpretation region objects →
      (wanted : UInt32) → (key : Key) →
        key.address.Denotes interpretation .closed .reference (.heap wanted) →
          region.FitsSecondary interpretation key.secondary →
            ∃ term, readObject region objects wanted key = .ok term ∧
              term.Denotes interpretation .closed region.valueSort
                (objectContents interpretation.model region objects wanted
                  (key.slot interpretation.model))
  | [], _, wanted, key, _, _ => by
      rw [readObject, objectContents]
      exact ⟨_, (RegionId.defaultValue_eq known).1, RegionId.initial_denotes known .closed⟩
  | ⟨address, values, updates⟩ :: rest, wellKeyed, wanted, key, addressDenotes, fits => by
      simp only [ObjectsWellKeyed] at wellKeyed
      rw [readObject, objectContents]
      split
      · obtain ⟨base, isBase, baseDenotes⟩ := storedValue_denotes known wellKeyed.1 fits
        rw [isBase]
        exact readLog_denotes known updates wellKeyed.2.1 key addressDenotes fits baseDenotes
      · exact readObject_denotes known rest wellKeyed.2.2 wanted key addressDenotes fits

private theorem readLog_denotes {region : RegionId} (known : region.Known interpretation.vocabulary)
    {target : LogTarget} :
    (log : List Node) → LogWellKeyed interpretation region target log →
      (key : Key) → {address : Constant} →
        key.address.Denotes interpretation .closed .reference address →
          region.FitsSecondary interpretation key.secondary →
            {base : Term} → {baseValue : Constant} →
              base.Denotes interpretation .closed region.valueSort baseValue →
                ∃ term, readLog log key (.ok base) = .ok term ∧
                  term.Denotes interpretation .closed region.valueSort
                    (logContents interpretation.model log address
                      (key.slot interpretation.model) baseValue)
  | [], _, key, address, _, _, base, baseValue, baseDenotes => by
      rw [readLog, logContents]
      exact ⟨base, rfl, baseDenotes⟩
  | ⟨node, entry, _⟩ :: older, wellKeyed, key, address, addressDenotes, fits, base, baseValue,
      baseDenotes => by
      simp only [LogWellKeyed] at wellKeyed
      obtain ⟨covers, isCovers, coversDenotes⟩ :=
        Entry.includes_denotes entry wellKeyed.1 addressDenotes fits
      obtain ⟨value, isValue, valueDenotes⟩ := Entry.valueAt_denotes entry wellKeyed.1 fits
      obtain ⟨rest, isRest, restDenotes⟩ :=
        readLog_denotes known older wellKeyed.2 key addressDenotes fits baseDenotes
      rw [readLog, logContents, isCovers, isValue, isRest]
      exact foldEntry_denotes coversDenotes valueDenotes restDenotes

/-- The condition of an entry says whether it covers the location. -/
theorem Entry.includes_denotes {region : RegionId} {target : LogTarget} :
    (entry : Entry) → entry.WellKeyed interpretation region target →
      {key : Key} → {address : Constant} →
        key.address.Denotes interpretation .closed .reference address →
          region.FitsSecondary interpretation key.secondary →
            ∃ term, entry.includes key = .ok term ∧
              term.Denotes interpretation .closed .bool
                (.bool (entry.covers interpretation.model address
                  (key.slot interpretation.model)))
  | .write written value guard, wellKeyed, key, address, addressDenotes, fits => by
      simp only [Entry.WellKeyed] at wellKeyed
      obtain ⟨admits, writtenFits, _, guardStored⟩ := wellKeyed
      rw [Entry.includes, Entry.covers]
      exact ⟨_, rfl,
        (Key.equals_denotes admits.stored writtenFits addressDenotes fits).and guardStored.truth⟩
  | .copy source range guard, wellKeyed, key, address, addressDenotes, fits => by
      simp only [Entry.WellKeyed] at wellKeyed
      obtain ⟨admits, supports, _, _, rangeSorted, guardStored⟩ := wellKeyed
      obtain ⟨index, number, isIndex, indexDenotes, isSlot⟩ := fits.index supports
      obtain ⟨included, isIncluded, includedDenotes⟩ :=
        rangeSorted.includes_denotes admits.stored addressDenotes isIndex indexDenotes
      rw [Entry.includes, Entry.covers, Key.slot, isSlot, isIncluded]
      split
      · next isFalse =>
          exact ⟨guard, rfl, guardStored.known_false isFalse _⟩
      · exact ⟨_, rfl, includedDenotes.and guardStored.truth⟩
  | .overlay source members ends guard, wellKeyed, key, address, addressDenotes, fits => by
      simp only [Entry.WellKeyed] at wellKeyed
      obtain ⟨admits, _, _, _, isBool, sameSort, membersWellKeyed, sourceReference, guardStored⟩ :=
        wellKeyed
      obtain ⟨member, isMember, memberDenotes⟩ :=
        Region.read_denotes members membersWellKeyed (ends.convert key)
          ⟨sourceReference, fits.congr sameSort⟩
      have sameObject := admits.stored.equals addressDenotes
      rw [Entry.includes, Entry.covers]
      split
      · next isFalse => exact ⟨guard, rfl, guardStored.known_false isFalse _⟩
      · split
        · next isFalse =>
            have apart := Constant.bool.inj (sameObject.eq_of_asBool? isFalse)
            refine ⟨_, rfl, ?_⟩
            have excluded := sameObject.and guardStored.truth
            rw [apart] at excluded ⊢
            exact excluded
        · rw [isBool] at memberDenotes
          rw [isMember]
          exact ⟨_, rfl, (sameObject.and memberDenotes.decided).and guardStored.truth⟩

private theorem Entry.valueAt_denotes {region : RegionId} {target : LogTarget} :
    (entry : Entry) → entry.WellKeyed interpretation region target →
      {key : Key} → region.FitsSecondary interpretation key.secondary →
        ∃ term, entry.valueAt key = .ok term ∧
          term.Denotes interpretation .closed region.valueSort
            (entry.provides interpretation.model (key.slot interpretation.model))
  | .write written value guard, wellKeyed, key, fits => by
      simp only [Entry.WellKeyed] at wellKeyed
      rw [Entry.valueAt, Entry.provides]
      exact ⟨value, rfl, wellKeyed.2.2.1⟩
  | .copy source range guard, wellKeyed, key, fits => by
      simp only [Entry.WellKeyed] at wellKeyed
      obtain ⟨_, supports, rfl, sourceWellKeyed, rangeSorted, _⟩ := wellKeyed
      rw [Entry.valueAt, Entry.provides]
      obtain ⟨index, number, isIndex, indexDenotes, isSlot⟩ := fits.index supports
      obtain ⟨sourceNumber, isSource, sourceDenotes⟩ := rangeSorted.sourceIndex_denotes indexDenotes
      have converted : (range.convert key).secondary =
          some ((index.sub range.destinationFrom).add range.sourceFrom) := by
        simp only [CopyRange.convert, isIndex, Option.map_some]
      have sourceFits : source.id.FitsSecondary interpretation (range.convert key).secondary := by
        rw [converted]
        exact .of_denotes (RegionId.secondarySort_of_supportsCopy supports) sourceDenotes
      have sourceSlot : (range.convert key).slot interpretation.model =
          range.sourceSlot interpretation.model (key.slot interpretation.model) := by
        rw [Key.slot, converted, Option.map_some, sourceDenotes.valueOf, Key.slot, isSlot, isSource]
      rw [← sourceSlot]
      exact Region.read_denotes source sourceWellKeyed _ ⟨rangeSorted.source, sourceFits⟩
  | .overlay source members ends guard, wellKeyed, key, fits => by
      simp only [Entry.WellKeyed] at wellKeyed
      obtain ⟨_, _, rfl, sourceWellKeyed, _, _, _, sourceReference, _⟩ := wellKeyed
      rw [Entry.valueAt, Entry.provides]
      exact Region.read_denotes source sourceWellKeyed (ends.convert key) ⟨sourceReference, fits⟩

end

end SymbolicHeap
