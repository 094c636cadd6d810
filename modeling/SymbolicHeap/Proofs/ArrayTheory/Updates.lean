import SymbolicHeap.ArrayTheory.Region
import SymbolicHeap.Proofs.ArrayTheory.Sessions

/-!
Contract: one update of an array is one entry of a log.

The indices of an array stand for the locations of the objects that a log is
for. Replaying an entry on top of an array changes its elements exactly where
the entry covers the location, whether the entry is stored at one key, written
out element by element, or becomes a lambda.

Owns:
- locations as indices, and keys as terms for indices;
- the arrays below a log;
- stores, unrolled ranges and lambdas.
-/

namespace SymbolicHeap

open Encoding

variable {interpretation : Interpretation} {history : History}

/-! ## Locations as indices -/

private theorem RegionId.fitsSlot_of_haveSorts {region : RegionId} {slots : List Constant}
    (haveSorts : Constant.HaveSorts slots region.secondarySort.toList) :
    region.FitsSlot slots.head? ∧ slots = slots.head?.toList := by
  unfold RegionId.FitsSlot
  revert haveSorts
  rcases region.secondarySort with _ | sort
  · rcases slots with _ | ⟨slot, slots⟩
    · simp
    · simp [Constant.HaveSorts]
  · rcases slots with _ | ⟨slot, _ | ⟨extra, slots⟩⟩
    · simp [Constant.HaveSorts]
    · simp [Constant.HaveSorts]
    · simp [Constant.HaveSorts]

namespace LogTarget

def shape : LogTarget → KeyShape
  | none => .input
  | some _ => .object

/-- The sorts that index the array of a log. -/
def domain (region : RegionId) : LogTarget → List ValueSort
  | none => .reference :: region.secondarySort.toList
  | some _ => region.secondarySort.toList

/-- The indices of a location. -/
def indices (address : Constant) (slot : Option Constant) : LogTarget → List Constant
  | none => address :: slot.toList
  | some _ => slot.toList

/-- The log is for the object at the address. -/
def Contains (address : Constant) : LogTarget → Prop
  | none => True
  | some number => address = .heap number

/-- Allocated objects have an array of their own only where the region has
secondary keys. -/
def HasArray (region : RegionId) : LogTarget → Prop
  | none => True
  | some _ => region.secondarySort.isSome = true

variable {target : LogTarget} {region : RegionId} {places : List Constant}

theorem fitsSlot (haveSorts : Constant.HaveSorts places (target.domain region)) :
    region.FitsSlot (target.slot places) := by
  cases target with
  | none =>
      cases places with
      | nil => simp [domain, Constant.HaveSorts] at haveSorts
      | cons address slots => exact (RegionId.fitsSlot_of_haveSorts haveSorts.2).1
  | some number => exact (RegionId.fitsSlot_of_haveSorts haveSorts).1

private theorem indices_self (haveSorts : Constant.HaveSorts places (target.domain region)) :
    places = target.indices (target.address places) (target.slot places) := by
  cases target with
  | none =>
      cases places with
      | nil => simp [domain, Constant.HaveSorts] at haveSorts
      | cons address slots =>
          exact congrArg (address :: ·) (RegionId.fitsSlot_of_haveSorts haveSorts.2).2
  | some number => exact (RegionId.fitsSlot_of_haveSorts haveSorts).2

private theorem eq_indices_iff (haveSorts : Constant.HaveSorts places (target.domain region))
    {address : Constant} {slot : Option Constant} (contains : target.Contains address) :
    places = target.indices address slot ↔
      target.address places = address ∧ target.slot places = slot := by
  constructor
  · rintro rfl
    cases target with
    | none => cases slot <;> exact ⟨rfl, rfl⟩
    | some number => cases slot <;> exact ⟨contains.symm, rfl⟩
  · rintro ⟨rfl, rfl⟩
    exact indices_self haveSorts

theorem Admits.contains {address : Term}
    (admits : target.Admits interpretation.vocabulary address) :
    target.Contains (interpretation.model.valueOf address) := by
  cases target with
  | none => trivial
  | some number =>
      rw [show address = .const (.heap number) from admits]
      exact (Term.Denotes.heap number).valueOf

/-- Some location has indices. -/
private theorem exists_places (known : region.Known interpretation.vocabulary)
    (target : LogTarget) :
    ∃ places, Constant.HaveSorts places (target.domain region) := by
  have slots : ∃ slots, Constant.HaveSorts slots region.secondarySort.toList := by
    have scalar := known.1
    simp only [RegionId.isScalar, Bool.and_eq_true] at scalar
    cases hasSort : region.secondarySort with
    | none => exact ⟨[], trivial⟩
    | some sort =>
        rw [hasSort, Option.all_some, Bool.not_eq_true'] at scalar
        cases initial : Constant.default sort with
        | error fault => cases sort <;> simp_all [Constant.default, ValueSort.isArray]
        | ok value => exact ⟨[value], Constant.hasSort_of_default initial, trivial⟩
  obtain ⟨slots, haveSorts⟩ := slots
  cases target with
  | none => exact ⟨.null :: slots, ⟨by simp, rfl⟩, haveSorts⟩
  | some number => exact ⟨slots, haveSorts⟩

end LogTarget

/-! ## Keys as terms for indices -/

/-- The secondary key has the value, or there is none. -/
inductive RegionId.SecondaryDenotes
    (interpretation : Interpretation)
    (environment : Environment)
    (region : RegionId) :
    Option Term → Option Constant → Prop
  | absent (noSort : region.secondarySort = none) :
      SecondaryDenotes interpretation environment region none none
  | present {sort : ValueSort} {index : Term} {value : Constant}
      (hasSort : region.secondarySort = some sort)
      (denotes : index.Denotes interpretation environment sort value) :
      SecondaryDenotes interpretation environment region (some index) (some value)

theorem RegionId.SecondaryDenotes.congr {environment : Environment} {region other : RegionId}
    {secondary : Option Term} {slot : Option Constant}
    (denotes : region.SecondaryDenotes interpretation environment secondary slot)
    (sameSort : other.secondarySort = region.secondarySort) :
    other.SecondaryDenotes interpretation environment secondary slot := by
  cases denotes with
  | absent noSort => exact .absent (sameSort.trans noSort)
  | present hasSort indexDenotes => exact .present (sameSort.trans hasSort) indexDenotes

/-- The index of an element. -/
theorem RegionId.SecondaryDenotes.index {environment : Environment} {region : RegionId}
    {secondary : Option Term} {slot : Option Constant}
    (denotes : region.SecondaryDenotes interpretation environment secondary slot)
    (supports : region.supportsCopy = true) :
    ∃ index number, secondary = some index ∧ slot = some (.i32 number) ∧
      index.Denotes interpretation environment .i32 (.i32 number) := by
  cases denotes with
  | absent noSort => simp [secondarySort_of_supportsCopy supports] at noSort
  | present hasSort indexDenotes =>
      rw [secondarySort_of_supportsCopy supports, Option.some.injEq] at hasSort
      subst hasSort
      obtain ⟨number, rfl⟩ := indexDenotes.hasSort.i32_cases
      exact ⟨_, number, rfl, rfl, indexDenotes⟩

theorem RegionId.FitsSecondary.denotes {region : RegionId} {secondary : Option Term}
    (fits : region.FitsSecondary interpretation secondary) :
    region.SecondaryDenotes interpretation .closed secondary
      (secondary.map interpretation.model.valueOf) := by
  rcases RegionId.fitsSecondary_cases fits with
    ⟨noSort, rfl⟩ | ⟨sort, index, hasSort, rfl, indexStored⟩
  · exact .absent noSort
  · exact .present hasSort indexStored

/-- The key is that of a location of the region, which may depend on the
parameters of a lambda. -/
structure Key.Locates
    (interpretation : Interpretation)
    (environment : Environment)
    (region : RegionId)
    (key : Key)
    (address : Constant)
    (slot : Option Constant) :
    Prop where
  address : key.address.Denotes interpretation environment .reference address
  secondary : region.SecondaryDenotes interpretation environment key.secondary slot

private theorem Term.DenoteAll.encodedAll_cons {environment : Environment} {head : Term}
    {sort : ValueSort}
    {value : Constant} {tail : List Term} {sorts : List ValueSort} {values : List Constant}
    (headDenotes : head.Denotes interpretation environment sort value)
    (tailDenote : DenoteAll interpretation environment (encodedAll tail) sorts values) :
    DenoteAll interpretation environment (encodedAll (head :: tail)) (sort :: sorts)
      (value :: values) := by
  rw [encodedAll]
  exact .cons headDenotes.encoded tailDenote

/-- The terms that a key stands for are the indices of its location. -/
theorem yields_keyIndices {environment : Environment} {region : RegionId} {key : Key}
    {address : Constant} {slot : Option Constant}
    (locates : key.Locates interpretation environment region address slot)
    {target : LogTarget}
    (hasArray : target.HasArray region) :
    Yields interpretation history (keyIndices key target.shape) fun indices =>
      Term.DenoteAll interpretation environment indices (target.domain region)
        (target.indices address slot) := by
  obtain ⟨addressTerm, secondary⟩ := key
  obtain ⟨addressDenotes, secondaryDenotes⟩ := locates
  have noIndices : Term.DenoteAll interpretation environment (Term.encodedAll []) [] [] := by
    rw [Term.encodedAll]
    exact .nil
  cases target with
  | none =>
      refine (yields_encodeAll _).imp ?_
      rintro _ rfl
      cases secondaryDenotes with
      | absent noSort =>
          rw [LogTarget.domain, noSort]
          exact .encodedAll_cons addressDenotes noIndices
      | present hasSort indexDenotes =>
          rw [LogTarget.domain, hasSort]
          exact .encodedAll_cons addressDenotes (.encodedAll_cons indexDenotes noIndices)
  | some number =>
      cases secondaryDenotes with
      | absent noSort => simp [LogTarget.HasArray, noSort] at hasArray
      | present hasSort indexDenotes =>
          refine (yields_encode_denotes indexDenotes).bind fun result resultDenotes => ?_
          rw [LogTarget.domain, hasSort]
          exact yields_pure (.cons resultDenotes .nil)

/-! ## Arrays below a log -/

/-- The base array of a region holds what was there before execution. -/
theorem RegionId.baseArray_denotes {region : RegionId}
    (known : region.Known interpretation.vocabulary) :
    region.baseArray.DenotesArray interpretation .closed (LogTarget.domain region none)
      region.valueSort fun places =>
        interpretation.model.inputValue region (LogTarget.address none places)
          (LogTarget.slot none places) where
  wellSorted := by
    rw [baseArray, Term.WellSorted]
    exact ⟨rfl, known.2⟩
  sorted := rfl
  select := by
    intro places haveSorts
    have scalar := known.1
    simp only [isScalar, Bool.and_eq_true, Bool.not_eq_true'] at scalar
    obtain ⟨value, found⟩ : ∃ value, interpretation.model.lookupArray region.baseArrayName
        places region.valueSort = .ok value := Model.lookupArray_ok scalar.1
    have samePlaces := LogTarget.indices_self haveSorts
    rw [baseArray, Model.evalSelection, Model.inputValue,
      show LogTarget.address none places :: (LogTarget.slot none places).toList = places from
        samePlaces.symm, found]
    exact Model.orFault_eq_ok.2 found

theorem emptyObjectArray_denotes {region : RegionId}
    (known : region.Known interpretation.vocabulary) {keySort : ValueSort}
    (hasSort : region.secondarySort = some keySort) :
    ∃ array, emptyObjectArray region = .ok array ∧
      array.DenotesArray interpretation .closed [keySort] region.valueSort
        fun _ => region.initial := by
  refine ⟨.constArray (.const region.initial) (.array [keySort] region.valueSort), ?_,
    .constArray (RegionId.initial_denotes known .closed)⟩
  rw [emptyObjectArray, RegionId.objectArraySort, hasSort]
  show (do
    let value ← region.defaultValue
    return Term.constArray value (.array [keySort] region.valueSort)) = _
  rw [(RegionId.defaultValue_eq known).1]
  rfl

/-- What an object stores directly, slot by slot. -/
theorem yields_storedArray {region : RegionId} (known : region.Known interpretation.vocabulary)
    {keySort : ValueSort}
    (hasSort : region.secondarySort = some keySort)
    {values : OrderedMap (Option Constant) Term}
    (wellKeyed : ValuesWellKeyed interpretation region values) :
    Yields interpretation history (storedArray region values) fun array =>
      array.DenotesArray interpretation .closed [keySort] region.valueSort fun places =>
        storedContents interpretation.model region values places.head? := by
  obtain ⟨empty, isEmpty, emptyDenotes⟩ := emptyObjectArray_denotes known hasSort
  refine yields_check isEmpty ?_
  -- Slots that no entry to come writes already have their final value.
  refine (yields_foldlM (fun coming array =>
    (∀ stored ∈ coming, stored ∈ values.entries) ∧
      ∃ elements, array.DenotesArray interpretation .closed [keySort] region.valueSort elements ∧
        ∀ slot, some slot ∉ coming.map Prod.fst →
          elements [slot] = storedContents interpretation.model region values (some slot))
    ?_ ?_).imp ?_
  · rintro ⟨written, value⟩ rest array ⟨members, elements, arrayDenotes, settled⟩
    have member := members _ List.mem_cons_self
    obtain ⟨slotFits, valueStored⟩ := wellKeyed.fits _ member
    cases written with
    | none => simp [RegionId.FitsSlot, hasSort] at slotFits
    | some written =>
        simp only [RegionId.FitsSlot, hasSort] at slotFits
        refine (yields_encode_denotes valueStored).bind fun element elementDenotes => ?_
        have stored := arrayDenotes.store (.cons (Term.Denotes.const slotFits) .nil) elementDenotes
        refine yields_pure ⟨fun other isOther => members other (List.mem_cons_of_mem _ isOther),
          _, stored, ?_⟩
        intro slot settledSlot
        by_cases same : slot = written
        · rw [if_pos (by rw [same]), storedContents, same,
            wellKeyed.ascending.find?_of_mem member]
        · rw [if_neg (by simpa using same)]
          apply settled
          simp only [List.map_cons, List.mem_cons, Option.some.injEq, not_or]
          exact ⟨same, settledSlot⟩
  · refine ⟨fun stored member => member, _, emptyDenotes, ?_⟩
    intro slot absent
    rw [storedContents, OrderedMap.find?_eq_none_iff.2 absent]
  · rintro array ⟨_, elements, arrayDenotes, settled⟩
    refine arrayDenotes.congr ?_
    intro places haveSorts
    rcases places with _ | ⟨slot, _ | ⟨extra, places⟩⟩
    · simp [Constant.HaveSorts] at haveSorts
    · exact settled slot List.not_mem_nil
    · simp [Constant.HaveSorts] at haveSorts

/-! ## Entries -/

/-- The elements that an entry leaves on top of some others. -/
def Entry.elements (model : Model) (entry : Entry) (target : LogTarget)
    (below : List Constant → Constant) (places : List Constant) : Constant :=
  if entry.covers model (target.address places) (target.slot places) then
    entry.provides model (target.slot places)
  else below places

theorem logElements_cons (model : Model) (node : NodeId) (entry : Entry) (length : Nat)
    (older : Log) (target : LogTarget) (below : List Constant → Constant) :
    logElements model (⟨node, entry, length⟩ :: older) target below =
      entry.elements model target (logElements model older target below) := by
  funext places
  rw [logElements, logContents]
  rfl

/-- An entry covers locations of its destination only. -/
private theorem Entry.address_of_covers {model : Model} {entry : Entry} {address : Constant}
    {slot : Option Constant}
    (covered : entry.covers model address slot = true) :
    address = model.valueOf entry.destination := by
  cases entry <;>
    simp only [Entry.covers, Bool.and_eq_true, decide_eq_true_eq] at covered <;>
      exact covered.1.1.symm

private theorem Entry.elements_of_not_covers {model : Model} {entry : Entry} {target : LogTarget}
    {places : List Constant}
    (uncovered : entry.covers model (target.address places) (target.slot places) = false)
    (below : List Constant → Constant) :
    entry.elements model target below places = below places := by
  rw [Entry.elements, uncovered]
  rfl

/-- Between two writes of a range each element is the old or the new one. It is
the new one where no slot to come reaches it. -/
structure Entry.Settles
    (model : Model)
    (entry : Entry)
    (target : LogTarget)
    (below current : List Constant → Constant)
    (coming : List (Option Constant)) :
    Prop where
  oldOrNew : ∀ places, current places = below places ∨
    current places = entry.elements model target below places
  isNew : ∀ places, target.slot places ∉ coming →
    current places = entry.elements model target below places

namespace Entry.Settles

variable {model : Model} {entry : Entry} {target : LogTarget}
  {below current : List Constant → Constant} {slot : Option Constant}
  {coming : List (Option Constant)}

theorem start (complete : ∀ address slot, entry.covers model address slot = true → slot ∈ coming) :
    entry.Settles model target below below coming := by
  refine ⟨fun places => .inl rfl, fun places absent => ?_⟩
  have uncovered : entry.covers model (target.address places) (target.slot places) = false :=
    Bool.eq_false_iff.2 fun covered => absent (complete _ _ covered)
  exact (elements_of_not_covers uncovered below).symm

private theorem eq_of_not_covers (settles : entry.Settles model target below current coming)
    {places : List Constant}
    (uncovered : entry.covers model (target.address places) (target.slot places) = false) :
    current places = entry.elements model target below places := by
  have unchanged := elements_of_not_covers uncovered below
  exact (settles.oldOrNew places).elim (fun isOld => isOld.trans unchanged.symm) id

/-- Writing one element settles its slot. -/
theorem step (settles : entry.Settles model target below current (slot :: coming)) :
    entry.Settles model target below
      (fun places =>
        if target.address places = model.valueOf entry.destination ∧
            target.slot places = slot then
          entry.elements model target current places
        else current places)
      coming := by
  have written : ∀ places, entry.elements model target current places =
      entry.elements model target below places := by
    intro places
    cases covered : entry.covers model (target.address places) (target.slot places) with
    | true => simp only [elements, covered, if_true]
    | false =>
        rw [elements_of_not_covers covered current]
        exact settles.eq_of_not_covers covered
  refine ⟨fun places => ?_, fun places notComing => ?_⟩
  · split
    · exact .inr (written places)
    · exact settles.oldOrNew places
  · split
    · exact written places
    · next elsewhere =>
        by_cases sameSlot : target.slot places = slot
        · -- The slot of another object.
          apply settles.eq_of_not_covers
          exact Bool.eq_false_iff.2 fun covered => elsewhere ⟨address_of_covers covered, sameSlot⟩
        · apply settles.isNew
          rw [List.mem_cons, not_or]
          exact ⟨sameSlot, notComing⟩

end Entry.Settles

section Updates

variable {region : RegionId} {target : LogTarget} {previous : Term}
  {below : List Constant → Constant}

/-- An entry that writes one location becomes a store. -/
theorem yields_encodeWrite {key : Key} {value guard : Term}
    (wellKeyed : (Entry.write key value guard).WellKeyed interpretation region target)
    (hasArray : target.HasArray region)
    (previousDenotes : previous.DenotesArray interpretation .closed (target.domain region)
      region.valueSort below) :
    Yields interpretation history (encodeWrite target.shape previous key value guard)
      fun array => array.DenotesArray interpretation .closed (target.domain region)
        region.valueSort ((Entry.write key value guard).elements interpretation.model target
          below) := by
  simp only [Entry.WellKeyed] at wellKeyed
  obtain ⟨admits, fits, valueStored, guardStored⟩ := wellKeyed
  have slotFits : region.FitsSlot (key.slot interpretation.model) := fits.fitsSlot
  have locates : key.Locates interpretation .closed region
      (interpretation.model.valueOf key.address) (key.slot interpretation.model) :=
    ⟨admits.stored, fits.denotes⟩
  have covers : ∀ places, Constant.HaveSorts places (target.domain region) →
      (Entry.write key value guard).covers interpretation.model (target.address places)
        (target.slot places) =
          (decide (places = target.indices (interpretation.model.valueOf key.address)
            (key.slot interpretation.model)) && interpretation.model.holds guard) := by
    intro places haveSorts
    rw [Entry.covers, slotFits.slotsMatch_eq (LogTarget.fitsSlot haveSorts),
      decide_eq_decide.2 (LogTarget.eq_indices_iff haveSorts admits.contains), Bool.decide_and,
      decide_eq_decide.2 (eq_comm (a := interpretation.model.valueOf key.address))]
  refine (yields_keyIndices locates hasArray).bind fun indices indicesDenote => ?_
  refine (yields_encode_denotes valueStored).bind fun element elementDenotes => ?_
  refine (yields_encode_denotes guardStored.truth).bind fun condition conditionDenotes => ?_
  by_cases certain : condition.asBool? = some true
  · have holds := Constant.bool.inj (conditionDenotes.eq_of_asBool? certain)
    simp only [certain, if_true]
    refine yields_pure ((previousDenotes.store indicesDenote elementDenotes).congr ?_)
    intro places haveSorts
    simp only [Entry.elements, covers places haveSorts, holds, Bool.and_true, decide_eq_true_eq]
    rfl
  · simp only [certain, if_false]
    have chosen := conditionDenotes.ite elementDenotes (previousDenotes.element indicesDenote)
    refine yields_pure ((previousDenotes.store indicesDenote chosen).congr ?_)
    intro places haveSorts
    simp only [Entry.elements, covers places haveSorts, Bool.and_eq_true, decide_eq_true_eq]
    by_cases here : places = target.indices (interpretation.model.valueOf key.address)
        (key.slot interpretation.model)
    · simp only [here, true_and, if_true]
      rfl
    · simp only [here, false_and, if_false]

/-! ## Ranged entries -/

/-- What the source covers and provides is what the entry does, also inside a
lambda. Where the source gives bounds they are those of a range of indices. -/
structure RangedSource.Describes
    (interpretation : Interpretation)
    (history : History)
    (region : RegionId)
    (entry : Entry)
    (source : RangedSource) :
    Prop where
  destination : source.destination = entry.destination
  includes : ∀ {environment : Environment} {key : Key} {address : Constant}
    {slot : Option Constant}, key.Locates interpretation environment region address slot →
      Yields interpretation history (source.includes key) fun condition =>
        condition.Denotes interpretation environment .bool
          (.bool (entry.covers interpretation.model address slot))
  value : ∀ {environment : Environment} {key : Key} {address : Constant}
    {slot : Option Constant}, key.Locates interpretation environment region address slot →
      Yields interpretation history (source.value key) fun element =>
        element.Denotes interpretation environment region.valueSort
          (entry.provides interpretation.model slot)
  bounds : ∀ {first last : Int64}, source.bounds? = some (first, last) →
    ∃ lower upper : Int32, first = lower.toInt64 ∧ last = upper.toInt64 ∧
      ∀ address slot, entry.covers interpretation.model address slot = true →
        ∃ index : Int32, slot = some (.i32 index) ∧ lower ≤ index ∧ index < upper

/-- Every index of a range is one of the steps from its first one. -/
private theorem exists_step {lower upper index : Int32} (above : lower ≤ index)
    (beneath : index < upper) :
    ∃ step < (upper.toInt64.toInt - lower.toInt64.toInt).toNat,
      (lower.toInt64 + Int64.ofNat step).toInt32 = index := by
  rw [Int32.le_iff_toInt_le] at above
  rw [Int32.lt_iff_toInt_lt] at beneath
  refine ⟨(index.toInt - lower.toInt).toNat, ?_, ?_⟩
  · rw [Int32.toInt_toInt64, Int32.toInt_toInt64]
    omega
  · have steps : Int32.ofNat (index.toInt - lower.toInt).toNat = index - lower := by
      rw [← Int32.ofInt_eq_ofNat, Int.toNat_of_nonneg (by omega), Int32.ofInt_sub,
        Int32.ofInt_toInt, Int32.ofInt_toInt]
    rw [Int64.toInt32_add, Int64.toInt32_ofNat', Int32.toInt32_toInt64, steps, Int32.add_comm,
      Int32.sub_add_cancel]

/-- A range of indices never overflows, and one that is written out has every
location that the entry covers. -/
theorem RangedSource.Describes.unrolled? {entry : Entry} {source : RangedSource}
    (describes : source.Describes interpretation history region entry) (limit : Nat) :
    ∃ indices, source.unrolled? limit = .ok indices ∧
      ∀ known ∈ indices, ∀ address slot,
        entry.covers interpretation.model address slot = true →
          slot ∈ known.map fun index => some (Constant.ofInt index .i32) := by
  rw [RangedSource.unrolled?]
  cases bounds : source.bounds? with
  | none => exact ⟨none, rfl, by simp⟩
  | some range =>
      obtain ⟨first, last⟩ := range
      obtain ⟨lower, upper, rfl, rfl, inRange⟩ := describes.bounds bounds
      have noOverflow : ¬ Int64.maxValue.toInt < upper.toInt64.toInt - lower.toInt64.toInt := by
        have greatest : Int64.maxValue.toInt = 9223372036854775807 := by decide
        have upperBound := upper.toInt_lt
        have lowerBound := lower.le_toInt
        rw [greatest, Int32.toInt_toInt64, Int32.toInt_toInt64]
        omega
      simp only [noOverflow, if_false]
      split
      · exact ⟨none, rfl, by simp⟩
      · split
        · exact ⟨none, rfl, by simp⟩
        · refine ⟨_, rfl, ?_⟩
          rintro known isKnown address slot covered
          obtain ⟨index, rfl, above, beneath⟩ := inRange address slot covered
          obtain ⟨step, isStep, reached⟩ := exists_step above beneath
          cases isKnown
          simp only [List.map_map, List.mem_map, List.mem_range, Function.comp_apply]
          exact ⟨step, isStep, by rw [Constant.ofInt, reached]⟩

/-- A lambda whose parameters are the indices of a location. -/
private theorem RangedSource.Describes.yields_choice {entry : Entry} {source : RangedSource}
    (describes : source.Describes interpretation history region entry)
    {parameters : List Term} {key : Key}
    (areBound : ∀ parameter ∈ parameters, parameter.isBound = true)
    (sorted : Term.sorts parameters = target.domain region)
    (inhabited : ∃ places, Constant.HaveSorts places (target.domain region))
    (parametersDenote : ∀ places (haveSorts : Constant.HaveSorts places (Term.sorts parameters)),
      Term.DenoteAll interpretation (Environment.closed.bind parameters places haveSorts) parameters
        (target.domain region) places)
    (locates : ∀ places (haveSorts : Constant.HaveSorts places (Term.sorts parameters)),
      key.Locates interpretation (Environment.closed.bind parameters places haveSorts) region
        (target.address places) (target.slot places))
    (previousDenotes : previous.DenotesArray interpretation .closed (target.domain region)
      region.valueSort below) :
    Yields interpretation history
      (do
        let covers ← source.includes key
        let value ← source.value key
        return Term.lambda parameters (covers.ite value (previous.select parameters)))
      fun array => array.DenotesArray interpretation .closed (target.domain region)
        region.valueSort (entry.elements interpretation.model target below) := by
  obtain ⟨somePlaces, someSorted⟩ := sorted ▸ inhabited
  let Places := { places // Constant.HaveSorts places (Term.sorts parameters) }
  have : Nonempty Places := ⟨somePlaces, someSorted⟩
  refine (Yields.all fun places : Places => describes.includes (locates places.1 places.2)).bind
    fun condition conditionDenotes => ?_
  refine (Yields.all fun places : Places => describes.value (locates places.1 places.2)).bind
    fun element elementDenotes => ?_
  have bodyDenotes : ∀ places (haveSorts : Constant.HaveSorts places (Term.sorts parameters)),
      (condition.ite element (previous.select parameters)).Denotes interpretation
        (Environment.closed.bind parameters places haveSorts) region.valueSort
          (entry.elements interpretation.model target below places) := by
    intro places haveSorts
    exact (conditionDenotes ⟨places, haveSorts⟩).ite (elementDenotes ⟨places, haveSorts⟩)
      ((previousDenotes.widen _).element (parametersDenote places haveSorts))
  have someBody := bodyDenotes somePlaces someSorted
  rw [← sorted]
  exact yields_pure (.lambda areBound someBody.wellSorted someBody.sorted bodyDenotes)

namespace RangedSource.Describes

variable {entry : Entry} {source : RangedSource}
  (describes : source.Describes interpretation history region entry)
  (admits : target.Admits interpretation.vocabulary entry.destination)

include describes admits

/-- One element of a range is one location of the entry. -/
private theorem yields_encodePoint (hasArray : target.HasArray region) {key : Key}
    {slot : Option Constant}
    (locates : key.Locates interpretation .closed region
      (interpretation.model.valueOf entry.destination) slot)
    (previousDenotes : previous.DenotesArray interpretation .closed (target.domain region)
      region.valueSort below) :
    Yields interpretation history (source.encodePoint target.shape previous key) fun array =>
      array.DenotesArray interpretation .closed (target.domain region) region.valueSort
        fun places =>
          if target.address places = interpretation.model.valueOf entry.destination ∧
              target.slot places = slot then
            entry.elements interpretation.model target below places
          else below places := by
  refine (describes.includes locates).bind fun condition conditionDenotes => ?_
  by_cases excluded : condition.asBool? = some false
  · have uncovered := Constant.bool.inj (conditionDenotes.eq_of_asBool? excluded)
    simp only [excluded, if_true]
    refine yields_pure (previousDenotes.congr ?_)
    intro places haveSorts
    by_cases here : target.address places = interpretation.model.valueOf entry.destination ∧
        target.slot places = slot
    · simp [Entry.elements, here, uncovered]
    · simp [here]
  · simp only [excluded, if_false]
    refine (describes.value locates).bind fun element elementDenotes => ?_
    refine (yields_keyIndices locates hasArray).bind fun indices indicesDenote => ?_
    have chosen := conditionDenotes.ite elementDenotes (previousDenotes.element indicesDenote)
    refine yields_pure ((previousDenotes.store indicesDenote chosen).congr ?_)
    intro places haveSorts
    have isHere : places = target.indices (interpretation.model.valueOf entry.destination) slot ↔
        _ :=
      LogTarget.eq_indices_iff haveSorts admits.contains
    by_cases here : target.address places = interpretation.model.valueOf entry.destination ∧
        target.slot places = slot
    · rw [if_pos (isHere.2 here), if_pos here, Entry.elements, here.1, here.2, ← isHere.2 here]
    · rw [if_neg (mt isHere.1 here), if_neg here]

/-- A range written out element by element. -/
private theorem yields_points (hasArray : target.HasArray region) {indices : List Int64}
    (hasSort : region.secondarySort = some .i32)
    (complete : ∀ address slot, entry.covers interpretation.model address slot = true →
      slot ∈ indices.map fun index => some (Constant.ofInt index .i32))
    (previousDenotes : previous.DenotesArray interpretation .closed (target.domain region)
      region.valueSort below) :
    Yields interpretation history
      (indices.foldlM
        (fun array index =>
          source.encodePoint target.shape array ⟨source.destination, some (.ofInt index .i32)⟩)
        previous)
      fun array => array.DenotesArray interpretation .closed (target.domain region)
        region.valueSort (entry.elements interpretation.model target below) := by
  refine (yields_foldlM (fun coming array =>
    ∃ current, array.DenotesArray interpretation .closed (target.domain region) region.valueSort
      current ∧ entry.Settles interpretation.model target below current
        (coming.map fun index => some (Constant.ofInt index .i32)))
    ?_ ⟨below, previousDenotes, .start complete⟩).imp ?_
  · rintro index rest array ⟨current, arrayDenotes, settles⟩
    have locates : Key.Locates interpretation .closed region
        ⟨source.destination, some (.ofInt index .i32)⟩
        (interpretation.model.valueOf entry.destination) (some (Constant.ofInt index .i32)) :=
      ⟨describes.destination ▸ admits.stored,
        .present hasSort (Term.Denotes.const (Constant.ofInt_hasSort rfl index))⟩
    exact (describes.yields_encodePoint admits hasArray locates arrayDenotes).imp
      fun next nextDenotes => ⟨_, nextDenotes, settles.step⟩
  · rintro array ⟨current, arrayDenotes, settles⟩
    exact arrayDenotes.congr fun places _ => settles.isNew places List.not_mem_nil

/-- A lambda chooses between the source and what was there before. -/
private theorem yields_encodeLambda {keySort : ValueSort}
    (known : region.Known interpretation.vocabulary)
    (hasSort : region.secondarySort = some keySort)
    (previousDenotes : previous.DenotesArray interpretation .closed (target.domain region)
      region.valueSort below) :
    Yields interpretation history (source.encodeLambda target.shape keySort previous)
      fun array => array.DenotesArray interpretation .closed (target.domain region)
        region.valueSort (entry.elements interpretation.model target below) := by
  refine yields_lambdaNumber.bind fun number _ => ?_
  have inhabited := LogTarget.exists_places known target
  cases target with
  | none =>
      have apart : ("a!" ++ toString number == "k!" ++ toString number) = false := by
        simp [String.ext_iff]
      have sorted : Term.sorts [.bound ("a!" ++ toString number) .reference,
          .bound ("k!" ++ toString number) keySort] = LogTarget.domain region none := by
        rw [LogTarget.domain, hasSort]
        rfl
      have areBound : ∀ parameter ∈ [.bound ("a!" ++ toString number) .reference,
          .bound ("k!" ++ toString number) keySort], Term.isBound parameter = true := by
        simp [Term.isBound]
      refine describes.yields_choice areBound sorted inhabited ?_ ?_ previousDenotes
      · intro places haveSorts
        obtain ⟨address, slot, rfl, addressDenotes, slotDenotes⟩ :=
          Term.parameters_denote .closed apart haveSorts
        rw [← sorted]
        exact .cons addressDenotes (.cons slotDenotes .nil)
      · intro places haveSorts
        obtain ⟨address, slot, rfl, addressDenotes, slotDenotes⟩ :=
          Term.parameters_denote .closed apart haveSorts
        exact ⟨addressDenotes, .present hasSort slotDenotes⟩
  | some object =>
      have sorted : Term.sorts [.bound ("k!" ++ toString number) keySort] =
          LogTarget.domain region (some object) := by
        rw [LogTarget.domain, hasSort]
        rfl
      have destinationDenotes : source.destination.Denotes interpretation .closed .reference
          (.heap object) := by
        rw [describes.destination, show entry.destination = .const (.heap object) from admits]
        exact .heap object
      have areBound : ∀ parameter ∈ [.bound ("k!" ++ toString number) keySort],
          Term.isBound parameter = true := by
        simp [Term.isBound]
      refine describes.yields_choice areBound sorted inhabited ?_ ?_ previousDenotes
      · intro places haveSorts
        obtain ⟨slot, rfl, slotDenotes⟩ := Term.parameter_denotes .closed haveSorts
        rw [← sorted]
        exact .cons slotDenotes .nil
      · intro places haveSorts
        obtain ⟨slot, rfl, slotDenotes⟩ := Term.parameter_denotes .closed haveSorts
        exact ⟨destinationDenotes.widen _, .present hasSort slotDenotes⟩

/-- A ranged entry in the form that the region asks for. -/
theorem yields_encode (hasArray : target.HasArray region)
    (known : region.Known interpretation.vocabulary)
    (ranged : region.supportsCopy = true ∨ region.supportsMerge = true)
    (previousDenotes : previous.DenotesArray interpretation .closed (target.domain region)
      region.valueSort below) :
    Yields interpretation history (source.encode region target.shape previous) fun array =>
      array.DenotesArray interpretation .closed (target.domain region) region.valueSort
        (entry.elements interpretation.model target below) := by
  cases region with
  | arrayElement arrayType elementSort =>
      refine yields_get fun session _ => ?_
      obtain ⟨indices, isUnrolled, complete⟩ := describes.unrolled? session.unrollLimit
      refine yields_check isUnrolled ?_
      cases indices with
      | none => exact describes.yields_encodeLambda admits known rfl previousDenotes
      | some indices =>
          exact describes.yields_points admits hasArray rfl (complete indices rfl) previousDenotes
  | mapValue _ keySort _ | mapContains _ keySort =>
      exact describes.yields_encodeLambda admits known rfl previousDenotes
  | field _ _ | arrayLength _ | mapLength _ =>
      simp [RegionId.supportsCopy, RegionId.supportsMerge] at ranged

end RangedSource.Describes

end Updates

end SymbolicHeap
