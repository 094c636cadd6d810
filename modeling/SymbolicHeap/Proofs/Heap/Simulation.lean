import SymbolicHeap.Proofs.Heap.Operations

/-!
Contract: a memory under a model is a plain store of values.

The store knows neither terms nor guards nor logs: it maps a region, an
address and a slot to a value, and an operation overwrites values in place. A
memory represents a store when every read of it has the value that the store
holds, and each operation keeps it that way, as long as no address is null.

Owns:
- stores and what the operations do to them;
- the relation between a memory and the store that it represents;
- reads after any number of operations.
-/

namespace SymbolicHeap

/-! ## Stores -/

/-- Values by region, address and slot. -/
abbrev Store := RegionId → Constant → Option Constant → Constant

namespace Store

/-- Before execution input objects hold what the model says, and all other
objects hold initial values. -/
def initial (model : Model) : Store := fun region address slot =>
  match address with
  | .heap _ => region.initial
  | address => model.inputValue region address slot

def write
    (store : Store)
    (region : RegionId)
    (address : Constant)
    (slot : Option Constant)
    (value : Constant) :
    Store := fun id place index =>
  if id = region ∧ place = address ∧ index = slot then value else store id place index

/-- The elements from `first` up to `last` of the destination become the
elements from `sourceFirst` on of the source. Indices wrap. -/
def copyElements
    (store : Store)
    (region : RegionId)
    (source destination : Constant)
    (sourceFirst first last : Int32) :
    Store := fun id place index =>
  match index with
  | some (.i32 element) =>
      if id = region ∧ place = destination ∧ first ≤ element ∧ element < last then
        store region source (some (.i32 (element - first + sourceFirst)))
      else store id place index
  | _ => store id place index

/-- The destination takes over the value of every key of the source. -/
def overlay
    (store : Store)
    (region members : RegionId)
    (source destination : Constant) :
    Store := fun id place index =>
  if id = region ∧ place = destination ∧ store members source index = .bool true then
    store region source index
  else store id place index

/-- One operation on values. It happens only where its guard holds, and only in
a region that has it. -/
def step (model : Model) (store : Store) : MemoryOp → Store
  | .allocate _ => store
  | .write region key value guard =>
      if model.holds guard then
        store.write region (model.valueOf key.address) (key.slot model) (model.valueOf value)
      else store
  | .copyRange region range guard =>
      match model.valueOf range.sourceFrom, model.valueOf range.destinationFrom,
        model.valueOf range.destinationTo with
      | .i32 sourceFirst, .i32 first, .i32 last =>
          if region.supportsCopy ∧ model.holds guard then
            store.copyElements region (model.valueOf range.sourceAddress)
              (model.valueOf range.destinationAddress) sourceFirst first last
          else store
      | _, _, _ => store
  | .overlay region members ends guard =>
      if region.supportsMerge ∧ model.holds guard then
        store.overlay region members (model.valueOf ends.sourceAddress)
          (model.valueOf ends.destinationAddress)
      else store

/-- The store after a sequence of operations from the start of execution. -/
def after (model : Model) (operations : List MemoryOp) : Store :=
  operations.foldl (step model) (initial model)

end Store

namespace MemoryOp

/-- No address of the operation is null. -/
def AvoidsNull (model : Model) : MemoryOp → Prop
  | .allocate _ => True
  | .write _ key _ _ => model.valueOf key.address ≠ .null
  | .copyRange _ range _ =>
      model.valueOf range.sourceAddress ≠ .null ∧ model.valueOf range.destinationAddress ≠ .null
  | .overlay _ _ ends _ =>
      model.valueOf ends.sourceAddress ≠ .null ∧ model.valueOf ends.destinationAddress ≠ .null

/-- A new memory after a sequence of operations. -/
def runAll (operations : List MemoryOp) : Fresh Memory := do
  operations.foldlM run (← Memory.create)

end MemoryOp

/-! ## Places of addresses -/

/-- Where an object with a known address lies. -/
def Place.of : Constant → Place
  | .heap address => .object address
  | address => .input address

namespace Place

private theorem of_injective {left right : Constant} (same : Place.of left = Place.of right) :
    left = right := by
  cases left <;> cases right <;> simp_all [Place.of]

private theorem of_ne_null (address : Constant) : Place.of address ≠ .null := by
  cases address <;> simp [Place.of]

private theorem of_not_heap {address : Constant} (notHeap : address.isHeap = false) :
    Place.of address = .input address := by
  cases address <;> simp_all [Place.of, Constant.isHeap]

end Place

section Places

variable {interpretation : Interpretation} {reference : Term}

/-- A reference that is not null lies where its value says. -/
theorem Term.IsReference.place_eq
    (isReference : reference.IsReference interpretation.vocabulary)
    (notNull : interpretation.model.valueOf reference ≠ .null) :
    reference.place interpretation.model =
      Place.of (interpretation.model.valueOf reference) := by
  have valid := isReference.addressUnder_valid
  have value := isReference.valueOf_eq
  rw [Term.place] at value ⊢
  cases address : reference.addressUnder interpretation.model with
  | null =>
      rw [address] at value
      exact absurd value notNull
  | object number =>
      rw [value, address]
      rfl
  | symbolic leaf =>
      rw [address] at valid value
      obtain ⟨leafReference, flat, classified⟩ := valid
      have notHeap := leafReference.symbolic_not_heap flat classified
      rw [value]
      exact (Place.of_not_heap notHeap).symm

/-- What an update through a reference hits, by the value of the reference. -/
private theorem updateHits_of
    (isReference : reference.IsReference interpretation.vocabulary)
    (notNull : interpretation.model.valueOf reference ≠ .null)
    (guard : Term)
    (covered : Option Constant → Bool)
    (address : Constant)
    (slot : Option Constant) :
    updateHits interpretation.model reference guard covered (Place.of address) slot =
      (decide (address = interpretation.model.valueOf reference) && covered slot &&
        interpretation.model.holds guard) := by
  have samePlace : Place.of (interpretation.model.valueOf reference) = Place.of address ↔
      address = interpretation.model.valueOf reference :=
    ⟨fun same => (Place.of_injective same).symm, fun same => by rw [same]⟩
  simp [updateHits, isReference.place_eq notNull, samePlace, Place.of_ne_null]

/-- The slots of an array are indices. -/
private theorem RegionId.fitsSlot_iff_of_supportsCopy {region : RegionId}
    (supports : region.supportsCopy = true)
    (slot : Option Constant) :
    region.FitsSlot slot ↔ ∃ element, slot = some (.i32 element) := by
  unfold FitsSlot
  rw [secondarySort_of_supportsCopy supports]
  constructor
  · intro fits
    cases slot with
    | none => exact fits.elim
    | some value =>
        obtain ⟨element, rfl⟩ := Constant.HasSort.i32_cases fits
        exact ⟨element, rfl⟩
  · rintro ⟨element, rfl⟩
    exact ⟨Constant.noConfusion, rfl⟩

theorem RegionId.FitsSlot.congr {region other : RegionId}
    (sameSort : other.secondarySort = region.secondarySort)
    {slot : Option Constant}
    (fits : region.FitsSlot slot) : other.FitsSlot slot := by
  unfold RegionId.FitsSlot at fits ⊢
  rw [sameSort]
  exact fits

end Places

/-! ## Representation -/

/-- Every location of the memory holds what the store has there. -/
structure Memory.Represents
    (interpretation : Interpretation)
    (memory : Memory)
    (store : Store) :
    Prop where
  wellKeyed : memory.WellKeyed interpretation
  contents : ∀ id address slot, id.Known interpretation.vocabulary → id.FitsSlot slot →
    (memory.regionFor id).contents interpretation.model (Place.of address) slot =
      store id address slot

namespace Memory

variable {interpretation : Interpretation} {memory : Memory} {store : Store}

theorem empty_represents (owner : Owner) :
    (empty owner).Represents interpretation (Store.initial interpretation.model) := by
  refine ⟨empty_wellKeyed owner, ?_⟩
  intro id address slot _ _
  show (Region.empty id owner).contents interpretation.model (Place.of address) slot = _
  cases address <;> rfl

theorem Represents.change
    (represents : memory.Represents interpretation store)
    {region : RegionId}
    {hit : Place → Option Constant → Bool}
    {provided : Option Constant → Constant}
    {after : Memory}
    (changes : Changes interpretation region hit provided memory after)
    {newStore : Store}
    (agrees : ∀ id address slot, id.Known interpretation.vocabulary → id.FitsSlot slot →
      newStore id address slot =
        if id = region ∧ hit (Place.of address) slot = true then provided slot
        else store id address slot) :
    after.Represents interpretation newStore := by
  refine ⟨changes.wellKeyed, ?_⟩
  intro id address slot known fits
  rw [changes.contents id (Place.of address) slot known fits, agrees id address slot known fits,
    represents.contents id address slot known fits]

/-! ## One operation -/

theorem Represents.write
    (represents : memory.Represents interpretation store)
    {region : RegionId}
    (known : region.Known interpretation.vocabulary)
    {key : Key}
    (keyFits : region.FitsKey interpretation key)
    {value guard : Term}
    (valueStored : value.Stored interpretation region.valueSort)
    (guardStored : guard.Stored interpretation .bool)
    (avoidsNull : (MemoryOp.write region key value guard).AvoidsNull interpretation.model) :
    (memory.write region key value guard).Ensures fun after =>
      after.Represents interpretation
        (store.step interpretation.model (.write region key value guard)) := by
  have changes := write_changes represents.wellKeyed known keyFits valueStored guardStored
  intro supply
  refine represents.change (changes supply) ?_
  intro id address slot _ fits
  rw [updateHits_of keyFits.1 avoidsNull, Store.step]
  by_cases here : id = region
  · subst here
    rw [Key.slot, RegionId.FitsSlot.slotsMatch_eq keyFits.2.fitsSlot fits]
    cases interpretation.model.holds guard <;> simp [Store.write]
  · cases interpretation.model.holds guard <;> simp [Store.write, here]

theorem Represents.copyRange
    (represents : memory.Represents interpretation store)
    {region : RegionId}
    (known : region.Known interpretation.vocabulary)
    {range : CopyRange}
    (rangeSorted : range.WellSorted interpretation)
    (isReference : range.destinationAddress.IsReference interpretation.vocabulary)
    {guard : Term}
    (guardStored : guard.Stored interpretation .bool)
    (avoidsNull : (MemoryOp.copyRange region range guard).AvoidsNull interpretation.model) :
    (memory.copyRange region range guard).Ensures fun result =>
      result.2.Represents interpretation
        (store.step interpretation.model (.copyRange region range guard)) := by
  have changes := copyRange_changes represents.wellKeyed known rangeSorted isReference guardStored
  obtain ⟨sourceFirst, sourceFirstEq⟩ := rangeSorted.sourceFrom.hasSort.i32_cases
  obtain ⟨first, firstEq⟩ := rangeSorted.destinationFrom.hasSort.i32_cases
  obtain ⟨last, lastEq⟩ := rangeSorted.destinationTo.hasSort.i32_cases
  intro supply
  refine represents.change (changes supply) ?_
  intro id address slot idKnown fits
  rw [updateHits_of isReference avoidsNull.2, rangeSorted.source.place_eq avoidsNull.1]
  simp only [Store.step, sourceFirstEq, firstEq, lastEq]
  by_cases here : id = region
  · subst here
    cases supports : id.supportsCopy with
    | true =>
        obtain ⟨element, rfl⟩ := (RegionId.fitsSlot_iff_of_supportsCopy supports slot).1 fits
        have sourceContents := represents.contents id
          (interpretation.model.valueOf range.sourceAddress)
          (some (.i32 (element - first + sourceFirst))) known
          ((RegionId.fitsSlot_iff_of_supportsCopy supports _).2 ⟨_, rfl⟩)
        simp only [CopyRange.covers, CopyRange.sourceSlot, sourceFirstEq, firstEq, lastEq,
          sourceContents]
        cases interpretation.model.holds guard <;> simp [Store.copyElements]
    | false => simp
  · split
    · simp only [Store.copyElements, here]
      split <;> simp
    · simp [here]

theorem Represents.overlay
    (represents : memory.Represents interpretation store)
    {region members : RegionId}
    {ends : OverlayEnds}
    {guard : Term}
    (takesValues :
      (MemoryOp.overlay region members ends guard).TakesValues interpretation.vocabulary)
    (avoidsNull : (MemoryOp.overlay region members ends guard).AvoidsNull interpretation.model) :
    (memory.overlay region members ends guard).Ensures fun result =>
      result.2.Represents interpretation
        (store.step interpretation.model (.overlay region members ends guard)) := by
  obtain ⟨known, membersKnown, ⟨mapType, keySort, rfl, hasKeySort⟩, sourceReference, isReference,
    guardSorted⟩ := takesValues
  have changes := overlay_changes represents.wellKeyed known membersKnown rfl
    (fun supports => (hasKeySort supports).symm) sourceReference isReference guardSorted.stored
  intro supply
  refine represents.change (changes supply) ?_
  intro id address slot _ fits
  rw [updateHits_of isReference avoidsNull.2, sourceReference.place_eq avoidsNull.1, Store.step]
  by_cases here : id = region
  · subst here
    cases supports : id.supportsMerge with
    | true =>
        have membersFits : (RegionId.mapContains mapType keySort).FitsSlot slot := by
          apply fits.congr
          exact (hasKeySort supports).symm
        rw [represents.contents id _ slot known fits,
          represents.contents _ _ slot membersKnown membersFits]
        cases interpretation.model.holds guard <;> simp [Store.overlay]
    | false => simp
  · split <;> simp [Store.overlay, here]

theorem Represents.step
    (represents : memory.Represents interpretation store)
    {operation : MemoryOp}
    (takesValues : operation.TakesValues interpretation.vocabulary)
    (avoidsNull : operation.AvoidsNull interpretation.model) :
    (operation.run memory).Ensures fun after =>
      after.Represents interpretation (store.step interpretation.model operation) := by
  cases operation with
  | allocate typeName =>
      -- Allocation touches no region.
      exact Fresh.ensures_pure ⟨represents.wellKeyed, represents.contents⟩
  | write region key value guard =>
      obtain ⟨known, keySorted, valueSorted, guardSorted⟩ := takesValues
      exact represents.write known keySorted.fits valueSorted.stored guardSorted.stored avoidsNull
  | copyRange region range guard =>
      obtain ⟨known, sourceReference, isReference, sourceFrom, destinationFrom, destinationTo,
        guardSorted⟩ := takesValues
      have rangeSorted : range.WellSorted interpretation :=
        ⟨sourceReference, sourceFrom.stored, destinationFrom.stored, destinationTo.stored⟩
      exact (represents.copyRange known rangeSorted isReference guardSorted.stored avoidsNull).map
        fun _ holds => holds
  | overlay region members ends guard =>
      exact (represents.overlay takesValues avoidsNull).map fun _ holds => holds

/-! ## Runs -/

theorem Represents.foldlM
    (represents : memory.Represents interpretation store)
    {operations : List MemoryOp}
    (takesValues : ∀ operation ∈ operations, operation.TakesValues interpretation.vocabulary)
    (avoidsNull : ∀ operation ∈ operations, operation.AvoidsNull interpretation.model) :
    (operations.foldlM MemoryOp.run memory).Ensures fun after =>
      after.Represents interpretation
        (operations.foldl (Store.step interpretation.model) store) := by
  induction operations generalizing memory store with
  | nil => exact Fresh.ensures_pure represents
  | cons operation rest inductionHypothesis =>
      rw [List.forall_mem_cons] at takesValues avoidsNull
      rw [List.foldlM_cons]
      refine (represents.step takesValues.1 avoidsNull.1).bind ?_
      intro between betweenRepresents
      exact inductionHypothesis betweenRepresents takesValues.2 avoidsNull.2

theorem runAll_represents {operations : List MemoryOp}
    (takesValues : ∀ operation ∈ operations, operation.TakesValues interpretation.vocabulary)
    (avoidsNull : ∀ operation ∈ operations, operation.AvoidsNull interpretation.model) :
    (MemoryOp.runAll operations).Ensures fun after =>
      after.Represents interpretation (Store.after interpretation.model operations) := by
  have created : Memory.create.Ensures fun memory =>
      memory.Represents interpretation (Store.initial interpretation.model) :=
    fun supply => empty_represents _
  exact created.bind fun memory represents => represents.foldlM takesValues avoidsNull

/-- Every read has a value, namely the one that the store holds. -/
theorem Represents.read_denotes
    (represents : memory.Represents interpretation store)
    {id : RegionId}
    (known : id.Known interpretation.vocabulary)
    {key : Key}
    (fits : id.FitsKey interpretation key)
    (avoidsNull : interpretation.model.valueOf key.address ≠ .null) :
    ∃ term, memory.read id key = .ok term ∧
      term.Denotes interpretation .closed id.valueSort
        (store id (interpretation.model.valueOf key.address) (key.slot interpretation.model)) := by
  obtain ⟨sameId, regionWellKeyed⟩ := represents.wellKeyed id known
  have contents := represents.contents id (interpretation.model.valueOf key.address)
    (key.slot interpretation.model) known fits.2.fitsSlot
  have denotes := Region.read_denotes _ regionWellKeyed key (sameId.symm ▸ fits)
  rw [sameId, fits.1.place_eq avoidsNull, contents] at denotes
  exact denotes

theorem Represents.read
    (represents : memory.Represents interpretation store)
    {id : RegionId}
    (known : id.Known interpretation.vocabulary)
    {key : Key}
    (keySorted : key.WellSorted interpretation.vocabulary id)
    (avoidsNull : interpretation.model.valueOf key.address ≠ .null) :
    ∃ term, memory.read id key = .ok term ∧
      interpretation.model.evaluate term =
        .ok (some (store id (interpretation.model.valueOf key.address)
          (key.slot interpretation.model))) := by
  obtain ⟨term, isRead, denotes⟩ := represents.read_denotes known keySorted.fits avoidsNull
  exact ⟨term, isRead, Model.evaluate_of_eval denotes.eval⟩

/-- After any operations on a new memory, a read has the value that a plain
store holds after the same operations on values. -/
theorem read_runAll
    (vocabulary : Vocabulary)
    (model : Model)
    (admissible : model.Admissible vocabulary)
    (operations : List MemoryOp)
    (takesValues : ∀ operation ∈ operations, operation.TakesValues vocabulary)
    (avoidsNull : ∀ operation ∈ operations, operation.AvoidsNull model)
    (id : RegionId)
    (known : id.Known vocabulary)
    (key : Key)
    (keySorted : key.WellSorted vocabulary id)
    (keyAvoidsNull : model.valueOf key.address ≠ .null)
    (supply : Supply) :
    ∃ term, ((MemoryOp.runAll operations).run supply).1.read id key = .ok term ∧
      model.evaluate term =
        .ok (some (Store.after model operations id (model.valueOf key.address)
          (key.slot model))) := by
  let interpretation : Interpretation := ⟨vocabulary, model, admissible⟩
  have represents : ((MemoryOp.runAll operations).run supply).1.Represents interpretation
      (Store.after model operations) :=
    runAll_represents takesValues avoidsNull supply
  exact represents.read known keySorted keyAvoidsNull

/-- An element is written to a new array, unless `skip` holds, and copied to an
array of the input. -/
def copiedElement : List MemoryOp :=
  let zero : Term := .const (.i32 0)
  [.allocate "Items",
    .write (.arrayElement "Items" .i32) ⟨.const (.heap 1), some zero⟩ (.const (.i32 7))
      (.negation (.var "skip" .bool)),
    .copyRange (.arrayElement "Items" .i32)
      { sourceAddress := .const (.heap 1)
        destinationAddress := .const (.input 3)
        sourceFrom := zero
        destinationFrom := .const (.i32 4)
        destinationTo := .const (.i32 5) }
      (.const (.bool true))]

theorem read_copiedElement :
    ∃ term, ((MemoryOp.runAll copiedElement).run Supply.initial).1.read (.arrayElement "Items" .i32)
        ⟨.const (.input 3), some (.const (.i32 4))⟩ = .ok term ∧
      Model.empty.evaluate term = .ok (some (.i32 7)) :=
  read_runAll ⟨fun _ _ => True, fun _ _ => True⟩ Model.empty (Model.empty_admissible _)
    copiedElement
    (by
      have guardSorted : (Term.negation (.var "skip" .bool)).IsValue
          ⟨fun _ _ => True, fun _ _ => True⟩ .bool :=
        ⟨by simp [Term.WellSorted, Term.sort, ValueSort.isArray], rfl, rfl⟩
      have number : ∀ value, (Term.const (.i32 value)).IsValue
          ⟨fun _ _ => True, fun _ _ => True⟩ .i32 :=
        fun value => Term.isValue_const ⟨Constant.noConfusion, rfl⟩
      simp only [copiedElement, List.forall_mem_cons, MemoryOp.TakesValues]
      exact ⟨trivial,
        ⟨⟨rfl, trivial⟩, ⟨Term.isValue_const (by decide), number 0⟩, number 7, guardSorted⟩,
        ⟨⟨rfl, trivial⟩, Term.isValue_const (by decide), Term.isValue_const (by decide), number 0,
          number 4, number 5, Term.isValue_const (by decide)⟩, by simp⟩)
    (by
      simp only [copiedElement, List.forall_mem_cons, MemoryOp.AvoidsNull]
      exact ⟨trivial, by decide, by decide, by simp⟩)
    (.arrayElement "Items" .i32) ⟨rfl, trivial⟩ ⟨.const (.input 3), some (.const (.i32 4))⟩
    ⟨Term.isValue_const (by decide), Term.isValue_const (by decide)⟩
    (by decide) Supply.initial

end Memory

end SymbolicHeap
