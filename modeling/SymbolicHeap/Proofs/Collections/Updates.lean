import Mathlib.Algebra.Group.Nat.Defs
import SymbolicHeap.Collections.Basic
import SymbolicHeap.Proofs.Heap.Simulation

/-!
Contract: what the updates of a collection do to values, one at a time.

A collection lies in several regions, and an operation on it reads some of them
and goes on with what was read. Every read has a value, so the operation always
goes through, and the memory that it leaves represents the store that the same
updates leave on values.

Owns:
- computations that always go through;
- contents of objects that change under a guard, all others kept;
- writes, copied ranges and overlays of a represented memory, with operands that
  were read before.
-/

namespace SymbolicHeap

/-! ## Computations that go through -/

namespace Fresh

variable {α β : Type}

/-- Whatever identities are handed out, there is a result, and it has the
property. -/
def Succeeds (action : ExceptT Fault Fresh α) (property : α → Prop) : Prop :=
  Ensures action.run fun outcome => ∃ value, outcome = .ok value ∧ property value

theorem succeeds_pure {property : α → Prop} {value : α} (holds : property value) :
    Succeeds (pure value) property :=
  fun _ => ⟨value, rfl, holds⟩

theorem Ensures.succeeds {action : Fresh α} {property : α → Prop}
    (ensures : Ensures action property) : Succeeds (liftM action) property :=
  fun supply => ⟨_, rfl, ensures supply⟩

theorem Succeeds.bind {first : ExceptT Fault Fresh α} {next : α → ExceptT Fault Fresh β}
    {between : α → Prop}
    {property : β → Prop}
    (firstSucceeds : Succeeds first between)
    (nextSucceeds : ∀ value, between value → Succeeds (next value) property) :
    Succeeds (first >>= next) property := by
  rw [Succeeds, ExceptT.run_bind]
  refine Ensures.bind firstSucceeds ?_
  rintro _ ⟨value, rfl, holds⟩
  exact nextSucceeds value holds

/-- A read before a computation. -/
theorem succeeds_read {outcome : Except Fault α} {value : α} (isOk : outcome = .ok value)
    {next : α → ExceptT Fault Fresh β} {property : β → Prop}
    (nextSucceeds : Succeeds (next value) property) :
    Succeeds (liftM outcome >>= next) property := by
  rw [isOk]
  exact nextSucceeds

theorem Succeeds.imp {action : ExceptT Fault Fresh α} {property weaker : α → Prop}
    (succeeds : Succeeds action property)
    (implies : ∀ value, property value → weaker value) : Succeeds action weaker := by
  intro supply
  obtain ⟨value, isValue, holds⟩ := succeeds supply
  exact ⟨value, isValue, implies value holds⟩

/-- Every item of a run is allowed in the state that it meets. -/
def AllAlong {σ : Type} (apply : σ → α → σ) (allowed : σ → α → Prop) : σ → List α → Prop
  | _, [] => True
  | state, item :: rest => allowed state item ∧ AllAlong apply allowed (apply state item) rest

/-- A run goes through and ends in related states when each of its steps does. -/
theorem succeeds_foldlM {σ : Type} {step : β → α → ExceptT Fault Fresh β} {apply : σ → α → σ}
    {allowed : σ → α → Prop}
    {related : β → σ → Prop}
    (each : ∀ value state item, related value state → allowed state item →
      Succeeds (step value item) fun next => related next (apply state item))
    {items : List α}
    {value : β}
    {state : σ}
    (start : related value state)
    (allAllowed : AllAlong apply allowed state items) :
    Succeeds (items.foldlM step value) fun last => related last (items.foldl apply state) := by
  induction items generalizing value state with
  | nil => exact succeeds_pure start
  | cons item rest inductionHypothesis =>
      rw [List.foldlM_cons]
      refine (each value state item start allAllowed.1).bind ?_
      intro next nextRelated
      exact inductionHypothesis nextRelated allAllowed.2

end Fresh

/-! ## Values and objects -/

section Values

variable {vocabulary : Vocabulary} {sort : ValueSort} {condition consequent alternate : Term}
  (conditionValue : condition.IsValue vocabulary .bool)

include conditionValue

theorem Term.IsValue.negation : (Term.negation condition).IsValue vocabulary .bool := by
  refine ⟨?_, rfl, conditionValue.memoryLevel⟩
  rw [WellSorted]
  exact ⟨conditionValue.wellSorted, conditionValue.sorted⟩

theorem Term.IsValue.conditional (consequentValue : consequent.IsValue vocabulary sort)
    (alternateValue : alternate.IsValue vocabulary sort) :
    (Term.conditional condition consequent alternate).IsValue vocabulary sort := by
  refine ⟨?_, consequentValue.sorted, ?_⟩
  · rw [WellSorted]
    exact ⟨conditionValue.wellSorted, consequentValue.wellSorted, alternateValue.wellSorted,
      conditionValue.sorted, consequentValue.sorted.trans alternateValue.sorted.symm⟩
  · simp [isMemoryLevel, conditionValue.memoryLevel, consequentValue.memoryLevel,
      alternateValue.memoryLevel]

end Values

/-- The address of an object. -/
def Constant.IsObject (address : Constant) : Prop := address.HasSort .reference ∧ address ≠ .null

/-- A reference to an object: under the model it is not null. -/
structure Term.IsObject (interpretation : Interpretation) (reference : Term) : Prop where
  isReference : reference.IsReference interpretation.vocabulary
  notNull : interpretation.model.valueOf reference ≠ .null

theorem Term.IsObject.address {interpretation : Interpretation} {reference : Term}
    (isObject : reference.IsObject interpretation) :
    (interpretation.model.valueOf reference).IsObject :=
  ⟨isObject.isReference.denotes.hasSort, isObject.notNull⟩

/-- An address is a reference to the object there. -/
theorem Constant.IsObject.const {address : Constant} (isObject : address.IsObject)
    (interpretation : Interpretation) :
    (Term.const address).IsObject interpretation ∧
      interpretation.model.valueOf (.const address) = address := by
  have denotes : (Term.const address).Denotes interpretation .closed .reference address :=
    .const isObject.1
  refine ⟨⟨Term.isValue_const isObject.1, ?_⟩, denotes.valueOf⟩
  rw [denotes.valueOf]
  exact isObject.2

/-- A reference to an object of the execution itself. -/
structure Term.IsAllocated (interpretation : Interpretation) (reference : Term) : Prop where
  isReference : reference.IsReference interpretation.vocabulary
  isHeap : (interpretation.model.valueOf reference).isHeap = true

theorem Term.IsAllocated.isObject {interpretation : Interpretation} {reference : Term}
    (isAllocated : reference.IsAllocated interpretation) : reference.IsObject interpretation := by
  refine ⟨isAllocated.isReference, ?_⟩
  intro isNull
  have isHeap := isAllocated.isHeap
  rw [isNull] at isHeap
  cases isHeap

theorem int32_ofNat_add_one (count : Nat) : Int32.ofNat count + 1 = Int32.ofNat (count + 1) :=
  (Int32.ofNat_add count 1).symm

theorem int32_ofNat_sub_one {count : Nat} (positive : 0 < count) :
    Int32.ofNat count - 1 = Int32.ofNat (count - 1) := by
  obtain ⟨previous, rfl⟩ := Nat.exists_eq_add_of_lt positive
  rw [Int32.ofNat_add]
  simp

theorem sizeOne_denotes {interpretation : Interpretation} :
    sizeOne.Denotes interpretation .closed .i32 (.i32 1) :=
  .const ⟨by decide, rfl⟩

/-! ## Changes of one object -/

/-- Both stores hold the same for every object but one. -/
def Store.AgreeElsewhere (address : Constant) (before after : Store) : Prop :=
  ∀ region place slot, place ≠ address → after region place slot = before region place slot

namespace Store.AgreeElsewhere

variable {address : Constant} {store before between after : Store}

theorem trans (first : AgreeElsewhere address before between)
    (second : AgreeElsewhere address between after) : AgreeElsewhere address before after := by
  intro region place slot elsewhere
  rw [second region place slot elsewhere, first region place slot elsewhere]

theorem write (region : RegionId) (slot : Option Constant) (value : Constant) :
    AgreeElsewhere address store (store.write region address slot value) := by
  intro id place index elsewhere
  simp [Store.write, elsewhere]

theorem copyElements (region : RegionId) (source : Constant) (sourceFirst first last : Int32) :
    AgreeElsewhere address store
      (store.copyElements region source address sourceFirst first last) := by
  intro id place index elsewhere
  unfold Store.copyElements
  split <;> simp [elsewhere]

theorem overlay (region members : RegionId) (source : Constant) :
    AgreeElsewhere address store (store.overlay region members source address) := by
  intro id place index elsewhere
  simp [Store.overlay, elsewhere]

end Store.AgreeElsewhere

/-- The contents of one object change, where the guard holds. -/
def Model.edit
    {α : Type}
    (model : Model)
    (contents : Constant → α)
    (object guard : Term)
    (change : α → α) :
    Constant → α :=
  if model.holds guard then
    Function.update contents (model.valueOf object) (change (contents (model.valueOf object)))
  else contents

private theorem Model.edit_apply {α : Type} (model : Model) (contents : Constant → α)
    (object guard : Term) (change : α → α) (address : Constant) :
    model.edit contents object guard change address =
      if model.holds guard = true ∧ address = model.valueOf object then change (contents address)
      else contents address := by
  rw [edit]
  by_cases here : address = model.valueOf object
  · subst here
    split <;> simp_all
  · split <;> simp [here]

/-- A store holds the edited contents if, where the guard holds, it has the
changed ones of the one object and agrees with the store before on all
others. -/
theorem Store.holds_edit
    {α : Type}
    {model : Model}
    (holds : Store → Constant → α → Prop)
    (frame : ∀ {address other content before after}, holds before other content →
      AgreeElsewhere address before after → other ≠ address → holds after other content)
    {counts : Constant → Prop}
    {contents : Constant → α}
    {before changed : Store}
    (all : ∀ address, counts address → holds before address (contents address))
    {object guard : Term}
    {change : α → α}
    (edited : model.holds guard = true →
      holds changed (model.valueOf object) (change (contents (model.valueOf object))) ∧
        AgreeElsewhere (model.valueOf object) before changed) :
    ∀ address, counts address →
      holds (if model.holds guard then changed else before) address
        (model.edit contents object guard change address) := by
  intro address itCounts
  rw [Model.edit_apply]
  cases truth : model.holds guard with
  | false => simpa using all address itCounts
  | true =>
      obtain ⟨here, elsewhere⟩ := edited truth
      by_cases same : address = model.valueOf object
      · subst same
        simpa using here
      · simpa [same] using frame (all address itCounts) elsewhere same

/-! ## Reads and updates of a represented memory -/

/-- The read goes through, and under the model it has the value. -/
def Model.Reads (model : Model) (outcome : Except Fault Term) (value : Constant) : Prop :=
  ∃ term, outcome = .ok term ∧ model.evaluate term = .ok (some value)

/-- Both reads go through, and under the model they have the same value. -/
def Model.ReadsSame (model : Model) (before after : Except Fault Term) : Prop :=
  ∃ value, model.Reads before value ∧ model.Reads after value

theorem Term.Denotes.reads {interpretation : Interpretation} {sort : ValueSort} {term : Term}
    {value : Constant}
    (denotes : term.Denotes interpretation .closed sort value)
    {outcome : Except Fault Term}
    (isOk : outcome = .ok term) : interpretation.model.Reads outcome value :=
  ⟨term, isOk, Model.evaluate_of_eval denotes.eval⟩

theorem Store.step_copyRange {model : Model} {store : Store} {region : RegionId}
    (supports : region.supportsCopy = true)
    {range : CopyRange}
    {sourceFirst first last : Int32}
    (sourceFrom : model.valueOf range.sourceFrom = .i32 sourceFirst)
    (destinationFrom : model.valueOf range.destinationFrom = .i32 first)
    (destinationTo : model.valueOf range.destinationTo = .i32 last)
    (guard : Term) :
    store.step model (.copyRange region range guard) =
      if model.holds guard then
        store.copyElements region (model.valueOf range.sourceAddress)
          (model.valueOf range.destinationAddress) sourceFirst first last
      else store := by
  simp [Store.step, sourceFrom, destinationFrom, destinationTo, supports]

namespace Memory

variable {interpretation : Interpretation} {memory : Memory} {store : Store}

/-- Allocation touches no region. -/
theorem Represents.allocate (represents : memory.Represents interpretation store)
    (typeName : String) : (memory.allocate typeName).2.Represents interpretation store :=
  ⟨represents.wellKeyed, represents.contents⟩

private theorem fieldKey_fits {region : RegionId} (fieldLike : region.secondarySort = none)
    {object : Term} (isReference : object.IsReference interpretation.vocabulary) :
    region.FitsKey interpretation (fieldKey object) := by
  refine ⟨isReference, ?_⟩
  unfold RegionId.FitsSecondary
  rw [fieldLike]
  trivial

private theorem elementKey_fits {region : RegionId} {sort : ValueSort}
    (hasSort : region.secondarySort = some sort)
    {object : Term} (isReference : object.IsReference interpretation.vocabulary)
    {secondary : Term} (stored : secondary.Stored interpretation sort) :
    region.FitsKey interpretation (elementKey object secondary) := by
  refine ⟨isReference, ?_⟩
  unfold RegionId.FitsSecondary
  rw [hasSort]
  exact stored

section Locations

variable (represents : memory.Represents interpretation store)
  {region : RegionId} (known : region.Known interpretation.vocabulary)
  {object : Term} (isObject : object.IsObject interpretation)
  {value guard : Term} (valueStored : value.Stored interpretation region.valueSort)
  (guardStored : guard.Stored interpretation .bool)

include represents known isObject

theorem Represents.readField (fieldLike : region.secondarySort = none) :
    ∃ field, memory.read region (fieldKey object) = .ok field ∧
      field.Denotes interpretation .closed region.valueSort
        (store region (interpretation.model.valueOf object) none) :=
  represents.read_denotes known (fieldKey_fits fieldLike isObject.isReference) isObject.notNull

theorem Represents.readElement {sort : ValueSort} (hasSort : region.secondarySort = some sort)
    {secondary : Term} (stored : secondary.Stored interpretation sort) :
    ∃ element, memory.read region (elementKey object secondary) = .ok element ∧
      element.Denotes interpretation .closed region.valueSort
        (store region (interpretation.model.valueOf object)
          (some (interpretation.model.valueOf secondary))) :=
  represents.read_denotes known (elementKey_fits hasSort isObject.isReference stored)
    isObject.notNull

include valueStored guardStored

theorem Represents.writeField (fieldLike : region.secondarySort = none) :
    (memory.write region (fieldKey object) value guard).Ensures fun after =>
      after.Represents interpretation
        (if interpretation.model.holds guard then
          store.write region (interpretation.model.valueOf object) none
            (interpretation.model.valueOf value)
        else store) :=
  represents.write known (fieldKey_fits fieldLike isObject.isReference) valueStored guardStored
    isObject.notNull

theorem Represents.writeElement {sort : ValueSort} (hasSort : region.secondarySort = some sort)
    {secondary : Term} (stored : secondary.Stored interpretation sort) :
    (memory.write region (elementKey object secondary) value guard).Ensures fun after =>
      after.Represents interpretation
        (if interpretation.model.holds guard then
          store.write region (interpretation.model.valueOf object)
            (some (interpretation.model.valueOf secondary)) (interpretation.model.valueOf value)
        else store) :=
  represents.write known (elementKey_fits hasSort isObject.isReference stored) valueStored
    guardStored isObject.notNull

end Locations

/-- A ranged update that is accepted. -/
private theorem succeeds_accepted {action : Fresh (Except Fault Unit × Memory)}
    {property : Memory → Prop}
    (accepted : action.Ensures fun result => result.1 = .ok ())
    (ensures : action.Ensures fun result => property result.2) :
    Fresh.Succeeds (do
      let (outcome, next) ← action
      outcome
      return next) property := by
  have both : action.Ensures fun result => result.1 = .ok () ∧ property result.2 :=
    fun supply => ⟨accepted supply, ensures supply⟩
  refine both.succeeds.bind ?_
  rintro ⟨outcome, next⟩ ⟨isAccepted, holds⟩
  exact Fresh.succeeds_read isAccepted (Fresh.succeeds_pure holds)

theorem Represents.copied
    (represents : memory.Represents interpretation store)
    {region : RegionId}
    (known : region.Known interpretation.vocabulary)
    (supports : region.supportsCopy = true)
    {range : CopyRange}
    (rangeSorted : range.WellSorted interpretation)
    (isReference : range.destinationAddress.IsReference interpretation.vocabulary)
    {guard : Term}
    (guardStored : guard.Stored interpretation .bool)
    (avoidsNull : (MemoryOp.copyRange region range guard).AvoidsNull interpretation.model) :
    Fresh.Succeeds (memory.copied region range guard) fun after =>
      after.Represents interpretation
        (store.step interpretation.model (.copyRange region range guard)) := by
  have sameId := (represents.wellKeyed region known).1
  refine succeeds_accepted ?_
    (represents.copyRange known rangeSorted isReference guardStored avoidsNull)
  intro supply
  rw [Memory.copyRange, Region.copyRange, if_pos ⟨by rw [sameId, supports], rfl⟩]
  rfl

theorem Represents.overlaid
    (represents : memory.Represents interpretation store)
    {region members : RegionId}
    (supports : region.supportsMerge = true)
    {ends : OverlayEnds}
    {guard : Term}
    (takesValues :
      (MemoryOp.overlay region members ends guard).TakesValues interpretation.vocabulary)
    (avoidsNull : (MemoryOp.overlay region members ends guard).AvoidsNull interpretation.model) :
    Fresh.Succeeds (memory.overlaid region members ends guard) fun after =>
      after.Represents interpretation
        (store.step interpretation.model (.overlay region members ends guard)) := by
  have sameId := (represents.wellKeyed region takesValues.1).1
  refine succeeds_accepted ?_ (represents.overlay takesValues avoidsNull)
  intro supply
  rw [Memory.overlay, Region.overlay, if_pos ⟨by rw [sameId, supports], rfl⟩]
  rfl

end Memory

end SymbolicHeap
