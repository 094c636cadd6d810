import SymbolicHeap.Proofs.Heap.Read
import SymbolicHeap.Region.Write

/-!
Contract: what an update changes.

An update goes to every address that its reference may be. Under one model all
but one of these writes have a guard that fails, so the contents change at the
place that the reference denotes and nowhere else.

Owns:
- the contents of a region after one more entry, and after a direct write;
- writes, copied ranges and overlays change exactly the locations that they
  cover, and keep the region well keyed.
-/

namespace SymbolicHeap

variable {interpretation : Interpretation}

/-! ## Objects of a region -/

/-- What an object holds at a slot. -/
def ObjectStore.contents (model : Model) (region : RegionId) (object : ObjectStore)
    (slot : Option Constant) : Constant :=
  logContents model object.updates (.heap object.address) slot
    (storedContents model region object.values slot)

/-- One more entry in the log of an object decides what it covers. -/
private theorem ObjectStore.contents_push (model : Model) (region : RegionId) (object : ObjectStore)
    (node : NodeId) (entry : Entry) (length : Nat) (slot : Option Constant) :
    ({ object with updates := ⟨node, entry, length⟩ :: object.updates } : ObjectStore).contents
        model region slot =
      if entry.covers model (.heap object.address) slot then entry.provides model slot
      else object.contents model region slot := by
  rw [ObjectStore.contents, logContents]
  rfl

/-- The object's stored values and its log are in order. -/
def ObjectStore.WellKeyed (interpretation : Interpretation) (region : RegionId)
    (object : ObjectStore) : Prop :=
  ValuesWellKeyed interpretation region object.values ∧
    LogWellKeyed interpretation region (some object.address) object.updates

theorem ValuesWellKeyed.empty {region : RegionId} :
    ValuesWellKeyed interpretation region .empty :=
  ⟨OrderedMap.empty_ascending, by simp [OrderedMap.empty]⟩

private theorem objectsWellKeyed_iff {region : RegionId} {objects : List ObjectStore} :
    ObjectsWellKeyed interpretation region objects ↔
      ∀ object ∈ objects, object.WellKeyed interpretation region := by
  induction objects with
  | nil => simp [ObjectsWellKeyed]
  | cons head tail inductionHypothesis =>
      obtain ⟨address, values, updates⟩ := head
      rw [ObjectsWellKeyed, inductionHypothesis, List.forall_mem_cons, ← and_assoc]
      rfl

namespace Region

theorem object_address (region : Region) (address : UInt32) :
    (region.object address).address = address := by
  rw [object, object?]
  cases found : region.objects.find? fun object => object.address = address with
  | none => rfl
  | some object => simpa using List.find?_some found

theorem find?_insertObject (object : ObjectStore) (objects : List ObjectStore)
    (address : UInt32) :
    (insertObject object objects).find? (fun other => other.address = address) =
      if object.address = address then some object
      else objects.find? fun other => other.address = address := by
  induction objects with
  | nil => by_cases same : object.address = address <;> simp [insertObject, same]
  | cons head tail inductionHypothesis =>
      rw [insertObject]
      split
      · next replaced =>
          by_cases same : object.address = address
          · simp [same]
          · have headDiffers : ¬ head.address = address := replaced ▸ same
            simp [same, headDiffers]
      · next different =>
          split
          · by_cases same : object.address = address <;> simp [same]
          · rw [List.find?_cons, inductionHypothesis, List.find?_cons]
            by_cases same : object.address = address
            · have headDiffers : ¬ head.address = address := fun headSame =>
                different (same.trans headSame.symm)
              simp [same, headDiffers]
            · simp [same]

/-- After an object was put in place, it is found, and the others are as before. -/
private theorem object_setObject (region : Region) (object : ObjectStore) (address : UInt32) :
    (region.setObject object).object address =
      if object.address = address then object else region.object address := by
  simp only [Region.object, object?, setObject, find?_insertObject]
  split <;> rfl

theorem contents_object (model : Model) (region : Region) (address : UInt32)
    (slot : Option Constant) :
    region.contents model (.object address) slot =
      (region.object address).contents model region.id slot := by
  obtain ⟨id, objects, input, owner⟩ := region
  rw [contents]
  simp only [Region.object, object?]
  induction objects with
  | nil => rfl
  | cons head tail inductionHypothesis =>
      obtain ⟨headAddress, values, updates⟩ := head
      rw [objectContents, List.find?_cons]
      by_cases same : headAddress = address
      · simp [same, ObjectStore.contents]
      · simp only [same, ↓reduceIte, decide_false]
        exact inductionHypothesis

theorem contents_input (model : Model) (region : Region) (address : Constant)
    (slot : Option Constant) :
    region.contents model (.input address) slot =
      logContents model region.input address slot
        (model.inputValue region.id address slot) := by
  obtain ⟨id, objects, input, owner⟩ := region
  rw [contents]

theorem contents_null (model : Model) (region : Region) (slot : Option Constant) :
    region.contents model .null slot = region.id.initial := by
  obtain ⟨id, objects, input, owner⟩ := region
  rw [contents]

/-- Putting an object in place shows at that object only. -/
private theorem contents_setObject (model : Model) (region : Region) (object : ObjectStore)
    (place : Place) (slot : Option Constant) :
    (region.setObject object).contents model place slot =
      if place = .object object.address then object.contents model region.id slot
      else region.contents model place slot := by
  cases place with
  | null =>
      rw [contents_null, contents_null]
      rfl
  | object address =>
      rw [contents_object, contents_object, object_setObject]
      by_cases same : object.address = address
      · simp [same, setObject]
      · simp [same, Ne.symm same, setObject]
  | input address =>
      rw [contents_input, contents_input]
      rfl

theorem wellKeyed_iff {region : Region} :
    region.WellKeyed interpretation ↔
      region.id.Known interpretation.vocabulary ∧
        (∀ object ∈ region.objects, object.WellKeyed interpretation region.id) ∧
          LogWellKeyed interpretation region.id none region.input := by
  obtain ⟨id, objects, input, owner⟩ := region
  rw [WellKeyed, objectsWellKeyed_iff]

theorem WellKeyed.object {region : Region} (wellKeyed : region.WellKeyed interpretation)
    (address : UInt32) : (region.object address).WellKeyed interpretation region.id := by
  rw [Region.object, object?]
  cases found : region.objects.find? fun object => object.address = address with
  | none =>
      refine ⟨ValuesWellKeyed.empty, ?_⟩
      simp only [Option.getD_none, ObjectStore.empty, LogWellKeyed]
  | some object => exact (wellKeyed_iff.1 wellKeyed).2.1 object (List.mem_of_find?_eq_some found)

theorem mem_insertObject {object other : ObjectStore} {objects : List ObjectStore}
    (member : other ∈ insertObject object objects) : other = object ∨ other ∈ objects := by
  induction objects with
  | nil => simpa [insertObject] using member
  | cons head tail inductionHypothesis =>
      rw [insertObject] at member
      split at member
      · rcases List.mem_cons.1 member with same | inTail
        · exact .inl same
        · exact .inr (List.mem_cons_of_mem _ inTail)
      · split at member
        · exact List.mem_cons.1 member
        · rcases List.mem_cons.1 member with same | inTail
          · exact .inr (same ▸ List.mem_cons_self)
          · rcases inductionHypothesis inTail with same | before
            · exact .inl same
            · exact .inr (List.mem_cons_of_mem _ before)

theorem WellKeyed.setObject {region : Region} (wellKeyed : region.WellKeyed interpretation)
    {object : ObjectStore} (objectWellKeyed : object.WellKeyed interpretation region.id) :
    (region.setObject object).WellKeyed interpretation := by
  obtain ⟨known, objects, input⟩ := wellKeyed_iff.1 wellKeyed
  refine wellKeyed_iff.2 ⟨known, ?_, input⟩
  intro other member
  rcases mem_insertObject member with rfl | before
  · exact objectWellKeyed
  · exact objects other before

end Region

/-! ## Results of fresh computations -/

/-- Whatever identities are handed out, the result has the property. -/
def Fresh.Ensures {α : Type} (action : Fresh α) (property : α → Prop) : Prop :=
  ∀ supply, property (action.run supply).1

namespace Fresh

variable {α β : Type}

theorem ensures_pure {property : α → Prop} {value : α} (holds : property value) :
    Ensures (pure value) property :=
  fun _ => holds

theorem Ensures.bind {first : Fresh α} {next : α → Fresh β} {between : α → Prop}
    {property : β → Prop}
    (firstEnsures : Ensures first between)
    (nextEnsures : ∀ value, between value → Ensures (next value) property) :
    Ensures (first >>= next) property := by
  intro supply
  exact nextEnsures _ (firstEnsures supply) (first.run supply).2

theorem Ensures.map {action : Fresh α} {change : α → β} {between : α → Prop}
    {property : β → Prop}
    (ensures : Ensures action between)
    (implies : ∀ value, between value → property (change value)) :
    Ensures (do return change (← action)) property :=
  ensures.bind fun value holds => ensures_pure (implies value holds)

/-- A computation that succeeds does so step by step. -/
theorem run_bind_eq_ok {first : ExceptT Fault Fresh α}
    {next : α → ExceptT Fault Fresh β} {supply after : Supply} {result : β}
    (succeeds : (first >>= next).run.run supply = (.ok result, after)) :
    ∃ value middle, first.run.run supply = (.ok value, middle) ∧
      (next value).run.run middle = (.ok result, after) := by
  rw [ExceptT.run_bind, StateT.run_bind] at succeeds
  rcases ran : first.run.run supply with ⟨outcome, middle⟩
  rw [ran] at succeeds
  cases outcome with
  | error cause => cases succeeds
  | ok value => exact ⟨value, middle, rfl, succeeds⟩

theorem run_bind_of_ok {first : ExceptT Fault Fresh α} {supply middle : Supply} {value : α}
    (ran : first.run.run supply = (.ok value, middle)) (next : α → ExceptT Fault Fresh β) :
    (first >>= next).run.run supply = (next value).run.run middle := by
  rw [ExceptT.run_bind, StateT.run_bind, ran]
  rfl

theorem run_bind_of_error {first : ExceptT Fault Fresh α} {supply after : Supply} {cause : Fault}
    (ran : first.run.run supply = (.error cause, after)) (next : α → ExceptT Fault Fresh β) :
    (first >>= next).run.run supply = (.error cause, after) := by
  rw [ExceptT.run_bind, StateT.run_bind, ran]
  rfl

theorem run_lift (check : Except Fault α) (supply : Supply) :
    (liftM check : ExceptT Fault Fresh α).run.run supply = (check, supply) := by
  cases check <;> rfl

theorem run_lift_eq_ok {check : Except Fault α} {supply after : Supply} {result : α}
    (succeeds : (liftM check : ExceptT Fault Fresh α).run.run supply = (.ok result, after)) :
    check = .ok result ∧ after = supply := by
  rw [run_lift] at succeeds
  cases succeeds
  exact ⟨rfl, rfl⟩

theorem run_fresh (action : Fresh α) (supply : Supply) :
    (liftM action : ExceptT Fault Fresh α).run.run supply =
      (.ok (action.run supply).1, (action.run supply).2) :=
  rfl

theorem run_fresh_eq_ok {action : Fresh α} {supply after : Supply} {result : α}
    (succeeds : (liftM action : ExceptT Fault Fresh α).run.run supply = (.ok result, after)) :
    action.run supply = (result, after) := by
  rw [run_fresh, Prod.mk.injEq, Except.ok.injEq] at succeeds
  exact Prod.ext succeeds.1 succeeds.2

end Fresh

/-! ## Changes -/

/-- Where a location is hit it holds what is provided for its slot; all other
locations are as before. -/
structure Region.Changes
    (interpretation : Interpretation)
    (hit : Place → Option Constant → Bool)
    (provided : Option Constant → Constant)
    (before after : Region) :
    Prop where
  id : after.id = before.id
  wellKeyed : after.WellKeyed interpretation
  contents : ∀ place slot, before.id.FitsSlot slot →
    after.contents interpretation.model place slot =
      if hit place slot then provided slot else before.contents interpretation.model place slot

theorem Region.Changes.trans
    {firstHit secondHit : Place → Option Constant → Bool}
    {provided : Option Constant → Constant}
    {before between after : Region}
    (first : Region.Changes interpretation firstHit provided before between)
    (second : Region.Changes interpretation secondHit provided between after) :
    Region.Changes interpretation (fun place slot => firstHit place slot || secondHit place slot)
      provided before after where
  id := second.id.trans first.id
  wellKeyed := second.wellKeyed
  contents := by
    intro place slot fits
    rw [second.contents place slot (first.id ▸ fits), first.contents place slot fits]
    cases firstHit place slot <;> cases secondHit place slot <;> rfl

/-- The write to one address hits a location. -/
def leafHits (model : Model) (covered : Option Constant → Bool) (leaf : Leaf) (place : Place)
    (slot : Option Constant) : Bool :=
  leaf.address.place model = place && place ≠ .null && covered slot && model.holds leaf.guard

/-- The update through a reference hits a location. Nothing is written through
null. -/
def updateHits (model : Model) (reference guard : Term) (covered : Option Constant → Bool)
    (place : Place) (slot : Option Constant) : Bool :=
  reference.place model = place && place ≠ .null && covered slot && model.holds guard

private theorem any_leafHits {reference guard : Term}
    (isReference : reference.IsReference interpretation.vocabulary)
    (guardStored : guard.Stored interpretation .bool)
    (covered : Option Constant → Bool) (place : Place) (slot : Option Constant) :
    (splitReference reference guard).any (fun leaf =>
        leafHits interpretation.model covered leaf place slot) =
      updateHits interpretation.model reference guard covered place slot := by
  have onAddresses : (splitReference reference guard).any (fun leaf =>
      leafHits interpretation.model covered leaf place slot) =
        (((splitReference reference guard).filter fun leaf =>
          interpretation.model.holds leaf.guard).map Leaf.address).any fun address =>
            address.place interpretation.model = place && place ≠ .null && covered slot := by
    rw [List.any_map, List.any_filter]
    refine congrArg _ (funext fun leaf => ?_)
    rw [leafHits, Bool.and_comm]
    rfl
  rw [onAddresses, splitReference_picks isReference guardStored.truth, updateHits, Term.place]
  cases interpretation.model.holds guard <;> simp

/-! ## Slots -/

/-- Slots of one region match exactly when they are equal. -/
theorem RegionId.FitsSlot.slotsMatch_eq {region : RegionId} {left right : Option Constant}
    (leftFits : region.FitsSlot left) (rightFits : region.FitsSlot right) :
    slotsMatch left right = decide (right = left) := by
  unfold RegionId.FitsSlot at leftFits rightFits
  cases left <;> cases right <;> simp_all [slotsMatch, eq_comm]
  all_goals cases sort : region.secondarySort <;> simp_all

theorem RegionId.FitsSecondary.fitsSlot {region : RegionId} {secondary : Option Term}
    (fits : region.FitsSecondary interpretation secondary) :
    region.FitsSlot (secondary.map interpretation.model.valueOf) := by
  rcases fitsSecondary_cases fits with ⟨noSort, rfl⟩ | ⟨sort, index, hasSort, rfl, indexStored⟩
  · unfold RegionId.FitsSlot
    rw [noSort]
    trivial
  · unfold RegionId.FitsSlot
    rw [hasSort]
    exact indexStored.hasSort

/-- The slot of a direct write is the value of the secondary key. -/
private theorem Region.directSlot?_eq {region : RegionId} {secondary : Option Term}
    {slot : Option Constant}
    (fits : region.FitsSecondary interpretation secondary)
    (direct : Region.directSlot? secondary = some slot) :
    secondary.map interpretation.model.valueOf = slot := by
  unfold Region.directSlot? at direct
  split at direct
  · simpa using direct
  · next known =>
      rw [Option.some.injEq] at direct
      subst direct
      rcases RegionId.fitsSecondary_cases fits with ⟨_, isNone⟩ | ⟨_, _, _, isSome, indexStored⟩
      · simp at isNone
      · cases isSome
        obtain ⟨same, _⟩ := Model.eval_const_eq_ok.1 indexStored.eval
        rw [Option.map_some, ← same]
  · simp at direct

theorem ValuesWellKeyed.insert {region : RegionId} {values : OrderedMap (Option Constant) Term}
    (wellKeyed : ValuesWellKeyed interpretation region values) {slot : Option Constant}
    (slotFits : region.FitsSlot slot) {value : Term}
    (valueStored : value.Stored interpretation region.valueSort) :
    ValuesWellKeyed interpretation region (values.insert slot value) := by
  refine ⟨wellKeyed.ascending.insert, ?_⟩
  intro stored member
  rcases OrderedMap.mem_insert member with rfl | before
  · exact ⟨slotFits, valueStored⟩
  · exact wellKeyed.fits stored before

private theorem storedContents_insert (model : Model) (region : RegionId)
    (values : OrderedMap (Option Constant) Term) (slot probe : Option Constant) (value : Term) :
    storedContents model region (values.insert slot value) probe =
      if probe = slot then model.valueOf value else storedContents model region values probe := by
  simp only [storedContents, OrderedMap.find?_insert]
  by_cases same : probe = slot <;> simp [same]

namespace Region

/-- Updates of all leaves, one after the other. -/
private theorem foldLeaves_changes {covered : Option Constant → Bool}
    {provided : Option Constant → Constant}
    {step : Region → Leaf → Fresh Region}
    {leaves : List Leaf}
    {region : Region}
    (wellKeyed : region.WellKeyed interpretation)
    (stepChanges : ∀ current : Region, current.WellKeyed interpretation →
      current.id = region.id → ∀ leaf ∈ leaves, (step current leaf).Ensures
        (Changes interpretation (leafHits interpretation.model covered leaf) provided current)) :
    (leaves.foldlM step region).Ensures
      (Changes interpretation (fun place slot =>
        leaves.any fun leaf => leafHits interpretation.model covered leaf place slot)
        provided region) := by
  induction leaves generalizing region with
  | nil =>
      refine Fresh.ensures_pure ⟨rfl, wellKeyed, ?_⟩
      intro place slot _
      rfl
  | cons leaf leaves inductionHypothesis =>
      rw [List.foldlM_cons]
      refine (stepChanges region wellKeyed rfl leaf List.mem_cons_self).bind ?_
      intro between first supply
      have rest := inductionHypothesis first.wellKeyed (fun current currentWellKeyed sameId other
        member => stepChanges current currentWellKeyed (sameId.trans first.id) other
          (List.mem_cons_of_mem _ member)) supply
      exact first.trans rest

private theorem leafHits_elsewhere {model : Model} {covered : Option Constant → Bool}
    {number : UInt32}
    {guard : Term} {place : Place} {slot : Option Constant}
    (elsewhere : ¬ place = .object number) :
    leafHits model covered ⟨.object number, guard⟩ place slot = false := by
  simp [leafHits, Address.place, Ne.symm elsewhere]

/-- One more entry in the log of an object. -/
private theorem pushObject_changes {region : Region} (wellKeyed : region.WellKeyed interpretation)
    {number : UInt32} {guard : Term} {entry : Entry}
    (entryWellKeyed : entry.WellKeyed interpretation region.id (some number))
    {covered : Option Constant → Bool}
    (covers : ∀ address slot, entry.covers interpretation.model address slot =
      (Constant.heap number = address && covered slot && interpretation.model.holds guard))
    (node : NodeId) (length : Nat) :
    Changes interpretation (leafHits interpretation.model covered ⟨.object number, guard⟩)
      (entry.provides interpretation.model) region
      (region.setObject { region.object number with
        updates := ⟨node, entry, length⟩ :: (region.object number).updates }) := by
  have ownAddress := region.object_address number
  have objectWellKeyed := wellKeyed.object number
  refine ⟨rfl, ?_, ?_⟩
  · refine wellKeyed.setObject ⟨objectWellKeyed.1, ?_⟩
    rw [LogWellKeyed]
    refine ⟨?_, objectWellKeyed.2⟩
    rw [ownAddress]
    exact entryWellKeyed
  · intro place slot _
    rw [contents_setObject, ownAddress]
    split
    · next here =>
        subst here
        rw [contents_object, ObjectStore.contents_push, ownAddress, covers]
        simp [leafHits, Address.place]
    · next elsewhere =>
        rw [leafHits_elsewhere elsewhere]
        rfl

/-- One more entry in the log of the input objects. -/
private theorem pushInput_changes {region : Region} (wellKeyed : region.WellKeyed interpretation)
    {reference guard : Term} {entry : Entry}
    (entryWellKeyed : entry.WellKeyed interpretation region.id none)
    {covered : Option Constant → Bool}
    (covers : ∀ address slot, entry.covers interpretation.model address slot =
      (interpretation.model.valueOf reference = address && covered slot &&
        interpretation.model.holds guard))
    (node : NodeId) (length : Nat) :
    Changes interpretation (leafHits interpretation.model covered ⟨.symbolic reference, guard⟩)
      (entry.provides interpretation.model) region
      { region with input := ⟨node, entry, length⟩ :: region.input } := by
  obtain ⟨known, objectsWellKeyed, inputWellKeyed⟩ := wellKeyed_iff.1 wellKeyed
  refine ⟨rfl, wellKeyed_iff.2 ⟨known, objectsWellKeyed, ?_⟩, ?_⟩
  · rw [LogWellKeyed]
    exact ⟨entryWellKeyed, inputWellKeyed⟩
  · intro place slot _
    cases place with
    | null =>
        rw [contents_null, contents_null]
        simp [leafHits]
    | object other =>
        rw [contents_object, contents_object]
        simp [leafHits, Address.place]
        rfl
    | input other =>
        have hits : leafHits interpretation.model covered ⟨.symbolic reference, guard⟩
            (.input other) slot = entry.covers interpretation.model other slot := by
          rw [covers]
          by_cases same : interpretation.model.valueOf reference = other <;>
            simp [leafHits, Address.place, same]
        rw [contents_input, contents_input, logContents, hits]

/-- One more entry in the log of its address changes what the entry covers. -/
private theorem pushEntry_changes {region : Region} (wellKeyed : region.WellKeyed interpretation)
    {leaf : Leaf}
    (valid : leaf.address.Valid interpretation.vocabulary)
    (entry : Entry)
    (entryWellKeyed : ∀ target : LogTarget,
      target.Admits interpretation.vocabulary leaf.address.toTerm →
        entry.WellKeyed interpretation region.id target)
    {covered : Option Constant → Bool}
    (covers : ∀ address slot, entry.covers interpretation.model address slot =
      (interpretation.model.valueOf leaf.address.toTerm = address && covered slot &&
        interpretation.model.holds leaf.guard)) :
    (region.pushEntry leaf.address entry).Ensures
      (Changes interpretation (leafHits interpretation.model covered leaf)
        (entry.provides interpretation.model) region) := by
  obtain ⟨address, guard⟩ := leaf
  intro supply
  cases address with
  | null =>
      refine ⟨rfl, wellKeyed, ?_⟩
      intro place slot _
      have unhit : leafHits interpretation.model covered ⟨.null, guard⟩ place slot = false := by
        cases place <;> simp [leafHits, Address.place]
      rw [unhit]
      rfl
  | object number =>
      exact pushObject_changes wellKeyed (entryWellKeyed (some number) rfl) covers ⟨supply.nodes⟩ _
  | symbolic reference =>
      exact pushInput_changes wellKeyed (entryWellKeyed none valid) covers ⟨supply.nodes⟩ _

/-! ## Writes -/

/-- A value stored directly, below no entries. -/
private theorem storeValue_changes {region : Region} (wellKeyed : region.WellKeyed interpretation)
    {number : UInt32} {slot : Option Constant} {value guard : Term}
    (slotFits : region.id.FitsSlot slot)
    (valueStored : value.Stored interpretation region.id.valueSort)
    (noUpdates : (region.object number).updates = [])
    (holds : interpretation.model.holds guard = true) :
    Changes interpretation
      (leafHits interpretation.model (slotsMatch slot) ⟨.object number, guard⟩)
      (fun _ => interpretation.model.valueOf value) region
      (region.setObject { region.object number with
        values := (region.object number).values.insert slot value }) := by
  have ownAddress := region.object_address number
  have objectWellKeyed := wellKeyed.object number
  refine ⟨rfl, ?_, ?_⟩
  · exact wellKeyed.setObject ⟨objectWellKeyed.1.insert slotFits valueStored, objectWellKeyed.2⟩
  · intro place probe probeFits
    have matched := slotFits.slotsMatch_eq probeFits
    rw [contents_setObject, ownAddress]
    split
    · next here =>
        subst here
        rw [contents_object, ObjectStore.contents, ObjectStore.contents, noUpdates,
          logContents, logContents, storedContents_insert]
        simp only [leafHits, matched, holds]
        simp [Address.place]
    · next elsewhere =>
        rw [leafHits_elsewhere elsewhere]
        rfl

private theorem writeLeaf_changes {region : Region} (wellKeyed : region.WellKeyed interpretation)
    {key : Key}
    (secondaryFits : region.id.FitsSecondary interpretation key.secondary)
    {value : Term}
    (valueStored : value.Stored interpretation region.id.valueSort)
    {leaf : Leaf}
    (valid : leaf.address.Valid interpretation.vocabulary)
    (guardStored : leaf.guard.Stored interpretation .bool) :
    (region.writeLeaf key value leaf).Ensures
      (Changes interpretation (leafHits interpretation.model
          (slotsMatch (key.slot interpretation.model)) leaf)
        (fun _ => interpretation.model.valueOf value) region) := by
  have pushed : (region.pushEntry leaf.address
      (.write (key.withAddress leaf.address.toTerm) value leaf.guard)).Ensures
        (Changes interpretation (leafHits interpretation.model
          (slotsMatch (key.slot interpretation.model)) leaf)
            (fun _ => interpretation.model.valueOf value) region) := by
    apply pushEntry_changes wellKeyed valid
      (.write (key.withAddress leaf.address.toTerm) value leaf.guard)
    · intro target admits
      rw [Entry.WellKeyed]
      exact ⟨admits, secondaryFits, valueStored, guardStored⟩
    · intro address slot
      rw [Entry.covers]
      rfl
  obtain ⟨address, guard⟩ := leaf
  simp only [writeLeaf]
  split
  · next number slot direct =>
      split
      · next certain =>
          have isSlot : key.slot interpretation.model = slot :=
            directSlot?_eq secondaryFits direct
          have slotFits : region.id.FitsSlot slot := isSlot ▸ secondaryFits.fitsSlot
          have noUpdates : (region.object number).updates = [] := by
            simpa using certain.1
          have holds : interpretation.model.holds guard = true := by
            have isTrue := guardStored.eq_of_asBool? certain.2
            rw [Model.holds, isTrue]
            rfl
          rw [isSlot]
          exact Fresh.ensures_pure
            (storeValue_changes wellKeyed slotFits valueStored noUpdates holds)
      · exact pushed
  · exact pushed

/-- Updates of all leaves of a reference are one update of the place that the
reference denotes. -/
private theorem foldSplit_changes {covered : Option Constant → Bool}
    {provided : Option Constant → Constant}
    {step : Region → Leaf → Fresh Region}
    {region : Region}
    (wellKeyed : region.WellKeyed interpretation)
    {reference guard : Term}
    (isReference : reference.IsReference interpretation.vocabulary)
    (guardStored : guard.Stored interpretation .bool)
    (stepChanges : ∀ current : Region, current.WellKeyed interpretation →
      current.id = region.id → ∀ leaf : Leaf,
        leaf.address.Valid interpretation.vocabulary →
          leaf.guard.Stored interpretation .bool → (step current leaf).Ensures
            (Changes interpretation (leafHits interpretation.model covered leaf) provided
              current)) :
    ((splitReference reference guard).foldlM step region).Ensures
      (Changes interpretation (updateHits interpretation.model reference guard covered)
        provided region) := by
  have folded : ((splitReference reference guard).foldlM step region).Ensures
      (Changes interpretation (fun place slot => (splitReference reference guard).any fun leaf =>
        leafHits interpretation.model covered leaf place slot) provided region) := by
    apply foldLeaves_changes wellKeyed
    intro current currentWellKeyed sameId leaf member
    obtain ⟨valid, guardDenotes⟩ := splitReference_valid isReference guardStored leaf member
    exact stepChanges current currentWellKeyed sameId leaf valid guardDenotes.stored
  have sameHits : (fun place slot => (splitReference reference guard).any fun leaf =>
      leafHits interpretation.model covered leaf place slot) =
        updateHits interpretation.model reference guard covered :=
    funext fun place => funext fun slot => any_leafHits isReference guardStored covered place slot
  rw [sameHits] at folded
  exact folded

theorem write_changes {region : Region} (wellKeyed : region.WellKeyed interpretation)
    {key : Key}
    (fits : region.id.FitsKey interpretation key)
    {value guard : Term}
    (valueStored : value.Stored interpretation region.id.valueSort)
    (guardStored : guard.Stored interpretation .bool) :
    (region.write key value guard).Ensures
      (Changes interpretation (updateHits interpretation.model key.address guard
          (slotsMatch (key.slot interpretation.model)))
        (fun _ => interpretation.model.valueOf value) region) := by
  refine foldSplit_changes wellKeyed fits.1 guardStored ?_
  intro current currentWellKeyed sameId leaf valid leafGuardStored
  rw [← sameId] at valueStored
  exact writeLeaf_changes currentWellKeyed (sameId ▸ fits.2) valueStored valid leafGuardStored

/-! ## Ranged updates -/

private theorem pushRanged_changes {region : Region} (wellKeyed : region.WellKeyed interpretation)
    {destination guard : Term}
    (isReference : destination.IsReference interpretation.vocabulary)
    (guardStored : guard.Stored interpretation .bool)
    {entry : Term → Term → Entry}
    {covered : Option Constant → Bool}
    {provided : Option Constant → Constant}
    (entryWellKeyed : ∀ (target : LogTarget) address leafGuard,
      target.Admits interpretation.vocabulary address → leafGuard.Stored interpretation .bool →
        (entry address leafGuard).WellKeyed interpretation region.id target)
    (covers : ∀ address leafGuard value slot,
      (entry address leafGuard).covers interpretation.model value slot =
        (interpretation.model.valueOf address = value && covered slot &&
          interpretation.model.holds leafGuard))
    (provides : ∀ address leafGuard,
      (entry address leafGuard).provides interpretation.model = provided) :
    (region.pushRanged destination guard entry).Ensures
      (Changes interpretation (updateHits interpretation.model destination guard covered)
        provided region) := by
  refine foldSplit_changes wellKeyed isReference guardStored ?_
  intro current currentWellKeyed sameId leaf valid leafGuardStored
  rw [← provides leaf.address.toTerm leaf.guard]
  apply pushEntry_changes currentWellKeyed valid
  · intro target admits
    rw [sameId]
    exact entryWellKeyed target _ _ admits leafGuardStored
  · exact covers _ _

theorem copyRange_changes {region source : Region} (wellKeyed : region.WellKeyed interpretation)
    (sourceWellKeyed : source.WellKeyed interpretation)
    (supports : region.id.supportsCopy = true)
    (sameId : source.id = region.id)
    {range : CopyRange}
    (rangeSorted : range.WellSorted interpretation)
    (isReference : range.destinationAddress.IsReference interpretation.vocabulary)
    {guard : Term}
    (guardStored : guard.Stored interpretation .bool) :
    (region.copyRange source range guard).run.Ensures fun outcome =>
      ∃ after, outcome = .ok after ∧
        Changes interpretation (updateHits interpretation.model range.destinationAddress guard
            (range.covers interpretation.model))
          (fun slot => source.contents interpretation.model
            (range.sourceAddress.place interpretation.model)
            (range.sourceSlot interpretation.model slot)) region after := by
  rw [copyRange, if_pos ⟨supports, sameId⟩]
  have pushed : (region.pushRanged range.destinationAddress guard fun destination leafGuard =>
      .copy source { range with destinationAddress := destination } leafGuard).Ensures
        (Changes interpretation (updateHits interpretation.model range.destinationAddress guard
            (range.covers interpretation.model))
          (fun slot => source.contents interpretation.model
            (range.sourceAddress.place interpretation.model)
            (range.sourceSlot interpretation.model slot)) region) := by
    apply pushRanged_changes wellKeyed isReference guardStored
    · intro target address leafGuard admits leafGuardStored
      rw [Entry.WellKeyed]
      exact ⟨admits, supports, sameId, sourceWellKeyed,
        ⟨rangeSorted.source, rangeSorted.sourceFrom, rangeSorted.destinationFrom,
          rangeSorted.destinationTo⟩, leafGuardStored⟩
    · intro address leafGuard value slot
      rw [Entry.covers]
      rfl
    · intro address leafGuard
      funext slot
      rw [Entry.provides]
      rfl
  intro supply
  exact ⟨_, rfl, pushed supply⟩

theorem overlay_changes {region source members : Region}
    (wellKeyed : region.WellKeyed interpretation)
    (sourceWellKeyed : source.WellKeyed interpretation)
    (membersWellKeyed : members.WellKeyed interpretation)
    (supports : region.id.supportsMerge = true)
    (sameId : source.id = region.id)
    (isBool : members.id.valueSort = .bool)
    (sameSort : members.id.secondarySort = region.id.secondarySort)
    {ends : OverlayEnds}
    (sourceReference : ends.sourceAddress.IsReference interpretation.vocabulary)
    (isReference : ends.destinationAddress.IsReference interpretation.vocabulary)
    {guard : Term}
    (guardStored : guard.Stored interpretation .bool) :
    (region.overlay source members ends guard).run.Ensures fun outcome =>
      ∃ after, outcome = .ok after ∧
        Changes interpretation (updateHits interpretation.model ends.destinationAddress guard
            (fun slot => members.contents interpretation.model
              (ends.sourceAddress.place interpretation.model) slot = .bool true))
          (fun slot => source.contents interpretation.model
            (ends.sourceAddress.place interpretation.model) slot) region after := by
  rw [overlay, if_pos ⟨supports, sameId⟩]
  have pushed : (region.pushRanged ends.destinationAddress guard fun destination leafGuard =>
      .overlay source members { ends with destinationAddress := destination } leafGuard).Ensures
        (Changes interpretation (updateHits interpretation.model ends.destinationAddress guard
            (fun slot => members.contents interpretation.model
              (ends.sourceAddress.place interpretation.model) slot = .bool true))
          (fun slot => source.contents interpretation.model
            (ends.sourceAddress.place interpretation.model) slot) region) := by
    apply pushRanged_changes wellKeyed isReference guardStored
    · intro target address leafGuard admits leafGuardStored
      rw [Entry.WellKeyed]
      exact ⟨admits, supports, sameId, sourceWellKeyed, isBool, sameSort, membersWellKeyed,
        sourceReference, leafGuardStored⟩
    · intro address leafGuard value slot
      rw [Entry.covers]
    · intro address leafGuard
      funext slot
      rw [Entry.provides]
  intro supply
  exact ⟨_, rfl, pushed supply⟩

end Region

end SymbolicHeap
