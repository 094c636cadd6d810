import SymbolicHeap.Proofs.ArrayTheory.Agreement
import SymbolicHeap.Proofs.Heap.Terms

/-!
Contract: forms of terms that encodings keep.

A form says what terms look like before and after they are encoded, in any
context: at the top, or under the parameters of a lambda. Encodings of a region
work on the terms that the region holds, on keys made of parameters, and on what
the session remembers. If the terms of the region have the form, then so have the
arrays and the values that they are encoded to, and whatever is remembered.

Owns:
- forms, and sessions that remember arrays of a form;
- computations whose results have a property, if they succeed;
- the encodings of a region, by recursion on its shape, and the sessions that
  they can reach.
-/

namespace SymbolicHeap

/-- What terms look like by context: `raw` before they are encoded, `encoded`
after that. What is so at the top is so in every context; nothing is said where
anything goes. -/
structure Form where
  Context : Type
  top : Context
  anything : Context
  raw : Context → Term → Prop
  encoded : Context → Term → Prop
  raw_anything : ∀ term, raw anything term
  raw_storable : ∀ context, Term.Storable (raw context)
  encoded_hereditary : ∀ context, Term.Hereditary (encoded context)
  encoded_of_raw : ∀ {context term}, raw context term → encoded context term.encoded
  raw_widen : ∀ {context term}, raw top term → raw context term
  encoded_widen : ∀ {context term}, encoded top term → encoded context term
  baseArray : ∀ region : RegionId, encoded top region.baseArray
  /-- Parameters of different names open a context of their own. -/
  lambda : ∀ parameters : Scope, (parameters.map Prod.fst).Nodup →
    ∃ inside, (∀ parameter ∈ parameters, raw inside (.bound parameter.1 parameter.2)) ∧
      ∀ body, encoded inside body →
        encoded top (.lambda (parameters.map fun parameter => .bound parameter.1 parameter.2) body)

/-- Encoded terms are right, and remembered arrays have the form. -/
structure Session.InForm (form : Form) (session : Session) : Prop where
  faithful : session.Faithful
  arrays : ∀ node result, session.logs.lookup node = some result → form.encoded form.top result

namespace Encoding

/-! ## Computations that may fail -/

variable {form : Form} {α β : Type}

/-- A result has the property, and the session stays in its form. -/
def Ensures (form : Form) (action : PartialEncoding α) (property : α → Prop) : Prop :=
  ∀ session, session.InForm form → (action.run.run session).2.InForm form ∧
    ∀ value, (action.run.run session).1 = .ok value → property value

theorem ensures_pure {property : α → Prop} {value : α} (holds : property value) :
    Ensures form (pure value) property := by
  intro session inForm
  refine ⟨inForm, ?_⟩
  rintro _ ⟨⟩
  exact holds

private theorem ensures_throw (fault : Fault) {property : α → Prop} :
    Ensures form (throw fault) property :=
  fun _ inForm => ⟨inForm, nofun⟩

private theorem ensures_check {check : Except Fault α} {property : α → Prop}
    (holds : ∀ value, check = .ok value → property value) :
    Ensures form (liftM check) property := by
  cases check with
  | error fault => exact ensures_throw fault
  | ok value => exact ensures_pure (holds value rfl)

theorem Ensures.bind {first : PartialEncoding α} {next : α → PartialEncoding β}
    {between : α → Prop} {property : β → Prop}
    (firstEnsures : Ensures form first between)
    (nextEnsures : ∀ value, between value → Ensures form (next value) property) :
    Ensures form (first >>= next) property := by
  intro session inForm
  obtain ⟨middleInForm, holds⟩ := firstEnsures session inForm
  rw [ExceptT.run_bind, StateT.run_bind]
  rcases ran : first.run.run session with ⟨outcome, middle⟩
  rw [ran] at middleInForm holds
  cases outcome with
  | error fault => exact ⟨middleInForm, nofun⟩
  | ok value => exact nextEnsures value (holds value rfl) middle middleInForm

theorem ensures_get {next : Session → PartialEncoding α} {property : α → Prop}
    (nextEnsures : ∀ session, session.InForm form → Ensures form (next session) property) :
    Ensures form (get >>= next) property :=
  fun session inForm => nextEnsures session inForm session inForm

private theorem ensures_mapM {items : List α} {action : α → PartialEncoding β} {property : β → Prop}
    (each : ∀ item ∈ items, Ensures form (action item) property) :
    Ensures form (items.mapM action) fun results => ∀ result ∈ results, property result := by
  induction items with
  | nil => exact ensures_pure (by simp)
  | cons item rest inductionHypothesis =>
      rw [List.forall_mem_cons] at each
      rw [List.mapM_cons]
      refine each.1.bind fun value holds => ?_
      refine (inductionHypothesis each.2).bind fun values allHold => ?_
      exact ensures_pure (List.forall_mem_cons.2 ⟨holds, allHold⟩)

theorem ensures_foldlM {step : β → α → PartialEncoding β} {property : β → Prop} {items : List α}
    {start : β}
    (each : ∀ item ∈ items, ∀ value, property value → Ensures form (step value item) property)
    (holds : property start) : Ensures form (items.foldlM step start) property := by
  induction items generalizing start with
  | nil => exact ensures_pure holds
  | cons item rest inductionHypothesis =>
      rw [List.forall_mem_cons] at each
      rw [List.foldlM_cons]
      exact (each.1 start holds).bind fun value => inductionHypothesis each.2

/-! ## Terms and nodes -/

theorem onValues_inForm : OnValues (Session.InForm form) where
  faithful := fun _ inForm => inForm.faithful
  addValue := fun _ inForm term => ⟨inForm.faithful.addValue term, inForm.arrays⟩

theorem Returns.ensures {action : Encoding α} {value : α} {property : α → Prop}
    (returns : Returns (Session.InForm form) action value) (holds : property value) :
    Ensures form (liftM action) property := by
  intro session inForm
  obtain ⟨after, ran, afterInForm⟩ := returns session inForm
  have lifted : (liftM action : PartialEncoding α).run.run session = (.ok value, after) := by
    show (Except.ok (action.run session).1, (action.run session).2) = _
    rw [ran]
  rw [lifted]
  refine ⟨afterInForm, ?_⟩
  rintro _ ⟨⟩
  exact holds

private theorem ensures_encode {context : form.Context} {term : Term}
    (isRaw : form.raw context term) :
    Ensures form (liftM term.encode) (form.encoded context) :=
  (returns_encode onValues_inForm term).ensures (form.encoded_of_raw isRaw)

private theorem ensures_encodeAll {context : form.Context} {terms : List Term}
    (areRaw : ∀ term ∈ terms, form.raw context term) :
    Ensures form (liftM (Term.encodeAll terms)) fun results =>
      ∀ result ∈ results, form.encoded context result := by
  refine (returns_encodeAll onValues_inForm terms).ensures ?_
  induction terms with
  | nil => simp [Term.encodedAll]
  | cons head tail inductionHypothesis =>
      rw [List.forall_mem_cons] at areRaw
      rw [Term.encodedAll, List.forall_mem_cons]
      exact ⟨form.encoded_of_raw areRaw.1, inductionHypothesis areRaw.2⟩

private theorem ensures_rememberedNode {node : NodeId} {base : Term}
    {compute : PartialEncoding Term}
    (computes : Ensures form compute (form.encoded form.top)) :
    Ensures form (rememberedNode node base compute) (form.encoded form.top) := by
  have remember : ∀ result, form.encoded form.top result → Ensures form
      (modify fun session => { session with logs := ((node, base), result) :: session.logs })
      fun _ => True := by
    intro result isEncoded session inForm
    refine ⟨⟨inForm.faithful, ?_⟩, fun _ _ => trivial⟩
    intro probe other found
    change List.lookup probe (((node, base), result) :: session.logs) = some other at found
    rw [List.lookup_cons] at found
    split at found
    · exact Option.some.inj found ▸ isEncoded
    · exact inForm.arrays probe other found
  rw [rememberedNode]
  apply ensures_get
  intro session inForm
  cases found : session.logs.lookup (node, base) with
  | some result => exact ensures_pure (inForm.arrays _ result found)
  | none =>
      refine computes.bind fun result isEncoded => ?_
      exact (remember result isEncoded).bind fun _ _ => ensures_pure isEncoded

private theorem ensures_lambdaNumber : Ensures form (liftM lambdaNumber) fun _ => True :=
  fun _ inForm => ⟨⟨inForm.faithful, inForm.arrays⟩, fun _ _ => trivial⟩

end Encoding

open Encoding

variable {form : Form} {region : RegionId} {shape : KeyShape} {previous : Term}

/-! ## Arrays and writes -/

private theorem ensures_defaultValue (context : form.Context) :
    Ensures form (liftM region.defaultValue) (form.encoded context) :=
  ensures_check fun _ => RegionId.defaultValue_holds (form.encoded_hereditary context)

private theorem ensures_keyIndices {context : form.Context} {key : Key}
    (keyRaw : ∀ term ∈ key.components, form.raw context term) :
    Ensures form (keyIndices key shape) fun indices =>
      ∀ index ∈ indices, form.encoded context index := by
  cases shape with
  | input => exact ensures_encodeAll keyRaw
  | object =>
      rw [keyIndices]
      have indexRaw := (Key.forall_components.1 keyRaw).2
      cases isIndex : key.secondary with
      | none => exact ensures_throw .objectKeyMissing
      | some index =>
          refine (ensures_encode (indexRaw index isIndex)).bind fun result isEncoded => ?_
          exact ensures_pure (List.forall_mem_singleton.2 isEncoded)

private theorem ensures_emptyObjectArray :
    Ensures form (liftM (emptyObjectArray region)) (form.encoded form.top) := by
  apply ensures_check
  intro array succeeds
  unfold emptyObjectArray at succeeds
  split at succeeds
  · obtain ⟨element, isElement, isArray⟩ := Model.bind_eq_ok.1 succeeds
    rw [← Model.pure_eq_ok.1 isArray]
    exact (form.encoded_hereditary form.top).constArray.2
      (RegionId.defaultValue_holds (form.encoded_hereditary form.top) isElement)
  · cases succeeds

private theorem ensures_storedArray {values : OrderedMap (Option Constant) Term}
    (valuesRaw : ∀ stored ∈ values.entries, form.raw form.top stored.2) :
    Ensures form (storedArray region values) (form.encoded form.top) := by
  have hereditary := form.encoded_hereditary form.top
  rw [storedArray]
  refine ensures_emptyObjectArray.bind fun array arrayEncoded => ?_
  refine ensures_foldlM ?_ arrayEncoded
  intro stored member array arrayEncoded
  split
  · next slot _ =>
      refine (ensures_encode (valuesRaw stored member)).bind fun value valueEncoded => ?_
      exact ensures_pure (hereditary.store arrayEncoded
        (List.forall_mem_singleton.2 (hereditary.const slot)) valueEncoded)
  · exact ensures_pure arrayEncoded

private theorem ensures_encodeWrite {key : Key} {value guard : Term}
    (previousEncoded : form.encoded form.top previous)
    (keyRaw : ∀ term ∈ key.components, form.raw form.top term)
    (valueRaw : form.raw form.top value)
    (guardRaw : form.raw form.top guard) :
    Ensures form (encodeWrite shape previous key value guard) (form.encoded form.top) := by
  have hereditary := form.encoded_hereditary form.top
  rw [encodeWrite]
  refine (ensures_keyIndices keyRaw).bind fun indices indicesEncoded => ?_
  refine (ensures_encode valueRaw).bind fun value valueEncoded => ?_
  refine (ensures_encode guardRaw).bind fun guard guardEncoded => ?_
  split
  · exact ensures_pure (hereditary.store previousEncoded indicesEncoded valueEncoded)
  · exact ensures_pure (hereditary.store previousEncoded indicesEncoded
      (hereditary.ite guardEncoded valueEncoded
        (hereditary.select previousEncoded indicesEncoded)))

/-! ## Ranged updates -/

namespace RangedSource

/-- At every key, what the update covers and provides has the form. -/
structure InForm (form : Form) (source : RangedSource) : Prop where
  destination : form.raw form.top source.destination
  includes : ∀ context key, (∀ term ∈ key.components, form.raw context term) →
    Ensures form (source.includes key) (form.encoded context)
  value : ∀ context key, (∀ term ∈ key.components, form.raw context term) →
    Ensures form (source.value key) (form.encoded context)

variable {source : RangedSource}

private theorem InForm.ensures_encodePoint (inForm : source.InForm form)
    (previousEncoded : form.encoded form.top previous) {key : Key}
    (keyRaw : ∀ term ∈ key.components, form.raw form.top term) :
    Ensures form (source.encodePoint shape previous key) (form.encoded form.top) := by
  have hereditary := form.encoded_hereditary form.top
  rw [encodePoint]
  refine (inForm.includes form.top key keyRaw).bind fun covers coversEncoded => ?_
  split
  · exact ensures_pure previousEncoded
  · refine (inForm.value form.top key keyRaw).bind fun value valueEncoded => ?_
    refine (ensures_keyIndices keyRaw).bind fun indices indicesEncoded => ?_
    exact ensures_pure (hereditary.store previousEncoded indicesEncoded
      (hereditary.ite coversEncoded valueEncoded
        (hereditary.select previousEncoded indicesEncoded)))

/-- The parameters of a lambda. -/
def parameterTerms (parameters : Scope) : List Term :=
  parameters.map fun parameter => .bound parameter.1 parameter.2

/-- A lambda whose body asks at a key of its parameters. -/
private theorem InForm.ensures_choice (inForm : source.InForm form)
    (previousEncoded : form.encoded form.top previous) (parameters : Scope)
    (distinct : (parameters.map Prod.fst).Nodup) {key : Key}
    (keyRaw : ∀ term ∈ key.components,
      term ∈ parameterTerms parameters ∨ form.raw form.top term) :
    Ensures form (do
      let covers ← source.includes key
      let value ← source.value key
      return .lambda (parameterTerms parameters)
        (covers.ite value (previous.select (parameterTerms parameters))))
      (form.encoded form.top) := by
  obtain ⟨inside, parametersRaw, closes⟩ := form.lambda parameters distinct
  have hereditary := form.encoded_hereditary inside
  have areRaw : ∀ term ∈ parameterTerms parameters, form.raw inside term :=
    List.forall_mem_map.2 parametersRaw
  have keyInside : ∀ term ∈ key.components, form.raw inside term := by
    intro term member
    rcases keyRaw term member with isParameter | isRaw
    · exact areRaw term isParameter
    · exact form.raw_widen isRaw
  have areEncoded : ∀ term ∈ parameterTerms parameters, form.encoded inside term := by
    refine List.forall_mem_map.2 fun parameter member => ?_
    have isEncoded := form.encoded_of_raw (parametersRaw parameter member)
    rwa [Term.encoded] at isEncoded
  refine (inForm.includes inside key keyInside).bind fun covers coversEncoded => ?_
  refine (inForm.value inside key keyInside).bind fun value valueEncoded => ?_
  exact ensures_pure (closes _ (hereditary.ite coversEncoded valueEncoded
    (hereditary.select (form.encoded_widen previousEncoded) areEncoded)))

private theorem InForm.ensures_encodeLambda (inForm : source.InForm form)
    (previousEncoded : form.encoded form.top previous) (keySort : ValueSort) :
    Ensures form (source.encodeLambda shape keySort previous) (form.encoded form.top) := by
  rw [encodeLambda]
  refine ensures_lambdaNumber.bind fun number _ => ?_
  cases shape with
  | input =>
      have distinct : ["a!" ++ toString number, "k!" ++ toString number].Nodup := by
        simp [String.ext_iff]
      refine inForm.ensures_choice previousEncoded
        [("a!" ++ toString number, .reference), ("k!" ++ toString number, keySort)] distinct ?_
      simp [Key.components, parameterTerms]
  | object =>
      refine inForm.ensures_choice previousEncoded [("k!" ++ toString number, keySort)]
        (by simp) ?_
      simp [Key.components, parameterTerms, inForm.destination]

private theorem InForm.ensures_encode (inForm : source.InForm form)
    (previousEncoded : form.encoded form.top previous) :
    Ensures form (source.encode region shape previous) (form.encoded form.top) := by
  have hereditary := form.raw_storable form.top
  cases region with
  | arrayElement arrayType elementSort =>
      refine ensures_get fun session _ => ?_
      refine (ensures_check fun _ _ => trivial).bind fun indices _ => ?_
      cases indices with
      | none => exact inForm.ensures_encodeLambda previousEncoded .i32
      | some indices =>
          refine ensures_foldlM ?_ previousEncoded
          intro index _ array arrayEncoded
          apply inForm.ensures_encodePoint arrayEncoded
          rw [Key.forall_components]
          refine ⟨inForm.destination, ?_⟩
          rintro _ ⟨⟩
          exact hereditary.const _
  | mapValue _ keySort _ | mapContains _ keySort =>
      exact inForm.ensures_encodeLambda previousEncoded keySort
  | field _ _ | arrayLength _ | mapLength _ => exact ensures_throw _

end RangedSource

/-! ## Logs, objects and regions -/

/-- A read chooses between the addresses that its key may be. -/
private theorem Region.ensures_encodeRead_of_arrays {region : Region}
    (regionRaw : ∀ term ∈ region.terms, form.raw form.top term)
    (allocatedEnsure : ∀ address,
      Ensures form (region.encodeAllocated address) (form.encoded form.top))
    (inputEnsures : Ensures form region.encodeInput (form.encoded form.top))
    {context : form.Context} {key : Key}
    (keyRaw : ∀ term ∈ key.components, form.raw context term) :
    Ensures form (region.encodeRead key) (form.encoded context) := by
  have storable := form.raw_storable context
  have hereditary := form.encoded_hereditary context
  have addressEnsures : ∀ address : Address, form.raw context address.toTerm →
      Ensures form (region.encodeAddress key address) (form.encoded context) := by
    intro address addressRaw
    cases address with
    | null => exact ensures_defaultValue context
    | object number =>
        rw [encodeAddress]
        cases isIndex : key.secondary with
        | none =>
            have valueRaw : ∀ value, readObject region.id region.objects number
                (key.withAddress (.const (.heap number))) = .ok value → form.raw context value := by
              apply readObject_holds storable
              · rw [forall_objectsTerms]
                intro object member term held
                exact form.raw_widen ((forall_terms.1 regionRaw).1 object member term held)
              · exact Key.withAddress_holds addressRaw keyRaw
            exact (ensures_check valueRaw).bind fun value isRaw => ensures_encode isRaw
        | some index =>
            have indexRaw := (Key.forall_components.1 keyRaw).2 index isIndex
            refine (allocatedEnsure number).bind fun array arrayEncoded => ?_
            refine (ensures_encode indexRaw).bind fun index indexEncoded => ?_
            exact ensures_pure (hereditary.select (form.encoded_widen arrayEncoded)
              (List.forall_mem_singleton.2 indexEncoded))
    | symbolic reference =>
        refine inputEnsures.bind fun array arrayEncoded => ?_
        refine (ensures_encodeAll (Key.withAddress_holds addressRaw keyRaw)).bind
          fun indices indicesEncoded => ?_
        exact ensures_pure (hereditary.select (form.encoded_widen arrayEncoded) indicesEncoded)
  rw [encodeRead_eq]
  have leavesRaw := storable.splitReference (Key.forall_components.1 keyRaw).1
    (storable.ofBool true)
  have leafEnsures : ∀ leaf ∈ splitReference key.address (.ofBool true),
      Ensures form (region.encodeLeaf key leaf) fun choice =>
        form.encoded context choice.1 ∧ form.encoded context choice.2 := by
    intro leaf member
    obtain ⟨addressRaw, guardRaw⟩ := leavesRaw leaf member
    refine (addressEnsures leaf.address addressRaw).bind fun value valueEncoded => ?_
    refine (ensures_encode guardRaw).bind fun guard guardEncoded => ?_
    exact ensures_pure ⟨guardEncoded, valueEncoded⟩
  refine (ensures_mapM leafEnsures).bind fun values valuesEncoded => ?_
  refine (ensures_defaultValue context).bind fun fallback fallbackEncoded => ?_
  exact ensures_pure (hereditary.joinLeaves fallbackEncoded valuesEncoded)

mutual

theorem Region.ensures_encodeRead : (region : Region) →
    (∀ term ∈ region.terms, form.raw form.top term) → (context : form.Context) → (key : Key) →
      (∀ term ∈ key.components, form.raw context term) →
        Ensures form (region.encodeRead key) (form.encoded context)
  | ⟨id, objects, input, owner⟩, regionRaw, context, key, keyRaw => by
      have parts := regionRaw
      rw [Region.terms, List.forall_mem_append] at parts
      exact Region.ensures_encodeRead_of_arrays regionRaw
        (ensures_encodeObject objects parts.1)
        (ensures_encodeLog input parts.2 (form.baseArray id)) keyRaw

private theorem ensures_encodeObject {region : RegionId} : (objects : List ObjectStore) →
    (∀ term ∈ objectsTerms objects, form.raw form.top term) → (wanted : UInt32) →
      Ensures form (encodeObject region objects wanted) (form.encoded form.top)
  | [], _, _ => by
      rw [encodeObject]
      exact ensures_emptyObjectArray
  | ⟨address, values, updates⟩ :: rest, objectsRaw, wanted => by
      rw [objectsTerms, List.forall_mem_append, List.forall_mem_append, List.forall_mem_map]
        at objectsRaw
      obtain ⟨⟨valuesRaw, updatesRaw⟩, restRaw⟩ := objectsRaw
      rw [encodeObject]
      split
      · exact (ensures_storedArray valuesRaw).bind fun base baseEncoded =>
          ensures_encodeLog updates updatesRaw baseEncoded
      · exact ensures_encodeObject rest restRaw wanted

private theorem ensures_encodeLog {region : RegionId} {shape : KeyShape} {base : Term} :
    (log : List Node) → (∀ term ∈ logTerms log, form.raw form.top term) →
      form.encoded form.top base →
        Ensures form (encodeLog region shape base log) (form.encoded form.top)
  | [], _, baseEncoded => by
      rw [encodeLog]
      exact ensures_pure baseEncoded
  | ⟨_, entry, _⟩ :: older, logRaw, baseEncoded => by
      rw [logTerms, List.forall_mem_append] at logRaw
      rw [encodeLog]
      apply ensures_rememberedNode
      exact (ensures_encodeLog older logRaw.2 baseEncoded).bind fun previous previousEncoded =>
        ensures_encodeEntry entry logRaw.1 previousEncoded

private theorem ensures_encodeEntry {region : RegionId} {shape : KeyShape} {previous : Term} :
    (entry : Entry) → (∀ term ∈ entry.terms, form.raw form.top term) →
      form.encoded form.top previous →
        Ensures form (encodeEntry region shape previous entry) (form.encoded form.top)
  | .write key value guard, entryRaw, previousEncoded => by
      obtain ⟨keyRaw, valueRaw, guardRaw⟩ := Entry.forall_write.1 entryRaw
      rw [encodeEntry]
      exact ensures_encodeWrite previousEncoded keyRaw valueRaw guardRaw
  | .copy source range guard, entryRaw, previousEncoded => by
      obtain ⟨sourceRaw, rangeRaw, guardRaw⟩ := Entry.forall_copy.1 entryRaw
      have rangeInside : ∀ (context : form.Context), ∀ term ∈ range.terms,
          form.raw context term :=
        fun _ term member => form.raw_widen (rangeRaw term member)
      rw [encodeEntry]
      apply RangedSource.InForm.ensures_encode _ previousEncoded
      refine ⟨(CopyRange.forall_terms.1 rangeRaw).2.2.1, ?_, ?_⟩
      · intro context key keyRaw
        have storable := form.raw_storable context
        have guardInside : form.raw context guard := form.raw_widen guardRaw
        refine (ensures_encode guardInside).bind fun guard guardEncoded => ?_
        refine (ensures_check fun covers isCovers =>
          CopyRange.includes_holds storable.toHereditary (rangeInside context) keyRaw isCovers).bind
            fun covers coversRaw => ?_
        refine (ensures_encode coversRaw).bind fun covers coversEncoded => ?_
        exact ensures_pure ((form.encoded_hereditary context).and coversEncoded guardEncoded)
      · intro context key keyRaw
        exact Region.ensures_encodeRead source sourceRaw context (range.convert key)
          (CopyRange.convert_holds (form.raw_storable context).toHereditary (rangeInside context)
            keyRaw)
  | .overlay source members ends guard, entryRaw, previousEncoded => by
      obtain ⟨sourceRaw, membersRaw, endsRaw, guardRaw⟩ := Entry.forall_overlay.1 entryRaw
      have destinationRaw := (OverlayEnds.forall_terms.1 endsRaw).2
      have converted : ∀ (context : form.Context) (key : Key),
          (∀ term ∈ key.components, form.raw context term) →
            ∀ term ∈ (ends.convert key).components, form.raw context term := by
        intro context key
        exact OverlayEnds.convert_holds fun term member => form.raw_widen (endsRaw term member)
      rw [encodeEntry]
      apply RangedSource.InForm.ensures_encode _ previousEncoded
      refine ⟨destinationRaw, ?_, ?_⟩
      · intro context key keyRaw
        have hereditary := form.encoded_hereditary context
        have sameRaw := (form.raw_storable context).equals (form.raw_widen destinationRaw)
          (Key.forall_components.1 keyRaw).1
        have guardInside : form.raw context guard := form.raw_widen guardRaw
        refine (ensures_encode guardInside).bind fun guard guardEncoded => ?_
        dsimp only
        split
        · next isFalse =>
            rw [Term.eq_const_of_asBool? isFalse]
            exact ensures_pure (hereditary.const _)
        · refine (Region.ensures_encodeRead members membersRaw context (ends.convert key)
            (converted context key keyRaw)).bind fun member memberEncoded => ?_
          refine (ensures_encode sameRaw).bind fun same sameEncoded => ?_
          exact ensures_pure (hereditary.and (hereditary.and sameEncoded memberEncoded)
            guardEncoded)
      · intro context key keyRaw
        exact Region.ensures_encodeRead source sourceRaw context (ends.convert key)
          (converted context key keyRaw)

end

theorem Region.ensures_encodeInput {region : Region}
    (regionRaw : ∀ term ∈ region.terms, form.raw form.top term) :
    Ensures form region.encodeInput (form.encoded form.top) :=
  ensures_encodeLog region.input (forall_terms.1 regionRaw).2 (form.baseArray region.id)

theorem Region.ensures_encodeAllocated {region : Region}
    (regionRaw : ∀ term ∈ region.terms, form.raw form.top term) (address : UInt32) :
    Ensures form (region.encodeAllocated address) (form.encoded form.top) :=
  ensures_encodeObject region.objects (forall_objectsTerms.2 (forall_terms.1 regionRaw).1) address

/-! ## Reached sessions -/

private theorem Session.start_inForm (limit : Nat) : (start limit).InForm form :=
  ⟨start_faithful limit, by simp [start]⟩

/-- Whatever is encoded, at any key and also where it fails. -/
theorem Session.Reached.inForm (form : Form) {regions : List Region} {session : Session}
    (regionsRaw : ∀ region ∈ regions, ∀ term ∈ region.terms, form.raw form.top term)
    (reached : session.Reached regions) : session.InForm form := by
  induction reached with
  | start limit => exact start_inForm limit
  | encode reached term inductionHypothesis =>
      obtain ⟨after, ran, afterInForm⟩ :=
        returns_encode onValues_inForm term _ inductionHypothesis
      rw [ran]
      exact afterInForm
  | encodeRead reached member key inductionHypothesis =>
      exact (Region.ensures_encodeRead _ (regionsRaw _ member) form.anything key
        (fun term _ => form.raw_anything term) _ inductionHypothesis).1
  | encodeInput reached member inductionHypothesis =>
      exact (Region.ensures_encodeInput (regionsRaw _ member) _ inductionHypothesis).1
  | encodeAllocated reached member address inductionHypothesis =>
      exact (Region.ensures_encodeAllocated (regionsRaw _ member) address _ inductionHypothesis).1

end SymbolicHeap
