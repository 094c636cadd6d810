import SymbolicHeap.Decode
import SymbolicHeap.Proofs.ArrayTheory.Agreement
import SymbolicHeap.Proofs.Heap.Forks
import SymbolicHeap.Proofs.Heap.Simulation

/-!
Contract: locations that are decoded one by one hold what folded reads say.

A decoder evaluates a key first and encodes a read at constants; a folded read
keeps the key as it is. Both give the contents of the location that the key
denotes. Whatever a decoder was asked before, its session is sound and every
answer that it keeps for a location of the memory is the contents there, so an
answer from the cache is as good as a new one.

Owns:
- the invariant of a decoder, and what its questions answer;
- the decoders that questions can reach;
- the agreement of decoded and folded reads.
-/

namespace SymbolicHeap

open Encoding

/-! ## Locations given by constants -/

/-- The address of an object that is not null, and a slot exactly if the region
has slots. -/
structure RegionId.Locates (id : RegionId) (address : Constant) (slot : Option Constant) :
    Prop where
  isReference : address.HasSort .reference
  notNull : address ≠ .null
  fits : id.FitsSlot slot

theorem Key.WellSorted.locates {interpretation : Interpretation} {id : RegionId} {key : Key}
    (keySorted : key.WellSorted interpretation.vocabulary id)
    (notNull : interpretation.model.valueOf key.address ≠ .null) :
    id.Locates (interpretation.model.valueOf key.address) (key.slot interpretation.model) :=
  ⟨keySorted.1.denotes.hasSort, notNull, keySorted.fits.2.fitsSlot⟩

private theorem Key.WellSorted.stored_secondary {interpretation : Interpretation} {id : RegionId}
    {key : Key} {index : Term}
    (keySorted : key.WellSorted interpretation.vocabulary id)
    (isIndex : key.secondary = some index) : ∃ sort, index.Stored interpretation sort := by
  rcases RegionId.fitsSecondary_cases keySorted.fits.2 with
    ⟨_, isNone⟩ | ⟨sort, other, _, isSome, stored⟩
  · simp [isIndex] at isNone
  · cases isIndex.symm.trans isSome
    exact ⟨sort, stored⟩

private theorem RegionId.fitsSlot_cases {id : RegionId} {slot : Option Constant}
    (fits : id.FitsSlot slot) :
    (id.secondarySort = none ∧ slot = none) ∨
      ∃ sort value, id.secondarySort = some sort ∧ slot = some value ∧ value.HasSort sort := by
  unfold FitsSlot at fits
  split at fits
  · next noSort => exact .inl ⟨noSort, rfl⟩
  · next sort value hasSort => exact .inr ⟨sort, value, hasSort, rfl, fits⟩
  · exact fits.elim

namespace RegionId.Locates

variable {id : RegionId} {address : Constant} {slot : Option Constant}
  (locates : id.Locates address slot)

include locates

/-- The constants of a location are a key of the region. -/
theorem wellSorted (vocabulary : Vocabulary) :
    Key.WellSorted vocabulary id ⟨.const address, slot.map .const⟩ := by
  refine ⟨Term.isValue_const locates.isReference, ?_⟩
  rcases fitsSlot_cases locates.fits with ⟨noSort, rfl⟩ | ⟨sort, value, hasSort, rfl, fits⟩
  · rw [noSort]
    trivial
  · rw [hasSort]
    exact Term.isValue_const fits

private theorem address_eq (interpretation : Interpretation) :
    interpretation.model.valueOf (.const address) = address :=
  (Term.Denotes.const locates.isReference : Term.Denotes interpretation .closed _ _ _).valueOf

private theorem valueOf_ne_null (interpretation : Interpretation) :
    interpretation.model.valueOf (.const address) ≠ .null := by
  rw [locates.address_eq]
  exact locates.notNull

private theorem slot_eq (interpretation : Interpretation) :
    Key.slot interpretation.model ⟨.const address, slot.map .const⟩ = slot := by
  rcases fitsSlot_cases locates.fits with ⟨_, rfl⟩ | ⟨sort, value, _, rfl, fits⟩
  · rfl
  · exact congrArg some
      (Term.Denotes.const fits : Term.Denotes interpretation .closed _ _ _).valueOf

end RegionId.Locates

namespace Memory.InOrder

variable {interpretation : Interpretation} {history : History} {memory : Memory}
  (inOrder : memory.InOrder interpretation history)

include inOrder

/-- Whatever is asked of a memory of a run, the session stays sound. -/
theorem keeps_encodeRead (id : RegionId) (key : Key) :
    Keeps interpretation history ((memory.regionFor id).encodeRead key) := by
  -- A region that was written has a known identity; any other one is empty.
  cases found : memory.regions.find? id with
  | some region =>
      have known := inOrder.known id region found
      exact Region.keeps_encodeRead (inOrder.wellKeyed id known).2 (inOrder.recorded id) key
  | none =>
      rw [regionFor, found]
      exact Region.keeps_encodeRead_empty id memory.owner key

section Located

variable {id : RegionId} (known : id.Known interpretation.vocabulary) {key : Key}
  (keySorted : key.WellSorted interpretation.vocabulary id)
  (notNull : interpretation.model.valueOf key.address ≠ .null)

include known keySorted notNull

/-- A read is encoded to a term with the contents of the location. -/
private theorem yields_encodeRead :
    Yields interpretation history ((memory.regionFor id).encodeRead key) fun result =>
      interpretation.model.evaluate result = .ok (some
        ((memory.regionFor id).contents interpretation.model
          (.of (interpretation.model.valueOf key.address)) (key.slot interpretation.model))) := by
  obtain ⟨sameId, wellKeyed⟩ := inOrder.wellKeyed id known
  have yields := Region.encodes _ wellKeyed (inOrder.recorded id) .closed key _ keySorted.1
    (sameId.symm ▸ keySorted.fits.2).denotes
  rw [keySorted.1.place_eq notNull] at yields
  exact yields.imp fun result denotes => Model.evaluate_of_eval denotes.eval

/-- A folded read has the contents of the location as its value. -/
theorem read_denotes :
    ∃ folded, memory.read id key = .ok folded ∧
      folded.Denotes interpretation .closed id.valueSort
        ((memory.regionFor id).contents interpretation.model
          (.of (interpretation.model.valueOf key.address)) (key.slot interpretation.model)) := by
  obtain ⟨sameId, wellKeyed⟩ := inOrder.wellKeyed id known
  obtain ⟨folded, isFolded, denotes⟩ :=
    Region.read_denotes _ wellKeyed key (sameId.symm ▸ keySorted.fits)
  rw [sameId, keySorted.1.place_eq notNull] at denotes
  exact ⟨folded, isFolded, denotes⟩

end Located

end Memory.InOrder

namespace Decoder

/-! ## The invariant -/

/-- Asked for a location of a known region, the outcome is what the memory holds
there. -/
def Answers (interpretation : Interpretation) (memory : Memory) (id : RegionId)
    (address : Constant) (slot : Option Constant) (outcome : Except Fault (Option Constant)) :
    Prop :=
  id.Known interpretation.vocabulary → id.Locates address slot →
    outcome = .ok (some
      ((memory.regionFor id).contents interpretation.model (Place.of address) slot))

/-- The decoder is that of the region, and the answers that it keeps are
right. -/
structure KnowsRegion (interpretation : Interpretation) (memory : Memory) (id : RegionId)
    (decoder : RegionDecoder) : Prop where
  region : decoder.region = memory.regionFor id
  answers : ∀ address slot answer, decoder.known.lookup (address, slot) = some answer →
    Answers interpretation memory id address slot (.ok answer)

/-- The decoder is that of the memory, its session is sound and its regions are
decoded right. -/
structure Sound (interpretation : Interpretation) (history : History) (memory : Memory)
    (decoder : Decoder) : Prop where
  ofModel : decoder.model = interpretation.model
  ofMemory : decoder.memory = memory
  session : decoder.session.Sound interpretation history
  regions : ∀ id known, decoder.regions.find? id = some known →
    KnowsRegion interpretation memory id known

variable {interpretation : Interpretation} {history : History} {memory : Memory}

theorem start_sound :
    (start interpretation.model memory).Sound interpretation history memory where
  ofModel := rfl
  ofMemory := rfl
  session := Session.start_sound _
  regions := by
    intro id known found
    simp [start] at found

private theorem Sound.withSession {decoder : Decoder}
    (sound : decoder.Sound interpretation history memory)
    {session : Session} (sessionSound : session.Sound interpretation history) :
    ({ decoder with session } : Decoder).Sound interpretation history memory :=
  ⟨sound.ofModel, sound.ofMemory, sessionSound, sound.regions⟩

theorem Sound.insert {decoder : Decoder} (sound : decoder.Sound interpretation history memory)
    {id : RegionId} {known : RegionDecoder} (knows : KnowsRegion interpretation memory id known) :
    ({ decoder with regions := decoder.regions.insert id known } : Decoder).Sound interpretation
      history memory := by
  refine ⟨sound.ofModel, sound.ofMemory, sound.session, ?_⟩
  intro probe found isFound
  rw [OrderedMap.find?_insert] at isFound
  split at isFound
  · next same =>
      cases isFound
      rw [same]
      exact knows
  · exact sound.regions probe found isFound

theorem KnowsRegion.add {id : RegionId} {known : RegionDecoder}
    (knows : KnowsRegion interpretation memory id known)
    {address : Constant} {slot : Option Constant} {answer : Option Constant}
    (isAnswer : Answers interpretation memory id address slot (.ok answer)) :
    KnowsRegion interpretation memory id
      { known with known := ((address, slot), answer) :: known.known } := by
  refine ⟨knows.region, ?_⟩
  intro otherAddress otherSlot other found
  rw [List.lookup_cons] at found
  by_cases same : (otherAddress, otherSlot) = (address, slot)
  · simp only [same, beq_self_eq_true, Option.some.injEq] at found
    cases same
    rw [← found]
    exact isAnswer
  · simp only [beq_false_of_ne same] at found
    exact knows.answers otherAddress otherSlot other found

/-! ## Questions to sound decoders -/

/-- From a sound decoder the question leads to a sound one, and its outcome has
the property. -/
def Ensures {α : Type} (interpretation : Interpretation) (history : History) (memory : Memory)
    (question : Decoding α) (property : Except Fault α → Prop) : Prop :=
  ∀ decoder, decoder.Sound interpretation history memory →
    ∃ outcome after, question.run.run decoder = (outcome, after) ∧
      after.Sound interpretation history memory ∧ property outcome

section Rules

variable {α β : Type}

theorem ensures_pure {value : α} {property : Except Fault α → Prop} (holds : property (.ok value)) :
    Ensures interpretation history memory (pure value) property :=
  fun decoder sound => ⟨.ok value, decoder, rfl, sound, holds⟩

private theorem ensures_lift (outcome : Except Fault α) :
    Ensures interpretation history memory (liftM outcome) (· = outcome) := by
  intro decoder sound
  cases outcome <;> exact ⟨_, decoder, rfl, sound, rfl⟩

theorem Ensures.bind {first : Decoding α} {next : α → Decoding β}
    {between : Except Fault α → Prop} {property : Except Fault β → Prop}
    (firstEnsures : Ensures interpretation history memory first between)
    (onFault : ∀ fault, between (.error fault) → property (.error fault))
    (onValue : ∀ value, between (.ok value) →
      Ensures interpretation history memory (next value) property) :
    Ensures interpretation history memory (first >>= next) property := by
  intro decoder sound
  obtain ⟨outcome, middle, ran, middleSound, holds⟩ := firstEnsures decoder sound
  rw [ExceptT.run_bind, StateT.run_bind, ran]
  cases outcome with
  | error fault => exact ⟨.error fault, middle, rfl, middleSound, onFault fault holds⟩
  | ok value => exact onValue value holds middle middleSound

theorem Ensures.imp {question : Decoding α} {property weaker : Except Fault α → Prop}
    (ensures : Ensures interpretation history memory question property)
    (implies : ∀ outcome, property outcome → weaker outcome) :
    Ensures interpretation history memory question weaker := by
  intro decoder sound
  obtain ⟨outcome, after, ran, afterSound, holds⟩ := ensures decoder sound
  exact ⟨outcome, after, ran, afterSound, implies outcome holds⟩

theorem ensures_get {next : Decoder → Decoding α} {property : Except Fault α → Prop}
    (onDecoder : ∀ decoder, decoder.Sound interpretation history memory →
      Ensures interpretation history memory (next decoder) property) :
    Ensures interpretation history memory (get >>= next) property :=
  fun decoder sound => onDecoder decoder sound decoder sound

private theorem ensures_modify {change : Decoder → Decoder}
    (kept : ∀ decoder, decoder.Sound interpretation history memory →
      (change decoder).Sound interpretation history memory) :
    Ensures interpretation history memory (modify change) (· = .ok ⟨⟩) :=
  fun decoder sound => ⟨_, change decoder, rfl, kept decoder sound, rfl⟩

/-- An encoding has the outcome that it has in some sound session. -/
private theorem ensures_encoded {encoding : PartialEncoding α}
    (keeps : Keeps interpretation history encoding) :
    Ensures interpretation history memory (encoded encoding) fun outcome =>
      ∃ session : Session, session.Sound interpretation history ∧
        outcome = (encoding.run.run session).1 := by
  intro decoder sound
  have kept := keeps decoder.session sound.session
  rcases ran : encoding.run.run decoder.session with ⟨outcome, session⟩
  rw [ran] at kept
  refine ⟨outcome, { decoder with session }, ?_, sound.withSession kept, decoder.session,
    sound.session, by rw [ran]⟩
  show (liftM (encoding.run.run decoder.session).1 : Decoding α).run.run
    { decoder with session := (encoding.run.run decoder.session).2 } = _
  rw [ran]
  cases outcome <;> rfl

end Rules

private theorem ensures_evaluated (term : Term) :
    Ensures interpretation history memory (evaluated term)
      (· = interpretation.model.evaluate term) := by
  refine ensures_get fun decoder sound => ?_
  rw [sound.ofModel]
  exact ensures_lift _

/-- An encoding is evaluated. Where it is known to yield a term with the answer,
that is the outcome. -/
private theorem ensures_encodedValue {encoding : PartialEncoding Term} {valued : Prop}
    {answer : Except Fault (Option Constant)}
    (keeps : Keeps interpretation history encoding)
    (yields : valued → Yields interpretation history encoding
      (interpretation.model.evaluate · = answer)) :
    Ensures interpretation history memory (do evaluated (← encoded encoding)) fun outcome =>
      valued → outcome = answer := by
  refine (ensures_encoded keeps).bind ?_ ?_
  · rintro fault ⟨session, sound, isFault⟩ isValued
    obtain ⟨term, after, ran, _⟩ := yields isValued session sound
    rw [ran] at isFault
    cases isFault
  · rintro term ⟨session, sound, isTerm⟩
    refine (ensures_evaluated term).imp ?_
    rintro _ rfl isValued
    obtain ⟨result, after, ran, _, holds⟩ := yields isValued session sound
    rw [ran] at isTerm
    cases isTerm
    exact holds

/-- A term is answered with the value of its encoding. -/
private theorem ensures_eval (term : Term) :
    Ensures interpretation history memory (eval term)
      (· = interpretation.model.evaluate term.encoded) := by
  have yields : Yields interpretation history (liftM term.encode) (· = term.encoded) :=
    yields_encode term
  have answers : Ensures interpretation history memory (eval term) fun outcome =>
      True → outcome = interpretation.model.evaluate term.encoded :=
    ensures_encodedValue yields.keeps fun _ => yields.imp fun _ isEncoded => by rw [isEncoded]
  exact answers.imp fun _ isAnswer => isAnswer trivial

/-- A question that starts with the value of a term. Where the term is known to
have one, the rest is asked for that value. -/
private theorem ensures_evalThen {term : Term} {next : Constant → Decoding (Option Constant)}
    {valued : Prop} {property : Except Fault (Option Constant) → Prop}
    (stored : valued → ∃ sort, term.Stored interpretation sort)
    (nextEnsures : ∀ value, (valued → value = interpretation.model.valueOf term) →
      Ensures interpretation history memory (next value) fun outcome =>
        valued → property outcome) :
    Ensures interpretation history memory
      (do match ← eval term with
        | none => return none
        | some value => next value)
      fun outcome => valued → property outcome := by
  have evaluates : valued → interpretation.model.evaluate term.encoded =
      .ok (some (interpretation.model.valueOf term)) := fun isValued => by
    obtain ⟨sort, denotes⟩ := stored isValued
    exact Model.evaluate_of_eval denotes.encoded.eval
  refine (ensures_eval term).bind ?_ ?_
  · intro fault isFault isValued
    cases isFault.trans (evaluates isValued)
  · intro answer isAnswer
    cases answer with
    | none => exact ensures_pure fun isValued => nomatch isAnswer.trans (evaluates isValued)
    | some value =>
        refine nextEnsures value fun isValued => ?_
        cases isAnswer.trans (evaluates isValued)
        rfl

private theorem ensures_register (index : Nat) :
    Ensures interpretation history memory (register index) fun _ => True := by
  refine ensures_get fun decoder sound => ?_
  cases decoder.memory.register? index with
  | none => exact ensures_pure trivial
  | some value => exact (ensures_eval value).imp fun _ _ => trivial

private theorem ensures_regionDecoder (id : RegionId) :
    Ensures interpretation history memory (regionDecoder id) fun outcome =>
      ∃ known, outcome = .ok known ∧ KnowsRegion interpretation memory id known := by
  refine ensures_get fun decoder sound => ?_
  cases found : decoder.regions.find? id with
  | some known => exact ensures_pure ⟨known, rfl, sound.regions id known found⟩
  | none =>
      have knows : KnowsRegion interpretation memory id ⟨decoder.memory.regionFor id, []⟩ :=
        ⟨by rw [sound.ofMemory], by simp⟩
      intro _ _
      exact ⟨_, _, rfl, sound.insert knows, _, rfl, knows⟩

section Locations

variable (inOrder : memory.InOrder interpretation history) (id : RegionId)

include inOrder

/-- An answer that is computed anew is right. -/
private theorem ensures_compute (address : Constant) (slot : Option Constant) :
    Ensures interpretation history memory (compute (memory.regionFor id) address slot)
      (Answers interpretation memory id address slot) := by
  have encodedRead : Ensures interpretation history memory
      (do evaluated (← encoded
        ((memory.regionFor id).encodeRead ⟨.const address, slot.map .const⟩)))
      (Answers interpretation memory id address slot) := by
    refine (ensures_encodedValue (inOrder.keeps_encodeRead id _) fun
      (located : id.Known interpretation.vocabulary ∧ id.Locates address slot) =>
        inOrder.yields_encodeRead located.1 (located.2.wellSorted _)
          (located.2.valueOf_ne_null interpretation)).imp ?_
    intro outcome isAnswer known locates
    rw [isAnswer ⟨known, locates⟩, locates.address_eq, locates.slot_eq]
  have noReference : ¬ address.HasSort .reference →
      Ensures interpretation history memory (pure none)
        (Answers interpretation memory id address slot) := fun notReference =>
    ensures_pure fun _ locates => absurd locates.isReference notReference
  -- Only null and what is no reference are answered without an encoding.
  cases address with
  | null =>
      have atNull : ∀ outcome, Answers interpretation memory id .null slot outcome :=
        fun _ _ locates => absurd rfl locates.notNull
      exact (ensures_lift _).bind (fun _ _ => atNull _) fun _ _ => ensures_pure (atNull _)
  | heap number => exact encodedRead
  | input number => exact encodedRead
  | bottom => exact noReference (by decide)
  | bool value => exact noReference (by simp [Constant.HasSort, Constant.sort])
  | i32 value => exact noReference (by simp [Constant.HasSort, Constant.sort])
  | i64 value => exact noReference (by simp [Constant.HasSort, Constant.sort])

/-- An answer is right, whether it is kept or computed anew. -/
private theorem ensures_readAt (address : Constant) (slot : Option Constant) :
    Ensures interpretation history memory (readAt id address slot)
      (Answers interpretation memory id address slot) := by
  refine (ensures_regionDecoder id).bind (by simp) ?_
  rintro decoder ⟨known, isKnown, knows⟩
  cases isKnown
  cases found : decoder.known.lookup (address, slot) with
  | some answer =>
      simp only
      exact ensures_pure (knows.answers address slot answer found)
  | none =>
      simp only
      have computes := ensures_compute inOrder id address slot
      rw [← knows.region] at computes
      refine computes.bind (fun _ isAnswer => isAnswer) fun answer isAnswer => ?_
      refine (ensures_modify fun decoder sound => sound.insert (knows.add isAnswer)).bind
        (by simp) fun _ _ => ?_
      exact ensures_pure isAnswer

/-- The location that a key denotes is read at the values of the key. -/
private theorem ensures_read (key : Key) :
    Ensures interpretation history memory (read id key) fun outcome =>
      key.WellSorted interpretation.vocabulary id →
        Answers interpretation memory id (interpretation.model.valueOf key.address)
          (key.slot interpretation.model) outcome := by
  refine ensures_evalThen (fun keySorted => ⟨_, keySorted.1.denotes⟩) fun address isAddress => ?_
  cases secondary : key.secondary with
  | none =>
      refine (ensures_readAt inOrder id address none).imp fun outcome answers keySorted => ?_
      rw [← isAddress keySorted, Key.slot, secondary]
      exact answers
  | some index =>
      refine ensures_evalThen (fun keySorted => keySorted.stored_secondary secondary)
        fun slot isSlot => ?_
      refine (ensures_readAt inOrder id address (some slot)).imp fun outcome answers keySorted => ?_
      rw [← isAddress keySorted, Key.slot, secondary, Option.map_some, ← isSlot keySorted]
      exact answers

end Locations

/-! ## Decoders of a memory -/

/-- The decoders that questions about a memory can reach. Questions need not be
well sorted, and may stop with a fault. -/
inductive Reached (model : Model) (memory : Memory) : Decoder → Prop
  | start : Reached model memory (start model memory)
  | ask {decoder : Decoder}
      (reached : Reached model memory decoder)
      (query : Query) :
      Reached model memory (query.constant.run.run decoder).2

private theorem ensures_constant (inOrder : memory.InOrder interpretation history) (query : Query) :
    Ensures interpretation history memory query.constant fun _ => True := by
  cases query with
  | value term => exact (ensures_eval term).imp fun _ _ => trivial
  | register index => exact ensures_register index
  | location id key => exact (ensures_read inOrder id key).imp fun _ _ => trivial
  | stored id address slot => exact (ensures_readAt inOrder id address slot).imp fun _ _ => trivial

theorem Reached.sound (inOrder : memory.InOrder interpretation history) {decoder : Decoder}
    (reached : Reached interpretation.model memory decoder) :
    decoder.Sound interpretation history memory := by
  induction reached with
  | start => exact start_sound
  | ask reached query inductionHypothesis =>
      obtain ⟨outcome, after, ran, afterSound, _⟩ :=
        ensures_constant inOrder query _ inductionHypothesis
      rw [ran]
      exact afterSound

section Outcomes

variable (inOrder : memory.InOrder interpretation history) {decoder : Decoder}
  (reached : Reached interpretation.model memory decoder)

include inOrder reached

/-- What a question ensures holds of its outcome in every decoder that can be
reached. -/
private theorem Ensures.of_reached {α : Type} {question : Decoding α}
    {property : Except Fault α → Prop}
    (ensures : Ensures interpretation history memory question property) :
    property (question.run.run decoder).1 := by
  obtain ⟨outcome, after, ran, _, holds⟩ := ensures decoder (reached.sound inOrder)
  rw [ran]
  exact holds

private theorem eval_of_denotes {term : Term} {sort : ValueSort} {value : Constant}
    (denotes : term.Denotes interpretation .closed sort value) :
    ((eval term).run.run decoder).1 = .ok (some value) :=
  ((ensures_eval term).of_reached inOrder reached).trans
    (Model.evaluate_of_eval denotes.encoded.eval)

end Outcomes

/-! ## Agreement -/

/-- A memory of a run is asked for a location whose address is not null. However
it is asked, every decoder of the memory that can be reached answers with one
value: the key is decoded or the read is folded and then evaluated, and the
location is given by terms or by the constants that they evaluate to. -/
theorem answers_agree
    (vocabulary : Vocabulary)
    (model : Model)
    (admissible : model.Admissible vocabulary)
    (memories : List Memory)
    (supply : Supply)
    (run : Memory.Run vocabulary model memories supply)
    (memory : Memory)
    (memoryReached : memory ∈ memories)
    (id : RegionId)
    (known : id.Known vocabulary)
    (key : Key)
    (keySorted : key.WellSorted vocabulary id)
    (address : Constant)
    (isAddress : model.evaluate key.address = .ok (some address))
    (notNull : address ≠ .null) :
    ∃ folded slot foldedAt value,
      memory.read id key = .ok folded ∧
        key.secondary.map model.evaluate = slot.map (fun constant => .ok (some constant)) ∧
        memory.read id ⟨.const address, slot.map .const⟩ = .ok foldedAt ∧
        model.evaluate folded = .ok (some value) ∧
        ∀ decoder, Reached model memory decoder →
          ∀ query ∈ [.location id key, .value folded, .stored id address slot, .value foldedAt],
            (Query.constant query |>.run.run decoder).1 = .ok (some value) := by
  let interpretation : Interpretation := ⟨vocabulary, model, admissible⟩
  obtain ⟨history, _, allInOrder⟩ : AllHold (Memory.InOrder interpretation) memories supply :=
    Memory.Run.allInOrder run
  have inOrder := allInOrder memory memoryReached
  have addressValue : address = interpretation.model.valueOf key.address := by
    rw [Model.valueOf, isAddress]
  subst addressValue
  have locates := Key.WellSorted.locates keySorted notNull
  obtain ⟨folded, isFolded, foldedDenotes⟩ := inOrder.read_denotes known keySorted notNull
  obtain ⟨foldedAt, isFoldedAt, foldedAtDenotes⟩ :=
    inOrder.read_denotes known (locates.wellSorted _) (locates.valueOf_ne_null interpretation)
  rw [locates.address_eq, locates.slot_eq] at foldedAtDenotes
  refine ⟨folded, key.slot model, foldedAt, _, isFolded, ?_, isFoldedAt,
    Model.evaluate_of_eval foldedDenotes.eval, ?_⟩
  · rw [Key.slot, Option.map_map]
    refine Option.map_congr fun index isIndex => ?_
    obtain ⟨sort, stored⟩ : ∃ sort, index.Stored interpretation sort :=
      keySorted.stored_secondary isIndex
    exact Model.evaluate_of_eval stored.eval
  · intro decoder reached query member
    simp only [List.mem_cons, List.not_mem_nil, or_false] at member
    obtain rfl | rfl | rfl | rfl := member
    · exact (ensures_read inOrder id key).of_reached inOrder reached keySorted known locates
    · exact eval_of_denotes inOrder reached foldedDenotes
    · exact (ensures_readAt inOrder id _ _).of_reached inOrder reached known locates
    · exact eval_of_denotes inOrder reached foldedAtDenotes

/-- Sets the first element of an array of the input, unless `skip` holds. -/
def setItem : MemoryOp :=
  .write (.arrayElement "Items" .i32) ⟨.const (.input 3), some (.const (.i32 0))⟩ (.const (.i32 7))
    (.negation (.var "skip" .bool))

/-- Copies the array into the middle of another one. -/
def copyItems : MemoryOp :=
  .copyRange (.arrayElement "Items" .i32)
    { sourceAddress := .const (.input 3)
      destinationAddress := .const (.input 5)
      sourceFrom := .const (.i32 0)
      destinationFrom := .const (.i32 4)
      destinationTo := .const (.i32 6) }
    (.const (.bool true))

/-- A memory after both operations, merged with the one before the second. -/
def copiedUnlessUndone : Fresh (Except Fault Memory) := do
  let written ← setItem.run (← Memory.create)
  let copied ← copyItems.run written
  (written.merge copied (.var "undone" .bool) ⟨1⟩).run

/-- An element of one of the arrays, at an index that is not known. -/
def eitherItem : Key :=
  ⟨.conditional (.var "first" .bool) (.const (.input 3)) (.const (.input 5)),
    some (.binary .add (.var "offset" .i32) (.const (.i32 4)))⟩

theorem answers_copiedUnlessUndone :
    ∃ memory after, copiedUnlessUndone.run Supply.initial = (.ok memory, after) ∧
      ∀ decoder, Reached Model.empty memory decoder →
        ((read (.arrayElement "Items" .i32) eitherItem).run.run decoder).1 =
          .ok (some (.i32 7)) := by
  let vocabulary : Vocabulary := ⟨fun _ _ => True, fun _ _ => True⟩
  have number : ∀ value, (Term.const (.i32 value)).IsValue vocabulary .i32 :=
    fun value => Term.isValue_const ⟨Constant.noConfusion, rfl⟩
  have known : (RegionId.arrayElement "Items" .i32).Known vocabulary := ⟨rfl, trivial⟩
  have guardSorted : (Term.negation (.var "skip" .bool)).IsValue vocabulary .bool :=
    ⟨by simp [Term.WellSorted, Term.sort, ValueSort.isArray, vocabulary], rfl, rfl⟩
  have created : Memory.Run vocabulary Model.empty [.empty ⟨0⟩] ⟨0, 1, 0⟩ :=
    .create (.start .initial)
  have written := created.update List.mem_cons_self setItem
    ⟨known, ⟨Term.isValue_const (by decide), number 0⟩, number 7, guardSorted⟩
  have copied := written.update List.mem_cons_self copyItems
    ⟨known, Term.isValue_const (by decide), Term.isValue_const (by decide), number 0, number 4,
      number 6, Term.isValue_const (by decide)⟩
  have decides : (Term.var "undone" .bool).Decides vocabulary Model.empty false :=
    ⟨by simp [Term.WellSorted, vocabulary, ValueSort.isArray], rfl, by decide⟩
  have merged := copied.merge (List.mem_cons_of_mem _ List.mem_cons_self) List.mem_cons_self decides
    (show (Memory.merge _ _ _ ⟨1⟩).run.run _ = (.ok _, _) from rfl)
  have keySorted : eitherItem.WellSorted vocabulary (.arrayElement "Items" .i32) :=
    ⟨⟨by simp [eitherItem, Term.WellSorted, Term.sort, ValueSort.isArray, vocabulary,
        Constant.sort], rfl, rfl⟩,
      by simp [Term.WellSorted, Term.sort, ValueSort.isArray, vocabulary, BinaryOp.Accepts,
        ValueSort.isInteger, Constant.sort], rfl, rfl⟩
  obtain ⟨folded, _, _, value, isFolded, _, _, foldedValue, answers⟩ := answers_agree vocabulary
    Model.empty (Model.empty_admissible _) _ _ merged _ List.mem_cons_self _ known eitherItem
    keySorted (.input 5) (by decide) (by decide)
  have isSeven : (.ok (some value) : Except Fault (Option Constant)) = .ok (some (.i32 7)) := by
    rw [← foldedValue]
    cases isFolded
    rfl
  refine ⟨_, _, rfl, fun decoder reached => ?_⟩
  rw [← isSeven]
  exact answers decoder reached _ List.mem_cons_self

/-- Sets a field of an object that has a name. -/
def setCountOf (name : String) (guard : Term) : MemoryOp :=
  .write (.field "count" .i32) (.ofName name) (.const (.i32 7)) guard

/-- A field is set twice by one name, the second time under a guard that compares
arrays. -/
def setTwice : Fresh Memory := do
  let written ← (setCountOf "left" (.const (.bool true))).run (← Memory.create)
  (setCountOf "left" Term.comparedArrays).run written

/-- Decoded by the other name the field has the number, for its encoding does not
ask for that guard. The folded read does, and has no value. -/
theorem answers_setTwice :
    Model.aliased.Admissible .ofReferences ∧
    Term.comparedArrays.WellSorted .ofReferences [] ∧ Term.comparedArrays.sort = .bool ∧
    (∀ name, (Key.ofName name).WellSorted .ofReferences (.field "count" .i32)) ∧
    Model.aliased.evaluate (Key.ofName "right").address = .ok (some (.input 3)) ∧
    ∃ memory folded, memory = (setTwice.run Supply.initial).1 ∧
      memory.read (.field "count" .i32) (.ofName "right") = .ok folded ∧
      ((read (.field "count" .i32) (.ofName "right")).run.run (start Model.aliased memory)).1 =
        .ok (some (.i32 7)) ∧
      ((eval folded).run.run (start Model.aliased memory)).1 = .ok none := by
  refine ⟨Model.aliased_admissible, ?_, rfl, Key.ofName_wellSorted, rfl, _, _, rfl, rfl, rfl, rfl⟩
  exact Term.comparedArrays_wellSorted fun _ => trivial

end Decoder

end SymbolicHeap
