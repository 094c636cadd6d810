import SymbolicHeap.Proofs.ArrayTheory.Regions
import SymbolicHeap.Proofs.Heap.Merge
import SymbolicHeap.Proofs.Sorts.Totality

/-!
Contract: a read encoded to array terms agrees with the folded read.

A run makes regions, each from earlier ones; a session encodes terms and
regions of the run in any order. Whatever the session has encoded before, and
however long the ranges are that it writes out, encoding a read succeeds and
gives a term with the value of the read.

Owns:
- runs of regions, and the invariant of every region that a run makes;
- the sessions that encodings of a run can reach, which are all sound;
- the agreement of both reads.
-/

namespace SymbolicHeap

open Encoding

/-! ## Runs of regions -/

namespace Region

/-- The region lies in the history and is well keyed. -/
structure InOrder (interpretation : Interpretation) (history : History) (region : Region) :
    Prop where
  recorded : region.Recorded history
  wellKeyed : region.WellKeyed interpretation

variable {interpretation : Interpretation} {history : History} {region source members : Region}

theorem InOrder.mono {newer : History} (extended : history.Extends newer)
    (inOrder : region.InOrder interpretation history) : region.InOrder interpretation newer :=
  ⟨inOrder.recorded.mono extended region, inOrder.wellKeyed⟩

theorem InOrder.write (inOrder : region.InOrder interpretation history) {key : Key}
    {value guard : Term}
    (takesValues : (MemoryOp.write region.id key value guard).TakesValues
      interpretation.vocabulary) :
    (region.write key value guard).Records history fun newer result =>
      result.InOrder interpretation newer := by
  obtain ⟨_, keySorted, valueSorted, guardSorted⟩ := takesValues
  have records := (write_records inOrder.recorded key value guard).and
    (write_changes inOrder.wellKeyed keySorted.fits valueSorted.stored guardSorted.stored)
  exact records.imp fun newer result _ holds => ⟨holds.1, holds.2.wellKeyed⟩

theorem InOrder.copyRange (inOrder : region.InOrder interpretation history)
    (sourceInOrder : source.InOrder interpretation history) {range : CopyRange} {guard : Term}
    (takesValues : (MemoryOp.copyRange region.id range guard).TakesValues
      interpretation.vocabulary) :
    Fresh.RecordsOk (region.copyRange source range guard) history fun newer result =>
      result.InOrder interpretation newer := by
  obtain ⟨_, sourceReference, isReference, sourceFrom, destinationFrom, destinationTo,
    guardSorted⟩ := takesValues
  by_cases accepted : region.id.supportsCopy = true ∧ source.id = region.id
  · have rangeSorted : range.WellSorted interpretation :=
      ⟨sourceReference, sourceFrom.stored, destinationFrom.stored, destinationTo.stored⟩
    have records := Fresh.Records.and
      (copyRange_records inOrder.recorded sourceInOrder.recorded range guard)
      (copyRange_changes inOrder.wellKeyed sourceInOrder.wellKeyed accepted.1 accepted.2 rangeSorted
        isReference guardSorted.stored)
    refine records.imp ?_
    rintro newer outcome _ ⟨recorded, after, rfl, changes⟩ _ ⟨⟩
    exact ⟨recorded after rfl, changes.wellKeyed⟩
  · rw [Region.copyRange, if_neg accepted]
    exact Fresh.recordsOk_throw _

theorem InOrder.overlay (inOrder : region.InOrder interpretation history)
    (sourceInOrder : source.InOrder interpretation history)
    (membersInOrder : members.InOrder interpretation history)
    {ends : OverlayEnds} {guard : Term}
    (takesValues : (MemoryOp.overlay region.id members.id ends guard).TakesValues
      interpretation.vocabulary) :
    Fresh.RecordsOk (region.overlay source members ends guard) history fun newer result =>
      result.InOrder interpretation newer := by
  obtain ⟨_, _, ⟨mapType, keySort, isMembers, sameKeys⟩, sourceReference, isReference,
    guardSorted⟩ := takesValues
  by_cases accepted : region.id.supportsMerge = true ∧ source.id = region.id
  · have isBool : members.id.valueSort = .bool := by
      rw [isMembers]
      rfl
    have sameSort : members.id.secondarySort = region.id.secondarySort := by
      rw [isMembers, sameKeys accepted.1]
      rfl
    have records := Fresh.Records.and
      (overlay_records inOrder.recorded sourceInOrder.recorded membersInOrder.recorded ends guard)
      (overlay_changes inOrder.wellKeyed sourceInOrder.wellKeyed membersInOrder.wellKeyed accepted.1
        accepted.2 isBool sameSort sourceReference isReference guardSorted.stored)
    refine records.imp ?_
    rintro newer outcome _ ⟨recorded, after, rfl, changes⟩ _ ⟨⟩
    exact ⟨recorded after rfl, changes.wellKeyed⟩
  · rw [Region.overlay, if_neg accepted]
    exact Fresh.recordsOk_throw _

theorem InOrder.merge {left right : Region} (leftInOrder : left.InOrder interpretation history)
    (rightInOrder : right.InOrder interpretation history) (sameId : right.id = left.id)
    {guard : Term}
    (guardSorted : guard.IsValue interpretation.vocabulary .bool)
    (owner : Owner) :
    Fresh.RecordsOk (left.merge right guard owner) history fun newer merged =>
      merged.InOrder interpretation newer := by
  have records := merge_records guardSorted.stored sameId leftInOrder.recorded
    leftInOrder.wellKeyed rightInOrder.recorded rightInOrder.wellKeyed owner
  refine records.imp ?_
  intro newer outcome _ holds merged isMerged
  obtain ⟨recorded, chooses⟩ := holds merged isMerged
  exact ⟨recorded, chooses.wellKeyed⟩

/-- The regions that exist at some point of a run, newest first. No step takes
one away, and a refused update adds none. -/
inductive Run (vocabulary : Vocabulary) : List Region → Supply → Prop
  | start (supply : Supply) : Run vocabulary [] supply
  | create {regions : List Region} {supply : Supply}
      (run : Run vocabulary regions supply)
      (id : RegionId)
      (known : id.Known vocabulary)
      (owner : Owner) :
      Run vocabulary (empty id owner :: regions) supply
  | write {regions : List Region} {supply : Supply} {region : Region}
      (run : Run vocabulary regions supply)
      (reached : region ∈ regions)
      (key : Key)
      (value guard : Term)
      (takesValues : (MemoryOp.write region.id key value guard).TakesValues vocabulary) :
      Run vocabulary (((region.write key value guard).run supply).1 :: regions)
        ((region.write key value guard).run supply).2
  | copyRange {regions : List Region} {supply : Supply} {region source : Region}
      (run : Run vocabulary regions supply)
      (reached : region ∈ regions)
      (sourceReached : source ∈ regions)
      (range : CopyRange)
      (guard : Term)
      (takesValues : (MemoryOp.copyRange region.id range guard).TakesValues vocabulary) :
      Run vocabulary
        (((region.copyRange source range guard).run.run supply).1.toOption.toList ++ regions)
        ((region.copyRange source range guard).run.run supply).2
  | overlay {regions : List Region} {supply : Supply} {region source members : Region}
      (run : Run vocabulary regions supply)
      (reached : region ∈ regions)
      (sourceReached : source ∈ regions)
      (membersReached : members ∈ regions)
      (ends : OverlayEnds)
      (guard : Term)
      (takesValues : (MemoryOp.overlay region.id members.id ends guard).TakesValues vocabulary) :
      Run vocabulary
        (((region.overlay source members ends guard).run.run supply).1.toOption.toList ++ regions)
        ((region.overlay source members ends guard).run.run supply).2
  | merge {regions : List Region} {supply : Supply} {left right : Region}
      (run : Run vocabulary regions supply)
      (leftReached : left ∈ regions)
      (rightReached : right ∈ regions)
      (sameId : right.id = left.id)
      (guard : Term)
      (wellSorted : guard.IsValue vocabulary .bool)
      (owner : Owner) :
      Run vocabulary
        (((left.merge right guard owner).run.run supply).1.toOption.toList ++ regions)
        ((left.merge right guard owner).run.run supply).2

theorem Run.allInOrder {regions : List Region} {supply : Supply}
    (run : Run interpretation.vocabulary regions supply) :
    AllHold (InOrder interpretation) regions supply := by
  induction run with
  | start supply => exact .start supply
  | create run id known owner inductionHypothesis =>
      obtain ⟨history, sameNodes, inOrder⟩ := inductionHypothesis
      refine ⟨history, sameNodes, List.forall_mem_cons.2 ⟨?_, inOrder⟩⟩
      exact ⟨empty_recorded id owner, empty_wellKeyed known owner⟩
  | write run reached key value guard takesValues inductionHypothesis =>
      exact inductionHypothesis.add InOrder.mono fun history inOrder =>
        (inOrder _ reached).write takesValues
  | copyRange run reached sourceReached range guard takesValues inductionHypothesis =>
      exact inductionHypothesis.addOutcome InOrder.mono fun history inOrder =>
        (inOrder _ reached).copyRange (inOrder _ sourceReached) takesValues
  | overlay run reached sourceReached membersReached ends guard takesValues inductionHypothesis =>
      exact inductionHypothesis.addOutcome InOrder.mono fun history inOrder =>
        (inOrder _ reached).overlay (inOrder _ sourceReached) (inOrder _ membersReached) takesValues
  | merge run leftReached rightReached sameId guard wellSorted owner inductionHypothesis =>
      exact inductionHypothesis.addOutcome InOrder.mono fun history inOrder =>
        (inOrder _ leftReached).merge (inOrder _ rightReached) sameId wellSorted owner

end Region

/-! ## Sessions of a run -/

/-- The sessions that encodings of some regions can reach. Keys need not be
those of a location, and encodings may stop with a fault. -/
inductive Session.Reached (regions : List Region) : Session → Prop
  | start (limit : Nat) : Reached regions (.start limit)
  | encode {session : Session}
      (reached : Reached regions session)
      (term : Term) :
      Reached regions (term.encode.run session).2
  | encodeRead {session : Session} {region : Region}
      (reached : Reached regions session)
      (member : region ∈ regions)
      (key : Key) :
      Reached regions ((region.encodeRead key).run.run session).2
  | encodeInput {session : Session} {region : Region}
      (reached : Reached regions session)
      (member : region ∈ regions) :
      Reached regions (region.encodeInput.run.run session).2
  | encodeAllocated {session : Session} {region : Region}
      (reached : Reached regions session)
      (member : region ∈ regions)
      (address : UInt32) :
      Reached regions ((region.encodeAllocated address).run.run session).2

theorem Session.Reached.sound {interpretation : Interpretation} {history : History}
    {regions : List Region} {session : Session}
    (inOrder : ∀ region ∈ regions, region.InOrder interpretation history)
    (reached : session.Reached regions) : session.Sound interpretation history := by
  induction reached with
  | start limit => exact start_sound limit
  | encode reached term inductionHypothesis =>
      exact (yields_encode term).keeps _ inductionHypothesis
  | encodeRead reached member key inductionHypothesis =>
      obtain ⟨recorded, wellKeyed⟩ := inOrder _ member
      exact Region.keeps_encodeRead wellKeyed recorded key _ inductionHypothesis
  | encodeInput reached member inductionHypothesis =>
      obtain ⟨recorded, wellKeyed⟩ := inOrder _ member
      exact Region.keeps_encodeInput wellKeyed recorded _ inductionHypothesis
  | encodeAllocated reached member address inductionHypothesis =>
      obtain ⟨recorded, wellKeyed⟩ := inOrder _ member
      exact Region.keeps_encodeAllocated wellKeyed recorded address _ inductionHypothesis

/-! ## Two names of one object -/

/-- All scalars are references. -/
def Vocabulary.ofReferences : Vocabulary := ⟨fun _ sort => sort = .reference, fun _ _ => True⟩

/-- Two names of one object of the input. -/
def Model.aliased : Model := (Model.empty.assign "left" (.input 3)).assign "right" (.input 3)

theorem Model.aliased_admissible : aliased.Admissible .ofReferences := by
  have fits : ∀ sort, sort = .reference →
      (Constant.input 3).HasSort sort ∧ (Constant.input 3).isHeap = false := by
    rintro sort rfl
    decide
  exact ((empty_admissible _).assign fits).assign fits

/-- The field of an object that has a name. -/
def Key.ofName (name : String) : Key := ⟨.var name .reference, none⟩

theorem Key.ofName_wellSorted (name : String) :
    (ofName name).WellSorted .ofReferences (.field "count" .i32) := by
  refine ⟨⟨?_, rfl, rfl⟩, trivial⟩
  simp [ofName, Term.WellSorted, Vocabulary.ofReferences, ValueSort.isArray]

/-! ## Agreement -/

namespace Region

/-- In every session that a run can reach, with any limit on the ranges that are
written out, a read of a region of the run is encoded to a term with the value
that the folded read has. -/
theorem encodeRead_agrees
    (vocabulary : Vocabulary)
    (model : Model)
    (admissible : model.Admissible vocabulary)
    (regions : List Region)
    (supply : Supply)
    (run : Run vocabulary regions supply)
    (region : Region)
    (reached : region ∈ regions)
    (key : Key)
    (keySorted : key.WellSorted vocabulary region.id) :
    ∃ folded value, region.read key = .ok folded ∧ model.evaluate folded = .ok (some value) ∧
      ∀ session : Session, session.Reached regions →
        ∃ encoded after, (region.encodeRead key).run.run session = (.ok encoded, after) ∧
          model.evaluate encoded = .ok (some value) := by
  let interpretation : Interpretation := ⟨vocabulary, model, admissible⟩
  obtain ⟨history, _, inOrder⟩ : AllHold (InOrder interpretation) regions supply :=
    Run.allInOrder run
  obtain ⟨recorded, wellKeyed⟩ := inOrder region reached
  have fits : region.id.FitsKey interpretation key := keySorted.fits
  obtain ⟨folded, isFolded, foldedDenotes⟩ := read_denotes region wellKeyed key fits
  refine ⟨folded, _, isFolded, Model.evaluate_of_eval foldedDenotes.eval, ?_⟩
  intro session sessionReached
  obtain ⟨encoded, after, ran, _, encodedDenotes⟩ := encodes region wellKeyed recorded .closed key _
    fits.1 fits.2.denotes session (sessionReached.sound inOrder)
  exact ⟨encoded, after, ran, Model.evaluate_of_eval encodedDenotes.eval⟩

/-- An element is written to an array of the input, unless `skip` holds, and
copied to another one. -/
def copiedWithin : Fresh (Except Fault Region) := do
  let written ← (empty (.arrayElement "Items" .i32) ⟨0⟩).write
    ⟨.const (.input 3), some (.const (.i32 0))⟩ (.const (.i32 7)) (.negation (.var "skip" .bool))
  written.copyRange written
    { sourceAddress := .const (.input 3)
      destinationAddress := .const (.input 5)
      sourceFrom := .const (.i32 0)
      destinationFrom := .const (.i32 4)
      destinationTo := .const (.i32 6) }
    (.const (.bool true))

theorem encodeRead_copiedWithin :
    ∃ region unrolled chosen, (copiedWithin.run Supply.initial).1 = .ok region ∧
      ((region.encodeRead ⟨.const (.input 5), some (.const (.i32 4))⟩).run.run (.start 16)).1 =
        .ok unrolled ∧
      ((region.encodeRead ⟨.const (.input 5), some (.const (.i32 4))⟩).run.run (.start 1)).1 =
        .ok chosen ∧
      Model.empty.evaluate unrolled = .ok (some (.i32 7)) ∧
      Model.empty.evaluate chosen = .ok (some (.i32 7)) := by
  let vocabulary : Vocabulary := ⟨fun _ _ => True, fun _ _ => True⟩
  have number : ∀ value, (Term.const (.i32 value)).IsValue vocabulary .i32 :=
    fun value => Term.isValue_const ⟨Constant.noConfusion, rfl⟩
  have guardSorted : (Term.negation (.var "skip" .bool)).IsValue vocabulary .bool :=
    ⟨by simp [Term.WellSorted, Term.sort, ValueSort.isArray, vocabulary], rfl, rfl⟩
  have known : (RegionId.arrayElement "Items" .i32).Known vocabulary := ⟨rfl, trivial⟩
  have created : Run vocabulary [empty (.arrayElement "Items" .i32) ⟨0⟩] Supply.initial :=
    .create (.start .initial) _ known ⟨0⟩
  have written := created.write List.mem_cons_self ⟨.const (.input 3), some (.const (.i32 0))⟩
    (.const (.i32 7)) (.negation (.var "skip" .bool))
    ⟨known, ⟨Term.isValue_const (by decide), number 0⟩, number 7, guardSorted⟩
  have copied := written.copyRange List.mem_cons_self List.mem_cons_self
    { sourceAddress := .const (.input 3)
      destinationAddress := .const (.input 5)
      sourceFrom := .const (.i32 0)
      destinationFrom := .const (.i32 4)
      destinationTo := .const (.i32 6) }
    (.const (.bool true))
    ⟨known, Term.isValue_const (by decide), Term.isValue_const (by decide), number 0, number 4,
      number 6, Term.isValue_const (by decide)⟩
  obtain ⟨folded, value, isFolded, foldedValue, encodes⟩ := encodeRead_agrees vocabulary Model.empty
    (Model.empty_admissible _) _ _ copied _ List.mem_cons_self
    ⟨.const (.input 5), some (.const (.i32 4))⟩ ⟨Term.isValue_const (by decide), number 4⟩
  obtain ⟨unrolled, _, isUnrolled, unrolledValue⟩ := encodes (.start 16) (.start 16)
  obtain ⟨chosen, _, isChosen, chosenValue⟩ := encodes (.start 1) (.start 1)
  have isSeven : (.ok (some value) : Except Fault (Option Constant)) = .ok (some (.i32 7)) := by
    rw [← foldedValue]
    cases isFolded
    rfl
  rw [isSeven] at unrolledValue chosenValue
  exact ⟨_, unrolled, chosen, rfl, congrArg Prod.fst isUnrolled, congrArg Prod.fst isChosen,
    unrolledValue, chosenValue⟩

/-- A field is written twice by one name, the second time under a guard that
compares arrays. -/
def writtenTwice : Fresh Region := do
  let written ← (empty (.field "count" .i32) ⟨0⟩).write (.ofName "left") (.const (.i32 7))
    (.const (.bool true))
  written.write (.ofName "left") (.const (.i32 7)) Term.comparedArrays

/-- The read by the other name needs the value of that guard. Its encoding does
not: with the guard or without it the same number is stored, so the choice
between the two folds. -/
theorem encodeRead_writtenTwice :
    Model.aliased.Admissible .ofReferences ∧
    Term.comparedArrays.WellSorted .ofReferences [] ∧ Term.comparedArrays.sort = .bool ∧
    (∀ name, (Key.ofName name).WellSorted .ofReferences (.field "count" .i32)) ∧
    ∃ folded encoded, (writtenTwice.run Supply.initial).1.read (.ofName "right") = .ok folded ∧
      (((writtenTwice.run Supply.initial).1.encodeRead (.ofName "right")).run.run (.start 16)).1 =
        .ok encoded ∧
      Model.aliased.evaluate folded = .ok none ∧
      Model.aliased.evaluate encoded = .ok (some (.i32 7)) := by
  refine ⟨Model.aliased_admissible, ?_, rfl, Key.ofName_wellSorted, _, _, rfl, rfl, rfl, rfl⟩
  exact Term.comparedArrays_wellSorted fun _ => trivial

end Region

end SymbolicHeap
