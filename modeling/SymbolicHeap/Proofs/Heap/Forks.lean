import SymbolicHeap.Proofs.Heap.Merge
import SymbolicHeap.Proofs.Sorts.Totality

/-!
Contract: memories of one run, and the merge of two of them.

A run holds any number of memories at once. A step leaves the memory that it
starts from in place, so memories fork, share their past, and may be merged
again. A merged memory reads like the left one where the guard is true and like
the right one where it is false, in its regions and in its registers.

Owns:
- merged register frames and merged memories;
- runs, and what holds of every memory in a run.
-/

namespace SymbolicHeap

/-! ## Registers -/

/-- A closed Boolean term that is true or false under the model. -/
structure Term.Decides
    (vocabulary : Vocabulary)
    (model : Model)
    (guard : Term)
    (truth : Bool) :
    Prop where
  wellSorted : guard.WellSorted vocabulary []
  sorted : guard.sort = .bool
  evaluate : model.evaluate guard = .ok (some (.bool truth))

theorem Term.Decides.denotes {interpretation : Interpretation} {guard : Term} {truth : Bool}
    (decides : guard.Decides interpretation.vocabulary interpretation.model truth) :
    guard.Denotes interpretation .closed .bool (.bool truth) :=
  ⟨decides.wellSorted, decides.sorted, Model.evaluate_eq_some.1 decides.evaluate⟩

/-- A choice evaluates to what the chosen term evaluates to, if anything. -/
private theorem Model.evaluate_ite {model : Model} {guard : Term} {truth : Bool}
    (guardHolds : model.eval [] guard = .ok (.bool truth))
    (left right : Term) :
    model.evaluate (guard.ite left right) = model.evaluate (if truth then left else right) := by
  rw [Model.evaluate_eq, Model.evaluate_eq, Term.eval_ite guardHolds]

/-- What the registers of a frame evaluate to. -/
def Frame.values (model : Model) (frame : Frame) (index : Nat) :
    Option (Except Fault (Option Constant)) :=
  (frame.find? index).map model.evaluate

/-- What the registers of all frames evaluate to, the innermost frame first. -/
def Memory.registers (model : Model) (memory : Memory) :
    List (Nat → Option (Except Fault (Option Constant))) :=
  memory.frames.map (Frame.values model)

namespace Memory

section Frames

variable {model : Model} {guard : Term} {truth : Bool}

private theorem mergeEntries_spec {right : Frame} {entries : List (Nat × Term)}
    {start merged : Frame}
    (ascending : (⟨entries⟩ : Frame).Ascending)
    (startAscending : start.Ascending)
    (succeeds : entries.foldlM
      (fun (merged : Frame) register =>
        match right.find? register.1 with
        | some value => .ok (merged.insert register.1 (guard.ite register.2 value))
        | none => .error (Fault.merge (.register register.1))) start = Except.ok merged) :
    merged.Ascending ∧
      (∀ register ∈ entries, ∃ value, right.find? register.1 = some value ∧
        merged.find? register.1 = some (guard.ite register.2 value)) ∧
      ∀ index, index ∉ entries.map Prod.fst → merged.find? index = start.find? index := by
  induction entries generalizing start with
  | nil =>
      cases succeeds
      exact ⟨startAscending, by simp, fun _ _ => rfl⟩
  | cons register rest inductionHypothesis =>
      obtain ⟨later, restAscending⟩ := List.pairwise_cons.1 ascending
      rw [List.foldlM_cons] at succeeds
      cases found : right.find? register.1 with
      | none =>
          rw [found] at succeeds
          cases succeeds
      | some value =>
          rw [found] at succeeds
          obtain ⟨mergedAscending, visited, others⟩ :=
            inductionHypothesis restAscending startAscending.insert succeeds
          have notLater : register.1 ∉ rest.map Prod.fst := by
            intro member
            obtain ⟨other, inRest, same⟩ := List.mem_map.1 member
            have smaller := later other inRest
            simp [same] at smaller
          refine ⟨mergedAscending, ?_, ?_⟩
          · intro other member
            rcases List.mem_cons.1 member with rfl | inRest
            · refine ⟨value, found, ?_⟩
              rw [others _ notLater, OrderedMap.find?_insert, if_pos rfl]
            · exact visited other inRest
          · intro index missing
            rw [List.map_cons, List.mem_cons, not_or] at missing
            rw [others index missing.2, OrderedMap.find?_insert, if_neg missing.1]

/-- A merged frame has the registers of both frames, each with the value that
the frame of one side gives it. -/
private theorem mergeFrames_spec {left right merged : Frame}
    (guardHolds : model.eval [] guard = .ok (.bool truth))
    (ascending : left.Ascending)
    (succeeds : mergeFrames left right guard = .ok merged) :
    merged.Ascending ∧ merged.values model = (if truth then left else right).values model := by
  rw [mergeFrames] at succeeds
  obtain ⟨entries, folded, checked⟩ := Model.bind_eq_ok.1 succeeds
  obtain ⟨mergedAscending, visited, others⟩ :=
    mergeEntries_spec ascending OrderedMap.empty_ascending folded
  split at checked
  · cases checked
  · next noneExtra =>
      cases checked
      rw [List.find?_eq_none] at noneExtra
      refine ⟨mergedAscending, funext fun index => ?_⟩
      rw [Frame.values, Frame.values]
      cases inLeft : left.find? index with
      | none =>
          have notRight : right.find? index = none := by
            rw [OrderedMap.find?_eq_none_iff]
            intro member
            simpa [OrderedMap.contains, inLeft] using noneExtra index member
          have notMerged : merged.find? index = none :=
            others index (OrderedMap.find?_eq_none_iff.1 inLeft)
          cases truth <;> simp [inLeft, notRight, notMerged]
      | some value =>
          obtain ⟨other, inRight, inMerged⟩ := visited _ (OrderedMap.mem_of_find? inLeft)
          rw [inMerged, Option.map_some, Model.evaluate_ite guardHolds]
          cases truth <;> simp [inLeft, inRight]

private theorem mergeStacks_spec {lefts rights merged : List Frame}
    (guardHolds : model.eval [] guard = .ok (.bool truth))
    (ascending : ∀ frame ∈ lefts, frame.Ascending)
    (succeeds : mergeStacks guard lefts rights = .ok merged) :
    (∀ frame ∈ merged, frame.Ascending) ∧
      merged.map (Frame.values model) =
        (if truth then lefts else rights).map (Frame.values model) := by
  induction lefts generalizing rights merged with
  | nil =>
      cases rights with
      | nil =>
          cases succeeds
          exact ⟨by simp, by simp⟩
      | cons right rights => cases succeeds
  | cons left lefts inductionHypothesis =>
      cases rights with
      | nil => cases succeeds
      | cons right rights =>
          rw [List.forall_mem_cons] at ascending
          rw [mergeStacks] at succeeds
          obtain ⟨outer, outerMerged, rest⟩ := Model.bind_eq_ok.1 succeeds
          obtain ⟨inner, innerMerged, isMerged⟩ := Model.bind_eq_ok.1 rest
          cases isMerged
          obtain ⟨outerAscending, outerValues⟩ := inductionHypothesis ascending.2 outerMerged
          obtain ⟨innerAscending, innerValues⟩ :=
            mergeFrames_spec guardHolds ascending.1 innerMerged
          refine ⟨List.forall_mem_cons.2 ⟨innerAscending, outerAscending⟩, ?_⟩
          rw [List.map_cons, innerValues, outerValues]
          cases truth <;> rfl

end Frames

/-! ## Merged memories -/

/-- What holds of every memory of a run. -/
structure InOrder (interpretation : Interpretation) (history : History) (memory : Memory) :
    Prop where
  recorded : memory.Recorded history
  wellKeyed : memory.WellKeyed interpretation
  known : ∀ id region, memory.regions.find? id = some region →
    id.Known interpretation.vocabulary
  frames : ∀ frame ∈ memory.frames, frame.Ascending

/-- The memory holds what one of two memories holds, by the guard. -/
structure Chooses
    (interpretation : Interpretation)
    (guard : Term)
    (left right merged : Memory) :
    Prop where
  registers : merged.registers interpretation.model =
    (if interpretation.model.holds guard then left else right).registers interpretation.model
  contents : ∀ id place slot, id.Known interpretation.vocabulary →
    (merged.regionFor id).contents interpretation.model place slot =
      ((if interpretation.model.holds guard then left else right).regionFor id).contents
        interpretation.model place slot

variable {interpretation : Interpretation} {history : History} {guard : Term}
  {left right : Memory}

/-- Merged regions for the identities so far. -/
structure RegionsMerged
    (interpretation : Interpretation)
    (guard : Term)
    (left right : Memory)
    (history : History)
    (past : List RegionId)
    (regions : OrderedMap RegionId Region) :
    Prop where
  each : ∀ id region, regions.find? id = some region →
    id.Known interpretation.vocabulary ∧ region.Recorded history ∧
      Region.Chooses interpretation guard (left.regionFor id) (right.regionFor id) region
  all : ∀ id ∈ past, regions.find? id ≠ none

theorem RegionsMerged.insert {past : List RegionId} {regions : OrderedMap RegionId Region}
    (merged : RegionsMerged interpretation guard left right history past regions)
    {id : RegionId}
    {region : Region}
    (known : id.Known interpretation.vocabulary)
    (recorded : region.Recorded history)
    (chooses : Region.Chooses interpretation guard (left.regionFor id) (right.regionFor id)
      region) :
    RegionsMerged interpretation guard left right history (id :: past)
      (regions.insert id region) where
  each := by
    intro probe other found
    rw [OrderedMap.find?_insert] at found
    split at found
    · next here =>
        cases found
        subst here
        exact ⟨known, recorded, chooses⟩
    · exact merged.each probe other found
  all := by
    intro probe inPast
    rw [OrderedMap.find?_insert]
    split
    · simp
    · next different => exact merged.all probe ((List.mem_cons.1 inPast).resolve_left different)

theorem RegionsMerged.mono {newer : History} {past : List RegionId}
    {regions : OrderedMap RegionId Region}
    (merged : RegionsMerged interpretation guard left right history past regions)
    (extended : history.Extends newer) :
    RegionsMerged interpretation guard left right newer past regions where
  each := by
    intro id region found
    obtain ⟨known, recorded, chooses⟩ := merged.each id region found
    exact ⟨known, Region.Recorded.mono extended region recorded, chooses⟩
  all := merged.all

/-- Where no region was merged, neither memory has one. -/
theorem RegionsMerged.missing {past : List RegionId} {regions : OrderedMap RegionId Region}
    (merged : RegionsMerged interpretation guard left right history past regions)
    (all : ∀ id ∈ left.regions.unionKeys right.regions, id ∈ past)
    {id : RegionId}
    (notMerged : regions.find? id = none) :
    left.regionFor id = .empty id left.owner ∧ right.regionFor id = .empty id right.owner := by
  have notThere : id ∉ left.regions.unionKeys right.regions := fun member =>
    merged.all id (all id member) notMerged
  obtain ⟨notLeft, notRight⟩ := OrderedMap.not_mem_unionKeys.1 notThere
  simp [regionFor, notLeft, notRight]

/-- A merged memory is a choice between two. -/
theorem merge_records
    (guardStored : guard.Stored interpretation .bool)
    (leftInOrder : left.InOrder interpretation history)
    (rightInOrder : right.InOrder interpretation history)
    (owner : Owner) :
    Fresh.RecordsOk (left.merge right guard owner) history fun newer merged =>
      merged.InOrder interpretation newer ∧ Chooses interpretation guard left right merged := by
  have noRegions : RegionsMerged interpretation guard left right history [] .empty :=
    ⟨by simp, by simp⟩
  rw [merge]
  refine Fresh.recordsOk_check fun _ _ => Fresh.recordsOk_check fun frames framesMerged => ?_
  obtain ⟨framesAscending, registers⟩ :=
    mergeStacks_spec guardStored.truth.eval leftInOrder.frames framesMerged
  refine (Fresh.recordsOk_foldlM (RegionsMerged interpretation guard left right) ?_
    noRegions).bind ?_
  · intro newer past regions id member extended merged
    have known : id.Known interpretation.vocabulary := by
      cases inLeft : left.regions.find? id with
      | some region => exact leftInOrder.known id region inLeft
      | none =>
          cases inRight : right.regions.find? id with
          | some region => exact rightInOrder.known id region inRight
          | none => exact absurd member (OrderedMap.not_mem_unionKeys.2 ⟨inLeft, inRight⟩)
    obtain ⟨leftId, leftWellKeyed⟩ := leftInOrder.wellKeyed id known
    obtain ⟨rightId, rightWellKeyed⟩ := rightInOrder.wellKeyed id known
    refine (Region.merge_records guardStored (rightId.trans leftId.symm)
      (Region.Recorded.mono extended _ (leftInOrder.recorded id)) leftWellKeyed
      (Region.Recorded.mono extended _ (rightInOrder.recorded id)) rightWellKeyed owner).bind ?_
    rintro further region furtherExtended ⟨regionRecorded, chooses⟩
    exact Fresh.recordsOk_pure
      ((merged.mono furtherExtended).insert known regionRecorded chooses)
  · intro newer regions _ merged
    refine Fresh.recordsOk_pure ⟨⟨?_, ?_, ?_, framesAscending⟩, ?_, ?_⟩
    · intro id
      rw [regionFor]
      cases found : regions.find? id with
      | some region => exact (merged.each id region found).2.1
      | none => exact Region.empty_recorded id owner
    · intro id known
      rw [regionFor]
      cases found : regions.find? id with
      | some region =>
          obtain ⟨_, _, chooses⟩ := merged.each id region found
          exact ⟨chooses.id.trans (leftInOrder.wellKeyed id known).1, chooses.wellKeyed⟩
      | none => exact ⟨rfl, Region.empty_wellKeyed known owner⟩
    · exact fun id region found => (merged.each id region found).1
    · refine registers.trans ?_
      cases interpretation.model.holds guard <;> rfl
    · intro id place slot known
      rw [regionFor]
      cases found : regions.find? id with
      | some region =>
          obtain ⟨_, _, chooses⟩ := merged.each id region found
          rw [Option.getD_some, chooses.contents]
          cases interpretation.model.holds guard <;> rfl
      | none =>
          obtain ⟨leftEmpty, rightEmpty⟩ := merged.missing (by simp) found
          have anyOwner := fun other =>
            congrFun₂ (Region.contents_withOwner interpretation.model (.empty id other) owner)
              place slot
          rw [Option.getD_none]
          cases interpretation.model.holds guard with
          | true =>
              show _ = (left.regionFor id).contents interpretation.model place slot
              rw [leftEmpty]
              exact anyOwner left.owner
          | false =>
              show _ = (right.regionFor id).contents interpretation.model place slot
              rw [rightEmpty]
              exact anyOwner right.owner

/-! ## Memories of a run -/

theorem InOrder.mono {memory : Memory} {newer : History}
    (inOrder : memory.InOrder interpretation history)
    (extended : history.Extends newer) : memory.InOrder interpretation newer :=
  ⟨inOrder.recorded.mono extended, inOrder.wellKeyed, inOrder.known, inOrder.frames⟩

private theorem empty_inOrder (owner : Owner) : (empty owner).InOrder interpretation history :=
  ⟨empty_recorded owner, empty_wellKeyed owner, by simp [empty], by simp [empty]⟩

private theorem run_wellKeyed {memory : Memory} (wellKeyed : memory.WellKeyed interpretation)
    {operation : MemoryOp}
    (takesValues : operation.TakesValues interpretation.vocabulary) :
    (operation.run memory).Ensures fun after => after.WellKeyed interpretation := by
  cases operation with
  | allocate typeName => exact Fresh.ensures_pure wellKeyed
  | write region key value guard =>
      obtain ⟨known, keySorted, valueSorted, guardSorted⟩ := takesValues
      exact fun supply => (write_changes wellKeyed known keySorted.fits valueSorted.stored
        guardSorted.stored supply).wellKeyed
  | copyRange region range guard =>
      obtain ⟨known, sourceReference, isReference, sourceFrom, destinationFrom, destinationTo,
        guardSorted⟩ := takesValues
      refine (copyRange_changes wellKeyed known ⟨sourceReference, sourceFrom.stored,
        destinationFrom.stored, destinationTo.stored⟩ isReference guardSorted.stored).map ?_
      exact fun _ changes => changes.wellKeyed
  | overlay region members ends guard =>
      obtain ⟨known, membersKnown, ⟨mapType, keySort, rfl, hasKeySort⟩, sourceReference,
        isReference, guardSorted⟩ := takesValues
      refine (overlay_changes wellKeyed known membersKnown rfl
        (fun supports => (hasKeySort supports).symm) sourceReference isReference
        guardSorted.stored).map ?_
      exact fun _ changes => changes.wellKeyed

/-- The frames are as before, and every region has a known identity. -/
def Extended (vocabulary : Vocabulary) (before after : Memory) : Prop :=
  after.frames = before.frames ∧
    ∀ id region, after.regions.find? id = some region → id.Known vocabulary

private theorem setRegion_extended {vocabulary : Vocabulary} {memory : Memory}
    (allKnown : ∀ id region, memory.regions.find? id = some region → id.Known vocabulary)
    {id : RegionId}
    (known : id.Known vocabulary)
    (region : Region) : Extended vocabulary memory (memory.setRegion id region) := by
  refine ⟨rfl, ?_⟩
  intro probe other found
  rw [setRegion, OrderedMap.find?_insert] at found
  split at found
  · next here => exact here ▸ known
  · exact allKnown probe other found

private theorem settle_extended {vocabulary : Vocabulary} {memory : Memory}
    (allKnown : ∀ id region, memory.regions.find? id = some region → id.Known vocabulary)
    {id : RegionId}
    (known : id.Known vocabulary)
    (outcome : Except Fault Region) :
    Extended vocabulary memory (memory.settle id outcome).2 := by
  cases outcome <;> exact setRegion_extended allKnown known _

private theorem run_extended {vocabulary : Vocabulary} {memory : Memory}
    (allKnown : ∀ id region, memory.regions.find? id = some region → id.Known vocabulary)
    {operation : MemoryOp}
    (takesValues : operation.TakesValues vocabulary) :
    (operation.run memory).Ensures (Extended vocabulary memory) := by
  cases operation with
  | allocate typeName => exact Fresh.ensures_pure ⟨rfl, allKnown⟩
  | write region key value guard =>
      exact fun supply => setRegion_extended allKnown takesValues.1 _
  | copyRange region range guard => exact fun supply => settle_extended allKnown takesValues.1 _
  | overlay region members ends guard =>
      exact fun supply => settle_extended allKnown takesValues.1 _

theorem InOrder.run {memory : Memory} (inOrder : memory.InOrder interpretation history)
    {operation : MemoryOp}
    (takesValues : operation.TakesValues interpretation.vocabulary) :
    (operation.run memory).Records history fun newer after =>
      after.InOrder interpretation newer := by
  have recorded := run_records inOrder.recorded operation
  have wellKeyed := run_wellKeyed inOrder.wellKeyed takesValues
  have extended := run_extended inOrder.known takesValues
  refine ((recorded.and wellKeyed).and extended).imp ?_
  rintro newer after _ ⟨⟨afterRecorded, afterWellKeyed⟩, sameFrames, afterKnown⟩
  exact ⟨afterRecorded, afterWellKeyed, afterKnown, sameFrames ▸ inOrder.frames⟩

theorem InOrder.currentFrame {memory : Memory} (inOrder : memory.InOrder interpretation history) :
    memory.currentFrame.Ascending := by
  rw [Memory.currentFrame]
  cases isHead : memory.frames.head? with
  | none => exact OrderedMap.empty_ascending
  | some frame => exact inOrder.frames frame (List.mem_of_head? isHead)

private theorem InOrder.withFrames {memory : Memory}
    (inOrder : memory.InOrder interpretation history)
    {frames : List Frame}
    (ascending : ∀ frame ∈ frames, frame.Ascending) :
    ({ memory with frames } : Memory).InOrder interpretation history :=
  ⟨inOrder.recorded, inOrder.wellKeyed, inOrder.known, ascending⟩

theorem InOrder.setRegister {memory : Memory} (inOrder : memory.InOrder interpretation history)
    (index : Nat) (value : Term) :
    (memory.setRegister index value).InOrder interpretation history := by
  refine inOrder.withFrames ?_
  rw [List.forall_mem_cons]
  exact ⟨inOrder.currentFrame.insert, fun frame member =>
    inOrder.frames frame (List.mem_of_mem_tail member)⟩

theorem InOrder.withOwner {memory : Memory} (inOrder : memory.InOrder interpretation history)
    (owner : Owner) : ({ memory with owner } : Memory).InOrder interpretation history := by
  refine ⟨?_, ?_, inOrder.known, inOrder.frames⟩
  · intro id
    have recorded := inOrder.recorded id
    rw [regionFor] at recorded ⊢
    cases found : memory.regions.find? id with
    | some region => simpa [found] using recorded
    | none => exact Region.empty_recorded id owner
  · intro id known
    have wellKeyed := inOrder.wellKeyed id known
    rw [regionFor] at wellKeyed ⊢
    cases found : memory.regions.find? id with
    | some region => simpa [found] using wellKeyed
    | none => exact ⟨rfl, Region.empty_wellKeyed known owner⟩

/-! ## Runs -/

/-- The memories that exist at some point of a run, newest first. No step takes
one away. -/
inductive Run (vocabulary : Vocabulary) (model : Model) : List Memory → Supply → Prop
  | start (supply : Supply) : Run vocabulary model [] supply
  | create {memories : List Memory} {supply : Supply}
      (run : Run vocabulary model memories supply) :
      Run vocabulary model ((create.run supply).1 :: memories) (create.run supply).2
  | clone {memories : List Memory} {supply : Supply} {memory : Memory}
      (run : Run vocabulary model memories supply)
      (reached : memory ∈ memories) :
      Run vocabulary model ((memory.withNewOwner.run supply).1 :: memories)
        (memory.withNewOwner.run supply).2
  | update {memories : List Memory} {supply : Supply} {memory : Memory}
      (run : Run vocabulary model memories supply)
      (reached : memory ∈ memories)
      (operation : MemoryOp)
      (takesValues : operation.TakesValues vocabulary) :
      Run vocabulary model (((operation.run memory).run supply).1 :: memories)
        ((operation.run memory).run supply).2
  | setRegister {memories : List Memory} {supply : Supply} {memory : Memory}
      (run : Run vocabulary model memories supply)
      (reached : memory ∈ memories)
      (index : Nat)
      (value : Term) :
      Run vocabulary model (memory.setRegister index value :: memories) supply
  | pushFrame {memories : List Memory} {supply : Supply} {memory : Memory}
      (run : Run vocabulary model memories supply)
      (reached : memory ∈ memories) :
      Run vocabulary model (memory.pushFrame :: memories) supply
  | popFrame {memories : List Memory} {supply : Supply} {memory : Memory}
      (run : Run vocabulary model memories supply)
      (reached : memory ∈ memories) :
      Run vocabulary model (memory.popFrame :: memories) supply
  | merge {memories : List Memory} {supply after : Supply} {left right merged : Memory}
      {guard : Term} {truth : Bool} {owner : Owner}
      (run : Run vocabulary model memories supply)
      (leftReached : left ∈ memories)
      (rightReached : right ∈ memories)
      (decides : guard.Decides vocabulary model truth)
      (succeeds : (left.merge right guard owner).run.run supply = (.ok merged, after)) :
      Run vocabulary model (merged :: memories) after
  | refuse {memories : List Memory} {supply after : Supply} {left right : Memory}
      {guard : Term} {truth : Bool} {owner : Owner} {fault : Fault}
      (run : Run vocabulary model memories supply)
      (leftReached : left ∈ memories)
      (rightReached : right ∈ memories)
      (decides : guard.Decides vocabulary model truth)
      (refused : (left.merge right guard owner).run.run supply = (.error fault, after)) :
      Run vocabulary model memories after

/-- A merge adds the merged memory, or nothing if it is refused. -/
private theorem allInOrder_merge {memories : List Memory} {supply after : Supply}
    (all : AllHold (InOrder interpretation) memories supply)
    (leftReached : left ∈ memories)
    (rightReached : right ∈ memories)
    (guardStored : guard.Stored interpretation .bool)
    {owner : Owner}
    {outcome : Except Fault Memory}
    (ran : (left.merge right guard owner).run.run supply = (outcome, after)) :
    AllHold (InOrder interpretation) (outcome.toOption.toList ++ memories) after := by
  have added := all.addOutcome (fun extended inOrder => inOrder.mono extended)
    fun history inOrder => (merge_records guardStored (inOrder left leftReached)
      (inOrder right rightReached) owner).imp fun _ _ _ holds value isOk => (holds value isOk).1
  rw [ran] at added
  exact added

theorem Run.allInOrder {memories : List Memory} {supply : Supply}
    (run : Run interpretation.vocabulary interpretation.model memories supply) :
    AllHold (InOrder interpretation) memories supply := by
  have mono : ∀ {older newer : History} {memory : Memory}, older.Extends newer →
      memory.InOrder interpretation older → memory.InOrder interpretation newer :=
    fun extended inOrder => inOrder.mono extended
  induction run with
  | start supply => exact .start supply
  | create run inductionHypothesis =>
      exact inductionHypothesis.add mono fun history _ supply sameNodes =>
        ⟨history, .refl history, sameNodes.symm, empty_inOrder _⟩
  | clone run reached inductionHypothesis =>
      exact inductionHypothesis.add mono fun history inOrder supply sameNodes =>
        ⟨history, .refl history, sameNodes.symm, (inOrder _ reached).withOwner _⟩
  | update run reached operation takesValues inductionHypothesis =>
      exact inductionHypothesis.add mono fun history inOrder => (inOrder _ reached).run takesValues
  | setRegister run reached index value inductionHypothesis =>
      obtain ⟨history, sameNodes, inOrder⟩ := inductionHypothesis
      refine ⟨history, sameNodes, List.forall_mem_cons.2 ⟨?_, inOrder⟩⟩
      exact (inOrder _ reached).setRegister index value
  | pushFrame run reached inductionHypothesis =>
      obtain ⟨history, sameNodes, inOrder⟩ := inductionHypothesis
      refine ⟨history, sameNodes, List.forall_mem_cons.2 ⟨?_, inOrder⟩⟩
      refine (inOrder _ reached).withFrames ?_
      exact List.forall_mem_cons.2 ⟨OrderedMap.empty_ascending, (inOrder _ reached).frames⟩
  | popFrame run reached inductionHypothesis =>
      obtain ⟨history, sameNodes, inOrder⟩ := inductionHypothesis
      refine ⟨history, sameNodes, List.forall_mem_cons.2 ⟨?_, inOrder⟩⟩
      refine (inOrder _ reached).withFrames ?_
      exact fun frame member => (inOrder _ reached).frames frame (List.mem_of_mem_tail member)
  | merge run leftReached rightReached decides succeeds inductionHypothesis =>
      exact allInOrder_merge inductionHypothesis leftReached rightReached decides.denotes.stored
        succeeds
  | refuse run leftReached rightReached decides refused inductionHypothesis =>
      exact allInOrder_merge inductionHypothesis leftReached rightReached decides.denotes.stored
        refused

/-- Merging two memories of a run gives a memory whose registers and reads
evaluate like those of the left one if the guard is true, and like those of the
right one if it is false. -/
theorem merge_evaluates_chosen
    (vocabulary : Vocabulary)
    (model : Model)
    (admissible : model.Admissible vocabulary)
    (memories : List Memory)
    (supply : Supply)
    (run : Run vocabulary model memories supply)
    (left right : Memory)
    (leftReached : left ∈ memories)
    (rightReached : right ∈ memories)
    (guard : Term)
    (truth : Bool)
    (decides : guard.Decides vocabulary model truth)
    (owner : Owner)
    (merged : Memory)
    (after : Supply)
    (succeeds : (left.merge right guard owner).run.run supply = (.ok merged, after)) :
    merged.registers model = (if truth then left else right).registers model ∧
      ∀ id key, id.Known vocabulary → key.WellSorted vocabulary id →
        ∃ mergedTerm chosenTerm value,
          merged.read id key = .ok mergedTerm ∧
            (if truth then left else right).read id key = .ok chosenTerm ∧
              model.evaluate mergedTerm = .ok (some value) ∧
                model.evaluate chosenTerm = .ok (some value) := by
  let interpretation : Interpretation := ⟨vocabulary, model, admissible⟩
  have denotes : guard.Denotes interpretation .closed .bool (.bool truth) := decides.denotes
  obtain ⟨history, sameNodes, inOrder⟩ : AllHold (InOrder interpretation) memories supply :=
    Run.allInOrder run
  obtain ⟨newer, extended, _, merges⟩ := merge_records denotes.stored (inOrder left leftReached)
    (inOrder right rightReached) owner supply sameNodes
  rw [succeeds] at merges
  obtain ⟨mergedInOrder, registers, contents⟩ := merges merged rfl
  rw [denotes.holds] at registers
  refine ⟨registers, ?_⟩
  intro id key known keySorted
  have chosenReached : (if truth then left else right) ∈ memories := by
    cases truth
    · exact rightReached
    · exact leftReached
  obtain ⟨mergedTerm, isMerged, mergedValue⟩ :=
    mergedInOrder.wellKeyed.read known keySorted
  obtain ⟨chosenTerm, isChosen, chosenValue⟩ :=
    (inOrder _ chosenReached).wellKeyed.read known keySorted
  refine ⟨mergedTerm, chosenTerm, _, isMerged, isChosen, mergedValue, ?_⟩
  rw [contents id _ _ known, denotes.holds]
  exact chosenValue

/-- Sets a field of an input object. -/
def setCount (number : Int32) : MemoryOp :=
  .write (.field "count" .i32) ⟨.const (.input 3), none⟩ (.const (.i32 number))
    (.const (.bool true))

private theorem setCount_takesValues (number : Int32) :
    (setCount number).TakesValues ⟨fun _ _ => True, fun _ _ => True⟩ :=
  ⟨⟨rfl, trivial⟩, ⟨Term.isValue_const (by decide), trivial⟩,
    Term.isValue_const ⟨Constant.noConfusion, rfl⟩, Term.isValue_const (by decide)⟩

/-- A memory with a first write, and one with a second write on top of it. -/
def forked : Fresh (Memory × Memory) := do
  let shared ← (setCount 5).run (← create)
  return ((← (setCount 7).run shared), shared)

theorem merge_forked :
    ∃ merged after term, ((forked.run Supply.initial).1.1.merge (forked.run Supply.initial).1.2
          (.var "later" .bool) ⟨2⟩).run.run (forked.run Supply.initial).2 = (.ok merged, after) ∧
      merged.read (.field "count" .i32) ⟨.const (.input 3), none⟩ = .ok term ∧
        Model.empty.evaluate term = .ok (some (.i32 5)) := by
  let vocabulary : Vocabulary := ⟨fun _ _ => True, fun _ _ => True⟩
  have created : Run vocabulary Model.empty [empty ⟨0⟩] ⟨0, 1, 0⟩ := .create (.start .initial)
  have shared := created.update List.mem_cons_self (setCount 5) (setCount_takesValues 5)
  have changed := shared.update List.mem_cons_self (setCount 7) (setCount_takesValues 7)
  have decides : (Term.var "later" .bool).Decides vocabulary Model.empty false :=
    ⟨by simp [Term.WellSorted, vocabulary, ValueSort.isArray], rfl, by decide⟩
  obtain ⟨_, reads⟩ := merge_evaluates_chosen vocabulary Model.empty (Model.empty_admissible _) _ _
    changed _ _ List.mem_cons_self (List.mem_cons_of_mem _ List.mem_cons_self)
    (.var "later" .bool) false decides ⟨2⟩ _ _ rfl
  obtain ⟨mergedTerm, chosenTerm, value, isMerged, isChosen, mergedValue, chosenValue⟩ :=
    reads (.field "count" .i32) ⟨.const (.input 3), none⟩ ⟨rfl, trivial⟩
      ⟨Term.isValue_const (by decide), trivial⟩
  refine ⟨_, _, mergedTerm, rfl, isMerged, ?_⟩
  cases isChosen
  rw [mergedValue, ← chosenValue]
  rfl

/-- A new memory, and its merge with one in which a field is set after a merge
whose guard compares arrays. -/
def setAfterMerge : ExceptT Fault Fresh (Memory × Memory) := do
  let start ← create
  let written ← (setCount 7).run start
  let joined ← written.merge start Term.comparedArrays ⟨1⟩
  let changed ← (setCount 9).run joined
  let merged ← changed.merge start (.var "later" .bool) ⟨2⟩
  return (start, merged)

/-- The last guard chooses the new memory, where the field has its default value.
In the merged memory the older write is under both guards, and the read of the
field asks for the first of them, which has no value. -/
theorem merge_setAfterMerge :
    Term.comparedArrays.WellSorted ⟨fun _ _ => True, fun _ _ => True⟩ [] ∧
    Term.comparedArrays.sort = .bool ∧
    Model.empty.Admissible ⟨fun _ _ => True, fun _ _ => True⟩ ∧
    (Term.var "later" .bool).Decides ⟨fun _ _ => True, fun _ _ => True⟩ Model.empty false ∧
    ∃ start merged after startTerm mergedTerm,
      setAfterMerge.run.run Supply.initial = (.ok (start, merged), after) ∧
      start.read (.field "count" .i32) ⟨.const (.input 3), none⟩ = .ok startTerm ∧
      merged.read (.field "count" .i32) ⟨.const (.input 3), none⟩ = .ok mergedTerm ∧
      Model.empty.evaluate startTerm = .ok (some (.i32 0)) ∧
      Model.empty.evaluate mergedTerm = .ok none := by
  refine ⟨Term.comparedArrays_wellSorted fun _ => trivial, rfl, Model.empty_admissible _, ?_, ?_⟩
  · exact ⟨by simp [Term.WellSorted, ValueSort.isArray], rfl, by decide⟩
  · exact ⟨_, _, _, _, _, rfl, rfl, rfl, rfl, rfl⟩

end Memory

end SymbolicHeap
