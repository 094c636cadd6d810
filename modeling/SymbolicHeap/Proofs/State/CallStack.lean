import Mathlib.Logic.Relation
import SymbolicHeap.Proofs.Heap.Operations
import SymbolicHeap.Proofs.State.Steps

/-!
Contract: the call stack, the register frames and the path of a state agree.

Every operation updates these on its own, and a merge takes the path of one
state and the call stack of the other. They agree in every active state all the
same, so two states with one call stack have equally many register frames.

Owns:
- paths that count their steps, numbered allocations and linked call stacks;
- the steps of one state, the runs over states and what both of them preserve;
- the faults that a merge in a run cannot have.
-/

namespace SymbolicHeap

/-! ## Paths -/

namespace Path

/-- The nodes before this one, the latest first. -/
def ancestors : Path → List Path
  | .start _ => []
  | .step _ _ earlier => earlier :: earlier.ancestors

/-- This node and all before it count the nodes that led to them. -/
def Counted (path : Path) : Prop :=
  ∀ node ∈ path :: path.ancestors, node.depth = node.ancestors.length

private theorem start_counted (location : Location) : (start location).Counted := by
  intro node member
  rw [ancestors, List.mem_singleton] at member
  rw [member]
  rfl

theorem Counted.advance {path : Path} (counted : path.Counted) (location : Location) :
    (path.advance location).Counted := by
  intro node member
  rw [Path.advance, ancestors, List.mem_cons] at member
  rcases member with rfl | earlier
  · show path.depth + 1 = path.ancestors.length + 1
    rw [counted path List.mem_cons_self]
  · exact counted node earlier

private theorem join_cases {left right joined : Path} (joins : left.join right = some joined) :
    left.location = right.location ∧ (joined = left ∨ joined = right) := by
  unfold join at joins
  split at joins
  · cases joins
  · next same =>
      refine ⟨not_not.1 same, ?_⟩
      split at joins
      · exact .inl (Option.some.inj joins).symm
      · exact .inr (Option.some.inj joins).symm

end Path

/-! ## Allocations -/

/-- At most that many objects were allocated; exactly the addresses handed out
have a type. -/
structure Memory.Numbered (allocations : Nat) (memory : Memory) : Prop where
  first : 1 ≤ memory.nextAddress
  counter : memory.nextAddress.toNat ≤ allocations + 1
  types : ∀ address, (memory.typeOf? address).isSome = true ↔
    1 ≤ address ∧ address < memory.nextAddress

/-- How many objects the operation allocates. -/
def MemoryOp.allocations : MemoryOp → Nat
  | .allocate _ => 1
  | .write .. | .copyRange .. | .overlay .. => 0

namespace Memory

variable {allocations : Nat} {memory : Memory}

private theorem empty_numbered (owner : Owner) : (empty owner).Numbered 0 where
  first := UInt32.le_refl 1
  counter := Nat.le_refl 1
  types := by
    intro address
    have noType : (empty owner).typeOf? address = none := rfl
    have next : (empty owner).nextAddress = 1 := rfl
    rw [noType, next, UInt32.le_iff_toNat_le, UInt32.lt_iff_toNat_lt]
    simp only [Option.isSome_none, Bool.false_eq_true, false_iff]
    omega

theorem Numbered.mono (numbered : memory.Numbered allocations) {more : Nat}
    (atLeast : allocations ≤ more) : memory.Numbered more where
  first := numbered.first
  counter := by
    have counter := numbered.counter
    omega
  types := numbered.types

/-- Only the counter and the types matter. -/
theorem Numbered.congr {other : Memory} (numbered : memory.Numbered allocations)
    (sameTypes : other.types = memory.types)
    (sameNext : other.nextAddress = memory.nextAddress) : other.Numbered allocations where
  first := sameNext ▸ numbered.first
  counter := sameNext ▸ numbered.counter
  types := by
    intro address
    rw [typeOf?, sameTypes, sameNext]
    exact numbered.types address

theorem Numbered.allocate (numbered : memory.Numbered allocations)
    (bounded : allocations + 1 < UInt32.size - 1) (typeName : String) :
    (memory.allocate typeName).2.Numbered (allocations + 1) := by
  unfold UInt32.size at bounded
  have counter := numbered.counter
  have first := UInt32.le_iff_toNat_le.1 numbered.first
  have next : (memory.nextAddress + 1).toNat = memory.nextAddress.toNat + 1 := by
    rw [UInt32.toNat_add, UInt32.toNat_one, Nat.mod_eq_of_lt]
    omega
  refine ⟨?_, ?_, ?_⟩
  · show 1 ≤ memory.nextAddress + 1
    rw [UInt32.le_iff_toNat_le, next]
    omega
  · show (memory.nextAddress + 1).toNat ≤ allocations + 1 + 1
    omega
  · intro address
    show ((memory.types.insert memory.nextAddress typeName).find? address).isSome = true ↔
      1 ≤ address ∧ address < memory.nextAddress + 1
    have before := numbered.types address
    rw [UInt32.le_iff_toNat_le, UInt32.lt_iff_toNat_lt] at before ⊢
    rw [OrderedMap.find?_insert, next]
    split
    · next isNew =>
        rw [isNew]
        simp only [Option.isSome_some, true_iff]
        omega
    · next notNew =>
        have apart : address.toNat ≠ memory.nextAddress.toNat := fun same =>
          notNew (UInt32.toNat_inj.1 same)
        rw [show memory.types.find? address = memory.typeOf? address from rfl, before]
        omega

/-- An operation allocates an object, or exchanges regions and nothing else. -/
private theorem run_cases (memory : Memory) (operation : MemoryOp) (supply : Supply) :
    (∃ typeName, operation = .allocate typeName ∧
      ((operation.run memory).run supply).1 = (memory.allocate typeName).2) ∨
    operation.allocations = 0 ∧
      ∃ regions, ((operation.run memory).run supply).1 = { memory with regions } := by
  have settled : ∀ id outcome,
      ∃ regions, (memory.settle id outcome).2 = { memory with regions } := by
    intro id outcome
    cases outcome <;> exact ⟨_, rfl⟩
  cases operation with
  | allocate typeName => exact .inl ⟨typeName, rfl, rfl⟩
  | write region key value guard => exact .inr ⟨rfl, _, rfl⟩
  | copyRange region range guard => exact .inr ⟨rfl, settled region _⟩
  | overlay region members ends guard => exact .inr ⟨rfl, settled region _⟩

theorem Numbered.run (numbered : memory.Numbered allocations) (operation : MemoryOp)
    (bounded : allocations + operation.allocations < UInt32.size - 1) (supply : Supply) :
    ((operation.run memory).run supply).1.Numbered (allocations + operation.allocations) := by
  obtain ⟨typeName, rfl, isRun⟩ | ⟨none, regions, isRun⟩ := run_cases memory operation supply
  · rw [isRun]
    exact numbered.allocate bounded typeName
  · rw [isRun, none]
    exact numbered.congr rfl rfl

private theorem run_frames (memory : Memory) (operation : MemoryOp) (supply : Supply) :
    ((operation.run memory).run supply).1.frames = memory.frames := by
  obtain ⟨typeName, rfl, isRun⟩ | ⟨_, regions, isRun⟩ := run_cases memory operation supply
  · rw [isRun]
    rfl
  · rw [isRun]

private theorem length_setRegister (nonempty : memory.frames ≠ []) (index : Nat) (value : Term) :
    (memory.setRegister index value).frames.length = memory.frames.length := by
  rw [setRegister, List.length_cons, List.length_tail]
  have positive := List.length_pos_iff.2 nonempty
  omega

/-! ## Merged memories -/

private theorem length_mergeStacks {guard : Term} {lefts rights merged : List Frame}
    (merges : mergeStacks guard lefts rights = .ok merged) : merged.length = lefts.length := by
  induction lefts generalizing rights merged with
  | nil =>
      cases rights with
      | nil =>
          cases merges
          rfl
      | cons right rights => cases merges
  | cons left lefts inductionHypothesis =>
      cases rights with
      | nil => cases merges
      | cons right rights =>
          obtain ⟨outer, mergesOuter, rest⟩ := Model.bind_eq_ok.1 merges
          obtain ⟨frame, _, isMerged⟩ := Model.bind_eq_ok.1 rest
          rw [← Model.pure_eq_ok.1 isMerged, List.length_cons, List.length_cons,
            inductionHypothesis mergesOuter]

/-- A merged memory has the frames and the objects of the left one. -/
private theorem merge_outline {left right merged : Memory} {guard : Term} {owner : Owner}
    {supply after : Supply}
    (succeeds : (left.merge right guard owner).run.run supply = (.ok merged, after)) :
    merged.frames.length = left.frames.length ∧ merged.types = left.types ∧
      merged.nextAddress = left.nextAddress := by
  rw [merge] at succeeds
  obtain ⟨_, _, _, succeeds⟩ := Fresh.run_bind_eq_ok succeeds
  obtain ⟨frames, _, merges, succeeds⟩ := Fresh.run_bind_eq_ok succeeds
  obtain ⟨_, _, _, succeeds⟩ := Fresh.run_bind_eq_ok succeeds
  cases succeeds
  exact ⟨length_mergeStacks (Fresh.run_lift_eq_ok merges).1, rfl, rfl⟩

end Memory

/-! ## Faults that do not occur -/

section Checks

variable {α β : Type} {fault : Fault}

private theorem Fault.bind_ne {first : Except Fault α} {next : α → Except Fault β}
    (firstDiffers : first ≠ .error fault)
    (nextDiffers : ∀ value, next value ≠ .error fault) : first >>= next ≠ .error fault := by
  cases first with
  | error other =>
      intro fails
      cases fails
      exact firstDiffers rfl
  | ok value => exact nextDiffers value

private theorem Fault.foldlM_ne {step : β → α → Except Fault β}
    (each : ∀ value item, step value item ≠ .error fault) (items : List α) (start : β) :
    items.foldlM step start ≠ .error fault := by
  induction items generalizing start with
  | nil => nofun
  | cons item rest inductionHypothesis =>
      rw [List.foldlM_cons]
      exact Fault.bind_ne (each start item) inductionHypothesis

end Checks

namespace Fresh

variable {α β : Type} {fault : Fault}

/-- Whatever identities are handed out, the computation does not end in this
fault. -/
def Avoids (fault : Fault) (action : ExceptT Fault Fresh α) : Prop :=
  ∀ supply, (action.run.run supply).1 ≠ .error fault

private theorem avoids_fresh (action : Fresh α) : Avoids fault (liftM action) := by
  intro supply fails
  cases fails

private theorem avoids_throw (other : Fault) (differs : other ≠ fault) :
    Avoids fault (throw other : ExceptT Fault Fresh α) := by
  intro supply fails
  cases fails
  exact differs rfl

private theorem avoids_check {check : Except Fault α} (differs : check ≠ .error fault) :
    Avoids fault (liftM check) := by
  intro supply fails
  apply differs
  cases check with
  | error other =>
      cases fails
      rfl
  | ok value => cases fails

theorem Avoids.bind {first : ExceptT Fault Fresh α} {next : α → ExceptT Fault Fresh β}
    (firstAvoids : Avoids fault first)
    (nextAvoids : ∀ value, Avoids fault (next value)) : Avoids fault (first >>= next) := by
  intro supply
  rw [ExceptT.run_bind, StateT.run_bind]
  have firstDiffers := firstAvoids supply
  rcases ran : first.run.run supply with ⟨outcome, middle⟩
  rw [ran] at firstDiffers
  cases outcome with
  | error other =>
      intro fails
      cases fails
      exact firstDiffers rfl
  | ok value => exact nextAvoids value middle

private theorem avoids_foldlM {step : β → α → ExceptT Fault Fresh β}
    (each : ∀ value item, Avoids fault (step value item)) (items : List α) (start : β) :
    Avoids fault (items.foldlM step start) := by
  induction items generalizing start with
  | nil => exact avoids_fresh (pure start)
  | cons item rest inductionHypothesis =>
      rw [List.foldlM_cons]
      exact (each start item).bind inductionHypothesis

end Fresh

private theorem RegionId.defaultValue_ne_merge (region : RegionId) (conflict : MergeConflict) :
    region.defaultValue ≠ .error (.merge conflict) := by
  unfold RegionId.defaultValue
  cases region.valueSort <;> nofun

private theorem Region.merge_avoids (left right : Region) (guard : Term) (owner : Owner)
    (conflict : MergeConflict) :
    Fresh.Avoids (.merge conflict) (left.merge right guard owner) := by
  rw [Region.merge]
  apply Fresh.Avoids.bind
  · apply Fresh.avoids_foldlM
    intro objects address
    apply Fresh.Avoids.bind
    · rw [mergeObjects]
      apply (Fresh.avoids_check (left.id.defaultValue_ne_merge conflict)).bind
      intro fallback
      exact (Fresh.avoids_fresh _).bind fun updates => Fresh.avoids_fresh (pure _)
    · intro object
      exact Fresh.avoids_fresh (pure _)
  · intro objects
    exact (Fresh.avoids_fresh _).bind fun input => Fresh.avoids_fresh (pure _)

private theorem PathCondition.merge_ne_frames (left right : PathCondition) (guard : Term) :
    left.merge right guard ≠ .error (.merge .frames) := by
  unfold PathCondition.merge
  split
  · nofun
  · split <;> nofun

namespace Memory

private theorem mergeFrames_ne_frames (left right : Frame) (guard : Term) :
    mergeFrames left right guard ≠ .error (.merge .frames) := by
  rw [mergeFrames]
  apply Fault.bind_ne
  · apply Fault.foldlM_ne
    intro merged register
    split <;> nofun
  · intro merged
    split <;> nofun

private theorem mergeStacks_ne_frames {guard : Term} {lefts rights : List Frame}
    (sameHeight : lefts.length = rights.length) :
    mergeStacks guard lefts rights ≠ .error (.merge .frames) := by
  induction lefts generalizing rights with
  | nil =>
      rw [List.length_eq_zero_iff.1 sameHeight.symm]
      nofun
  | cons left lefts inductionHypothesis =>
      cases rights with
      | nil => cases sameHeight
      | cons right rights =>
          rw [mergeStacks]
          apply Fault.bind_ne (inductionHypothesis (Nat.succ.inj sameHeight))
          intro outer
          apply Fault.bind_ne (mergeFrames_ne_frames left right guard)
          nofun

private theorem merge_avoids_frames {left right : Memory}
    (sameHeight : left.frames.length = right.frames.length) (guard : Term) (owner : Owner) :
    Fresh.Avoids (.merge .frames) (left.merge right guard owner) := by
  have agrees : checkMergeable left right ≠ .error (.merge .frames) := by
    unfold checkMergeable
    rw [if_neg (not_not.2 sameHeight)]
    split
    · nofun
    · split <;> nofun
  rw [merge]
  apply (Fresh.avoids_check agrees).bind
  intro _
  apply (Fresh.avoids_check (mergeStacks_ne_frames sameHeight)).bind
  intro frames
  apply Fresh.Avoids.bind
  · apply Fresh.avoids_foldlM
    intro regions id
    apply (Region.merge_avoids _ _ guard owner .frames).bind
    intro region
    exact Fresh.avoids_fresh (pure _)
  · intro regions
    exact Fresh.avoids_fresh (pure _)

end Memory

namespace State

/-! ## Call stacks -/

/-- Every call returns into the method below it. The entry method, at the
bottom, returns nowhere. -/
def Linked : List CallFrame → Prop
  | [] => False
  | [entry] => entry.returnSite = none
  | frame :: caller :: outer =>
      (∃ site, frame.returnSite = some site ∧ site.method = caller.method) ∧
        Linked (caller :: outer)

/-- The call stack is linked, every call has its register frame, and the state
is in the method of the innermost call. -/
structure CallDiscipline (state : State) : Prop where
  linked : Linked state.callStack
  frames : state.memory.frames.length = state.callStack.length
  location : state.callStack.head?.map CallFrame.method = some state.location.method

theorem Linked.push {frames : List CallFrame} {method : String} {site : Location}
    (linked : Linked frames)
    (returns : frames.head?.map CallFrame.method = some site.method) :
    Linked (⟨method, some site⟩ :: frames) := by
  cases frames with
  | nil => exact linked.elim
  | cons caller outer => exact ⟨⟨site, rfl, (Option.some.inj returns).symm⟩, linked⟩

/-- Where a call returns to a site, its caller is the method of the site. -/
theorem Linked.pop {frames : List CallFrame} {site : Location} (linked : Linked frames)
    (returns : frames.head?.bind CallFrame.returnSite = some site) :
    Linked frames.tail ∧ frames.tail.head?.map CallFrame.method = some site.method := by
  cases frames with
  | nil => exact linked.elim
  | cons frame outer =>
      cases outer with
      | nil =>
          have noSite : frame.returnSite = none := linked
          have isSite : frame.returnSite = some site := returns
          rw [noSite] at isSite
          cases isSite
      | cons caller outer =>
          obtain ⟨⟨_, isSite, sameMethod⟩, callersLinked⟩ := linked
          have same := Option.some.inj (isSite.symm.trans returns)
          exact ⟨callersLinked, congrArg some (same ▸ sameMethod).symm⟩

/-! ## Steps -/

/-- One step of a state, with the number of objects that it allocates. Memory
operations and registers are reached through the memory of the state, and a step
may draw identities from any supply. -/
inductive Step : State → Nat → State → Prop where
  | advance {state : State} (statement : Nat) : Step state 0 (state.advance statement)
  | call {state called : State} {method : String} {returnStatement : Nat}
      (succeeds : state.call method returnStatement = .ok called) : Step state 0 called
  | returnFromMethod {state returned : State}
      (succeeds : state.returnFromMethod = .ok returned) : Step state 0 returned
  | terminate {state : State} (reason : Termination) : Step state 0 (state.terminate reason)
  | allocate {state allocated : State} {typeName : String} {address : Term}
      (succeeds : state.allocate typeName = .ok (address, allocated)) : Step state 1 allocated
  | addConstraint {state extended : State} {constraint : Term}
      (succeeds : state.addConstraint constraint = .ok extended) : Step state 0 extended
  | addModel {state : State} (model : Model) : Step state 0 (state.addModel model)
  | forkPositive {state positive negative : State} {condition : Term} {supply after : Supply}
      (succeeds : (state.fork condition).run.run supply = (.ok (positive, negative), after)) :
      Step state 0 positive
  | forkNegative {state positive negative : State} {condition : Term} {supply after : Supply}
      (succeeds : (state.fork condition).run.run supply = (.ok (positive, negative), after)) :
      Step state 0 negative
  | useMemory {state : State} (operation : MemoryOp) (supply : Supply) :
      Step state operation.allocations
        { state with memory := ((operation.run state.memory).run supply).1 }
  | setRegister {state : State} (index : Nat) (value : Term) :
      Step state 0 { state with memory := state.memory.setRegister index value }

/-- What every state of a run keeps, with the number of objects allocated in
the run. -/
structure Tracked (allocations : Nat) (state : State) : Prop where
  calls : state.status = .active → state.CallDiscipline
  path : state.path.Counted
  memory : state.memory.Numbered allocations

variable {allocations used : Nat} {state next : State}

private theorem create_tracked (entry : String) (supply : Supply) :
    ((create entry).run supply).1.Tracked 0 where
  calls := fun _ => ⟨rfl, rfl, rfl⟩
  path := Path.start_counted ⟨entry, 0⟩
  memory := (Memory.empty_numbered (Fresh.owner.run supply).1).congr rfl rfl

theorem Tracked.mono (tracked : state.Tracked allocations) {more : Nat}
    (atLeast : allocations ≤ more) : state.Tracked more :=
  ⟨tracked.calls, tracked.path, tracked.memory.mono atLeast⟩

/-- The same calls, the same path and the same allocations. Conditions, models
and regions are of no concern. -/
structure SameControl (other state : State) : Prop where
  status : other.status = state.status
  callStack : other.callStack = state.callStack
  path : other.path = state.path
  frames : other.memory.frames = state.memory.frames
  types : other.memory.types = state.memory.types
  nextAddress : other.memory.nextAddress = state.memory.nextAddress

theorem Tracked.congr {other : State} (tracked : state.Tracked allocations)
    (same : other.SameControl state) : other.Tracked allocations := by
  refine ⟨?_, ?_, tracked.memory.congr same.types same.nextAddress⟩
  · intro active
    have discipline := tracked.calls (same.status ▸ active)
    refine ⟨?_, ?_, ?_⟩
    · rw [same.callStack]
      exact discipline.linked
    · rw [same.callStack, same.frames]
      exact discipline.frames
    · rw [same.callStack, location, same.path]
      exact discipline.location
  · rw [same.path]
    exact tracked.path

private theorem addConstraint_sameControl {constraint : Term}
    (succeeds : state.addConstraint constraint = .ok next) : next.SameControl state := by
  rw [(addConstraint_cases succeeds).1]
  exact ⟨rfl, rfl, rfl, rfl, rfl, rfl⟩

theorem SameControl.trans {other : State} (laterSame : next.SameControl state)
    (same : state.SameControl other) : next.SameControl other :=
  ⟨laterSame.status.trans same.status, laterSame.callStack.trans same.callStack,
    laterSame.path.trans same.path, laterSame.frames.trans same.frames,
    laterSame.types.trans same.types, laterSame.nextAddress.trans same.nextAddress⟩

private theorem fork_sameControl {condition : Term} {supply after : Supply}
    {positive negative : State}
    (succeeds : (state.fork condition).run.run supply = (.ok (positive, negative), after)) :
    positive.SameControl state ∧ negative.SameControl state := by
  have copy_sameControl : ∀ copy : State, copy.IsCopyOf state → copy.SameControl state := by
    rintro copy ⟨_, _, rfl⟩
    exact ⟨rfl, rfl, rfl, rfl, rfl, rfl⟩
  obtain ⟨_, first, second, isFirst, isSecond, firstExtended, secondExtended⟩ :=
    fork_cases succeeds
  exact ⟨(addConstraint_sameControl firstExtended).trans (copy_sameControl first isFirst),
    (addConstraint_sameControl secondExtended).trans (copy_sameControl second isSecond)⟩

theorem Tracked.call {method : String} {returnStatement : Nat}
    (tracked : state.Tracked allocations)
    (succeeds : state.call method returnStatement = .ok next) : next.Tracked allocations := by
  obtain ⟨active, rfl⟩ := call_cases succeeds
  have discipline := tracked.calls active
  refine ⟨fun _ => ⟨discipline.linked.push discipline.location, ?_, rfl⟩,
    tracked.path.advance _, tracked.memory.congr rfl rfl⟩
  exact congrArg (· + 1) discipline.frames

theorem Tracked.returnFromMethod (tracked : state.Tracked allocations)
    (succeeds : state.returnFromMethod = .ok next) : next.Tracked allocations := by
  obtain ⟨active, ⟨site, isSite, rfl⟩ | ⟨_, rfl⟩⟩ := returnFromMethod_cases succeeds
  · have discipline := tracked.calls active
    obtain ⟨callersLinked, sameMethod⟩ := discipline.linked.pop isSite
    refine ⟨fun _ => ⟨callersLinked, ?_, sameMethod⟩, tracked.path.advance site,
      tracked.memory.congr rfl rfl⟩
    show state.memory.frames.tail.length = state.callStack.tail.length
    rw [List.length_tail, List.length_tail, discipline.frames]
  · refine ⟨?_, tracked.path, tracked.memory.congr rfl rfl⟩
    nofun

theorem Tracked.useMemory (tracked : state.Tracked allocations) {memory : Memory}
    (numbered : memory.Numbered used)
    (sameHeight : state.memory.frames ≠ [] →
      memory.frames.length = state.memory.frames.length) :
    { state with memory }.Tracked used := by
  refine ⟨?_, tracked.path, numbered⟩
  intro active
  have discipline := tracked.calls active
  refine ⟨discipline.linked, ?_, discipline.location⟩
  refine (sameHeight ?_).trans discipline.frames
  intro noFrames
  have linked := discipline.linked
  have noCalls := discipline.frames
  rw [noFrames] at noCalls
  rw [List.length_eq_zero_iff.1 noCalls.symm] at linked
  exact linked

theorem Step.tracked (step : Step state used next) (tracked : state.Tracked allocations)
    (bounded : allocations + used < UInt32.size - 1) : next.Tracked (allocations + used) := by
  induction step with
  | advance statement =>
      refine ⟨?_, tracked.path.advance _, tracked.memory⟩
      intro active
      have discipline := tracked.calls active
      exact ⟨discipline.linked, discipline.frames, discipline.location⟩
  | call succeeds => exact tracked.call succeeds
  | returnFromMethod succeeds => exact tracked.returnFromMethod succeeds
  | terminate reason =>
      refine ⟨?_, tracked.path, tracked.memory⟩
      nofun
  | allocate succeeds =>
      obtain ⟨_, rfl⟩ := allocate_cases succeeds
      exact tracked.useMemory (tracked.memory.allocate bounded _) fun _ => rfl
  | addConstraint succeeds => exact tracked.congr (addConstraint_sameControl succeeds)
  | addModel model => exact tracked.congr ⟨rfl, rfl, rfl, rfl, rfl, rfl⟩
  | forkPositive succeeds => exact tracked.congr (fork_sameControl succeeds).1
  | forkNegative succeeds => exact tracked.congr (fork_sameControl succeeds).2
  | useMemory operation supply =>
      apply tracked.useMemory (tracked.memory.run operation bounded supply)
      intro _
      rw [Memory.run_frames]
  | setRegister index value =>
      exact tracked.useMemory (tracked.memory.congr rfl rfl) fun nonempty =>
        Memory.length_setRegister nonempty index value

private theorem merge_tracked {left right merged : State} {guard : Term} {supply after : Supply}
    (leftTracked : left.Tracked allocations)
    (rightTracked : right.Tracked allocations)
    (succeeds : (left.merge right guard).run.run supply = (.ok merged, after)) :
    merged.Tracked allocations := by
  have merges := merge_cases succeeds
  obtain ⟨_, _, _, memoryMerges⟩ := merges.memory
  obtain ⟨sameHeight, sameTypes, sameNext⟩ := Memory.merge_outline memoryMerges
  obtain ⟨sameLocation, isPath⟩ := Path.join_cases merges.path
  have discipline := leftTracked.calls merges.leftActive
  -- The path may be the right one; both end at the same location.
  have location : merged.path.location = left.path.location := by
    rcases isPath with isLeft | isRight
    · rw [isLeft]
    · rw [isRight, sameLocation]
  refine ⟨fun _ => ⟨?_, ?_, ?_⟩, ?_, leftTracked.memory.congr sameTypes sameNext⟩
  · rw [merges.callStack]
    exact discipline.linked
  · rw [merges.callStack, sameHeight]
    exact discipline.frames
  · rw [merges.callStack, State.location, location]
    exact discipline.location
  · rcases isPath with isLeft | isRight
    · rw [isLeft]
      exact leftTracked.path
    · rw [isRight]
      exact rightTracked.path

/-! ## Terminated states -/

/-- A state leads to another by a step of its own, or by a merge. -/
inductive Leads : State → State → Prop where
  | step {state next : State} {used : Nat} (step : Step state used next) : Leads state next
  | mergeLeft {left right merged : State} {guard : Term} {supply after : Supply}
      (succeeds : (left.merge right guard).run.run supply = (.ok merged, after)) :
      Leads left merged
  | mergeRight {left right merged : State} {guard : Term} {supply after : Supply}
      (succeeds : (left.merge right guard).run.run supply = (.ok merged, after)) :
      Leads right merged

private theorem Step.active_of_active (step : Step state used next)
    (active : next.status = .active) :
    state.status = .active := by
  cases step with
  | advance | addModel | useMemory | setRegister => exact active
  | call succeeds => exact (call_cases succeeds).1
  | returnFromMethod succeeds => exact (returnFromMethod_cases succeeds).1
  | terminate => cases active
  | allocate succeeds => exact (allocate_cases succeeds).1
  | addConstraint succeeds => rw [← (addConstraint_sameControl succeeds).status, active]
  | forkPositive succeeds | forkNegative succeeds => exact (fork_cases succeeds).1

private theorem Leads.active_of_active (leads : Leads state next) (active : next.status = .active) :
    state.status = .active := by
  cases leads with
  | step step => exact step.active_of_active active
  | mergeLeft succeeds => exact (merge_cases succeeds).leftActive
  | mergeRight succeeds => exact (merge_cases succeeds).rightActive

private theorem active_of_leads {later : State} (leads : Relation.ReflTransGen Leads state later)
    (active : later.status = .active) : state.status = .active := by
  induction leads with
  | refl => exact active
  | tail _ lastLeads inductionHypothesis =>
      exact inductionHypothesis (lastLeads.active_of_active active)

/-! ## Runs -/

/-- The states that a run has reached, and the number of objects that it has
allocated in all of them. -/
inductive Execution : List State → Nat → Prop where
  | start : Execution [] 0
  | create {states : List State} {allocations : Nat} (run : Execution states allocations)
      (entry : String) (supply : Supply) :
      Execution (((create entry).run supply).1 :: states) allocations
  | step {states : List State} {state next : State} {allocations used : Nat}
      (run : Execution states allocations)
      (reached : state ∈ states)
      (step : Step state used next) : Execution (next :: states) (allocations + used)
  | merge {states : List State} {left right merged : State} {guard : Term}
      {supply after : Supply} {allocations : Nat}
      (run : Execution states allocations)
      (leftReached : left ∈ states)
      (rightReached : right ∈ states)
      (succeeds : (left.merge right guard).run.run supply = (.ok merged, after)) :
      Execution (merged :: states) allocations

theorem Execution.tracked {states : List State} (run : Execution states allocations)
    (bounded : allocations < UInt32.size - 1) : ∀ state ∈ states, state.Tracked allocations := by
  induction run with
  | start => simp
  | create run entry supply inductionHypothesis =>
      exact List.forall_mem_cons.2
        ⟨(create_tracked entry supply).mono (Nat.zero_le _), inductionHypothesis bounded⟩
  | step run reached step inductionHypothesis =>
      have tracked := inductionHypothesis (by omega)
      refine List.forall_mem_cons.2 ⟨step.tracked (tracked _ reached) bounded, ?_⟩
      intro state member
      exact (tracked state member).mono (Nat.le_add_right _ _)
  | merge run leftReached rightReached succeeds inductionHypothesis =>
      have tracked := inductionHypothesis bounded
      exact List.forall_mem_cons.2
        ⟨merge_tracked (tracked _ leftReached) (tracked _ rightReached) succeeds, tracked⟩

/-- States with one call stack have equally many register frames, so that a
merge of them gets past this check. -/
private theorem merge_avoids_frames {left right : State} (leftTracked : left.Tracked allocations)
    (rightTracked : right.Tracked allocations) (guard : Term) :
    Fresh.Avoids (.merge .frames) (left.merge right guard) := by
  rw [merge]
  dsimp only
  split
  · exact Fresh.avoids_throw (.merge .terminated) (by decide)
  · next bothActive =>
      rw [Bool.or_eq_true, not_or, Bool.not_eq_true, Bool.not_eq_true,
        isTerminated_eq_false_iff, isTerminated_eq_false_iff] at bothActive
      split
      · exact Fresh.avoids_throw (.merge .location) (by decide)
      · split
        · exact Fresh.avoids_throw (.merge .callStack) (by decide)
        · next sameStack =>
            have sameHeight : left.memory.frames.length = right.memory.frames.length := by
              rw [(leftTracked.calls bothActive.1).frames,
                (rightTracked.calls bothActive.2).frames, not_not.1 sameStack]
            apply (Fresh.avoids_check (left.condition.merge_ne_frames right.condition guard)).bind
            intro merged
            apply (Fresh.avoids_fresh Fresh.owner).bind
            intro owner
            apply (Memory.merge_avoids_frames sameHeight guard owner).bind
            intro memory
            exact (Fresh.avoids_fresh Fresh.stateNumber).bind fun id => Fresh.avoids_fresh (pure _)

/-- In every run, the active states keep their calls, frames and locations in
step, all states count their steps and number their objects, a terminated state
stays so, and no merge finds two different numbers of frames. -/
theorem execution_keeps_callDiscipline
    (states : List State)
    (allocations : Nat)
    (run : Execution states allocations)
    (bounded : allocations < UInt32.size - 1) :
    (∀ state ∈ states,
      (state.status = .active → state.CallDiscipline) ∧
        state.path.Counted ∧
        (∀ address, (state.memory.typeOf? address).isSome = true ↔
          1 ≤ address ∧ address < state.memory.nextAddress) ∧
        (state.status ≠ .active → ∀ later, Relation.ReflTransGen Leads state later →
          later.status ≠ .active)) ∧
      ∀ left ∈ states, ∀ right ∈ states, ∀ guard supply,
        ((left.merge right guard).run.run supply).1 ≠ .error (.merge .frames) := by
  have tracked := run.tracked bounded
  constructor
  · intro state reached
    have stateTracked := tracked state reached
    refine ⟨stateTracked.calls, stateTracked.path, stateTracked.memory.types, ?_⟩
    intro terminated later leads active
    exact terminated (active_of_leads leads active)
  · intro left leftReached right rightReached guard
    exact merge_avoids_frames (tracked left leftReached) (tracked right rightReached) guard

/-- A method that is called, forks and merges again before it returns. -/
theorem execution_callAndMerge :
    ∃ states state, Execution states 1 ∧ state ∈ states ∧
      state.callStack = [⟨"main", none⟩] ∧ state.path.depth = 2 ∧ state.CallDiscipline := by
  have created : Execution _ _ := .create .start "main" .initial
  have called := created.step List.mem_cons_self
    (.call (show (create "main" |>.run Supply.initial).1.call "helper" 3 = _ from rfl))
  have allocated := called.step List.mem_cons_self
    (.allocate (show (State.allocate _ "Node") = _ from rfl))
  have forked := allocated.step List.mem_cons_self
    (.forkPositive (show (fork _ (.var "flag" .bool)).run.run Supply.initial = _ from rfl))
  have forkedToo := forked.step (.tail _ (.head _))
    (.forkNegative (show (fork _ (.var "flag" .bool)).run.run Supply.initial = _ from rfl))
  have merged := forkedToo.merge (.tail _ (.head _)) List.mem_cons_self
    (show (merge _ _ (.var "flag" .bool)).run.run Supply.initial = _ from rfl)
  have returned := merged.step List.mem_cons_self
    (.returnFromMethod (show State.returnFromMethod _ = _ from rfl))
  refine ⟨_, _, returned, List.mem_cons_self, rfl, rfl, ?_⟩
  exact ((execution_keeps_callDiscipline _ 1 returned (by decide)).1 _ List.mem_cons_self).1 rfl

end State

end SymbolicHeap
