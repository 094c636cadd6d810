import SymbolicHeap.Proofs.Solver.Soundness
import SymbolicHeap.State.Basic

/-!
Contract: what each operation on a state does when it succeeds.

An operation is taken apart here once, with its checks and with the whole state
that it leaves behind. What holds along a run is derived from that.

Owns:
- active states, and one case analysis for each operation that can be refused.
-/

namespace SymbolicHeap

namespace State

variable {state : State}

/-! ## Active states -/

theorem isTerminated_eq_false_iff : state.isTerminated = false ↔ state.status = .active := by
  unfold isTerminated
  split <;> simp_all

theorem checkActive_eq_ok {passed : Unit} :
    state.checkActive = .ok passed ↔ state.status = .active := by
  rw [checkActive, ← isTerminated_eq_false_iff]
  cases state.isTerminated <;> simp

/-! ## Conditions -/

private theorem mem_modelsOf {term : Term} {models kept : List Model}
    (keeps : modelsOf term models = .ok kept) (model : Model) :
    model ∈ kept ↔ model ∈ models ∧ model.Satisfies term := by
  induction models generalizing kept with
  | nil =>
      cases keeps
      simp
  | cons head tail inductionHypothesis =>
      obtain ⟨value, evaluated, rest⟩ := Model.bind_eq_ok.1 keeps
      obtain ⟨others, keepsOthers, isKept⟩ := Model.bind_eq_ok.1 rest
      rw [← Model.pure_eq_ok.1 isKept, List.mem_cons, or_and_right,
        ← inductionHypothesis keepsOthers]
      split
      · next isTrue =>
          rw [isTrue] at evaluated
          rw [List.mem_cons]
          constructor
          · rintro (rfl | member)
            · exact .inl ⟨rfl, evaluated⟩
            · exact .inr member
          · rintro (⟨same, _⟩ | member)
            · exact .inl same
            · exact .inr member
      · next notTrue =>
          refine (or_iff_right ?_).symm
          rintro ⟨rfl, holds⟩
          rw [Model.Satisfies, evaluated, Except.ok.injEq] at holds
          exact notTrue holds

/-- The condition is added; where no contradiction shows, the models in which it
holds stay. -/
theorem addConstraint_cases {constraint : Term} {extended : State}
    (succeeds : state.addConstraint constraint = .ok extended) :
    extended = { state with
        condition := state.condition.add constraint, models := extended.models } ∧
      (extended.condition.isFalse = true ∧ extended.models = [] ∨
        extended.condition.isFalse = false ∧ ∀ model,
          model ∈ extended.models ↔ model ∈ state.models ∧ model.Satisfies constraint.encoded) := by
  rw [addConstraint] at succeeds
  dsimp only at succeeds
  split at succeeds
  · next contradicts =>
      cases Model.pure_eq_ok.1 succeeds
      exact ⟨rfl, .inl ⟨contradicts, rfl⟩⟩
  · next feasible =>
      obtain ⟨kept, keeps, isExtended⟩ := Model.bind_eq_ok.1 succeeds
      cases Model.pure_eq_ok.1 isExtended
      rw [Term.encode_start] at keeps
      exact ⟨rfl, .inr ⟨Bool.eq_false_iff.2 feasible, mem_modelsOf keeps⟩⟩

/-! ## Control flow -/

theorem allocate_cases {typeName : String} {address : Term} {allocated : State}
    (succeeds : state.allocate typeName = .ok (address, allocated)) :
    state.status = .active ∧
      allocated = { state with memory := (state.memory.allocate typeName).2 } := by
  obtain ⟨_, active, isAllocated⟩ := Model.bind_eq_ok.1 succeeds
  cases Model.pure_eq_ok.1 isAllocated
  exact ⟨checkActive_eq_ok.1 active, rfl⟩

theorem call_cases {called : State} {method : String} {returnStatement : Nat}
    (succeeds : state.call method returnStatement = .ok called) :
    state.status = .active ∧
      called = { state with
        callStack := ⟨method, some ⟨state.location.method, returnStatement⟩⟩ :: state.callStack
        memory := state.memory.pushFrame
        path := state.path.advance ⟨method, 0⟩ } := by
  obtain ⟨_, active, isCalled⟩ := Model.bind_eq_ok.1 succeeds
  exact ⟨checkActive_eq_ok.1 active, (Model.pure_eq_ok.1 isCalled).symm⟩

/-- The caller resumes at the return site of the frame that is left; without one
the state ends. -/
theorem returnFromMethod_cases {returned : State}
    (succeeds : state.returnFromMethod = .ok returned) :
    state.status = .active ∧
      ((∃ site, state.callStack.head?.bind CallFrame.returnSite = some site ∧
        returned = { state with
          callStack := state.callStack.tail
          memory := state.memory.popFrame
          path := state.path.advance site }) ∨
      state.callStack.head?.bind CallFrame.returnSite = none ∧
        returned = { state with
          callStack := state.callStack.tail
          memory := state.memory.popFrame
          status := .terminated .returned }) := by
  obtain ⟨_, active, isReturned⟩ := Model.bind_eq_ok.1 succeeds
  refine ⟨checkActive_eq_ok.1 active, ?_⟩
  simp only at isReturned
  split at isReturned
  · next site isSite => exact .inl ⟨site, isSite, (Model.pure_eq_ok.1 isReturned).symm⟩
  · next noSite => exact .inr ⟨noSite, (Model.pure_eq_ok.1 isReturned).symm⟩

/-! ## Forking and merging -/

/-- The same state, up to its identity and its owner. -/
def IsCopyOf (copy state : State) : Prop :=
  ∃ id owner, copy = { state with id, memory := { state.memory with owner } }

theorem fork_cases {condition : Term} {supply after : Supply} {positive negative : State}
    (succeeds : (state.fork condition).run.run supply = (.ok (positive, negative), after)) :
    state.status = .active ∧ ∃ first second : State, first.IsCopyOf state ∧ second.IsCopyOf state ∧
      first.addConstraint condition = .ok positive ∧
        second.addConstraint condition.not = .ok negative := by
  rw [fork] at succeeds
  obtain ⟨_, _, active, succeeds⟩ := Fresh.run_bind_eq_ok succeeds
  obtain ⟨first, _, isFirst, succeeds⟩ := Fresh.run_bind_eq_ok succeeds
  obtain ⟨_, _, firstExtended, succeeds⟩ := Fresh.run_bind_eq_ok succeeds
  obtain ⟨second, _, isSecond, succeeds⟩ := Fresh.run_bind_eq_ok succeeds
  obtain ⟨_, _, secondExtended, succeeds⟩ := Fresh.run_bind_eq_ok succeeds
  cases succeeds
  refine ⟨checkActive_eq_ok.1 (Fresh.run_lift_eq_ok active).1, first, second, ?_, ?_,
    (Fresh.run_lift_eq_ok firstExtended).1, (Fresh.run_lift_eq_ok secondExtended).1⟩
  · cases isFirst
    exact ⟨_, _, rfl⟩
  · cases isSecond
    exact ⟨_, _, rfl⟩

/-- What a successful merge agreed on and what it made. -/
structure Merges (left right : State) (guard : Term) (merged : State) : Prop where
  leftActive : left.status = .active
  rightActive : right.status = .active
  path : left.path.join right.path = some merged.path
  sameStack : left.callStack = right.callStack
  callStack : merged.callStack = left.callStack
  condition : ∃ sides, left.condition.merge right.condition guard = .ok (merged.condition, sides)
  memory : ∃ owner supply after,
    (left.memory.merge right.memory guard owner).run.run supply = (.ok merged.memory, after)
  models : merged.models = left.models ++ right.models
  status : merged.status = .active

theorem merge_cases {left right merged : State} {guard : Term} {supply after : Supply}
    (succeeds : (left.merge right guard).run.run supply = (.ok merged, after)) :
    Merges left right guard merged := by
  rw [merge] at succeeds
  dsimp only at succeeds
  split at succeeds
  · obtain ⟨_, _, refused, _⟩ := Fresh.run_bind_eq_ok succeeds
    cases refused
  · next bothActive =>
      rw [Bool.or_eq_true, not_or, Bool.not_eq_true, Bool.not_eq_true,
        isTerminated_eq_false_iff, isTerminated_eq_false_iff] at bothActive
      split at succeeds
      · cases succeeds
      · next joined =>
          split at succeeds
          · obtain ⟨_, _, refused, _⟩ := Fresh.run_bind_eq_ok succeeds
            cases refused
          · next sameStack =>
              obtain ⟨⟨condition, sides⟩, _, merges, succeeds⟩ := Fresh.run_bind_eq_ok succeeds
              obtain ⟨owner, _, _, succeeds⟩ := Fresh.run_bind_eq_ok succeeds
              obtain ⟨memory, _, memoryMerges, succeeds⟩ := Fresh.run_bind_eq_ok succeeds
              obtain ⟨_, _, _, succeeds⟩ := Fresh.run_bind_eq_ok succeeds
              cases succeeds
              exact ⟨bothActive.1, bothActive.2, joined, not_not.1 sameStack, rfl,
                ⟨sides, (Fresh.run_lift_eq_ok merges).1⟩, ⟨owner, _, _, memoryMerges⟩, rfl, rfl⟩

end State

end SymbolicHeap
