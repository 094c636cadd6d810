import SymbolicHeap.Proofs.PathCondition.Conditions
import SymbolicHeap.Proofs.State.Steps

/-!
Contract: the models that a state keeps satisfy its path condition.

Every step but one keeps them so. A condition that is added drops the models in
which it does not hold, a solver is asked about the condition as it stands, and
control flow touches neither. A merge takes the models of both sides as they
are: they satisfy the merged condition where the guard tells the sides apart,
and need not do so elsewhere.

Owns:
- states with models that satisfy their path condition, and what each operation
  does to them;
- runs over states, with the merges that a run may do as a parameter;
- the run lemma for merges that are told apart, and a merge that breaks it.
-/

namespace SymbolicHeap

namespace State

/-! ## Supported states -/

/-- The path condition records conditions, and every model satisfies their
encodings. -/
structure Supported (vocabulary : Vocabulary) (state : State) : Prop where
  built : state.condition.Built
  sorted : state.condition.Sorted vocabulary
  models : ∀ model ∈ state.models, model.valuation.encoded.All state.condition.constraints

variable {vocabulary : Vocabulary} {state : State}

/-- Only the path condition and the models matter. -/
theorem Supported.congr {other : State} (supported : state.Supported vocabulary)
    (sameCondition : other.condition = state.condition)
    (sameModels : other.models = state.models) : other.Supported vocabulary := by
  refine ⟨?_, ?_, ?_⟩
  · rw [sameCondition]
    exact supported.built
  · rw [sameCondition]
    exact supported.sorted
  · rw [sameCondition, sameModels]
    exact supported.models

theorem create_supported (entry : String) (supply : Supply) :
    ((create entry).run supply).1.Supported vocabulary where
  built := .empty
  sorted := PathCondition.empty_sorted
  models := by
    intro model member
    cases member

/-! ## Conditions and models -/

theorem Supported.addConstraint (supported : state.Supported vocabulary) {constraint : Term}
    {extended : State}
    (isCondition : constraint.IsCondition vocabulary)
    (succeeds : state.addConstraint constraint = .ok extended) :
    extended.Supported vocabulary := by
  obtain ⟨isState, keeps⟩ := addConstraint_cases succeeds
  have isExtended : extended.condition = state.condition.add constraint := by rw [isState]
  refine ⟨?_, ?_, ?_⟩
  · rw [isExtended]
    exact supported.built.add constraint
  · rw [isExtended]
    exact supported.sorted.add isCondition
  · rcases keeps with ⟨_, none⟩ | ⟨feasible, keeps⟩
    · simp [none]
    · intro model member
      obtain ⟨earlier, satisfies⟩ := (keeps model).1 member
      rw [isExtended] at feasible ⊢
      rw [model.valuation.encoded.all_add feasible]
      exact ⟨supported.models model earlier, Model.satisfies_iff.1 satisfies⟩

/-- A model that satisfies the recorded conditions satisfies their encodings. -/
theorem Supported.addModel (supported : state.Supported vocabulary) {model : Model}
    (admissible : model.Admissible vocabulary)
    (satisfies : ∀ literal ∈ state.condition.constraints, model.Satisfies literal) :
    (state.addModel model).Supported vocabulary where
  built := supported.built
  sorted := supported.sorted
  models := by
    rw [State.addModel, List.forall_mem_append, List.forall_mem_singleton]
    refine ⟨supported.models, ?_⟩
    intro literal recorded
    have refines := Term.encoded_refines literal (supported.sorted literal recorded).1
    exact refines.eval admissible Bindings.respect_empty
      (Model.satisfies_iff.1 (satisfies literal recorded))

/-! ## Forking -/

theorem Supported.copy {copy : State} (supported : state.Supported vocabulary)
    (isCopy : copy.IsCopyOf state) : copy.Supported vocabulary := by
  obtain ⟨_, _, rfl⟩ := isCopy
  exact supported.congr rfl rfl

theorem Supported.fork (supported : state.Supported vocabulary) {condition : Term}
    {supply after : Supply} {positive negative : State}
    (isCondition : condition.IsCondition vocabulary)
    (succeeds : (state.fork condition).run.run supply = (.ok (positive, negative), after)) :
    positive.Supported vocabulary ∧ negative.Supported vocabulary := by
  obtain ⟨_, first, second, isFirst, isSecond, firstExtended, secondExtended⟩ :=
    fork_cases succeeds
  constructor
  · exact (supported.copy isFirst).addConstraint isCondition firstExtended
  · exact (supported.copy isSecond).addConstraint isCondition.not secondExtended

/-- A state is kept as it is, or with a model that the solver returned for its
condition. -/
theorem Supported.keepIfFeasible (supported : state.Supported vocabulary) {σ : Type}
    {solver : Solver σ} {asserted : σ → List Term} {options : Options} {before after : σ}
    {kept : Option State}
    (sound : solver.Sound asserted)
    (succeeds : state.keepIfFeasible solver options before = .ok (kept, after)) :
    ∀ survivor ∈ kept, survivor.Supported vocabulary := by
  intro survivor isKept
  rw [State.keepIfFeasible] at succeeds
  split at succeeds
  · cases Model.pure_eq_ok.1 succeeds
    cases isKept
  · split at succeeds
    · cases Model.pure_eq_ok.1 succeeds
      cases isKept
      exact supported
    · obtain ⟨⟨outcome, answered⟩, checks, rest⟩ := Model.bind_eq_ok.1 succeeds
      cases Model.pure_eq_ok.1 rest
      obtain ⟨model, found, rfl⟩ := Option.map_eq_some_iff.1 isKept
      refine ⟨supported.built, supported.sorted, ?_⟩
      rw [State.addModel, List.forall_mem_append, List.forall_mem_singleton]
      exact ⟨supported.models, sound.checkSoftly checks found⟩

theorem Supported.forkWithSolver (supported : state.Supported vocabulary) {condition : Term}
    {σ : Type} {solver : Solver σ} {asserted : σ → List Term} {options : Options}
    {before answered : σ} {supply after : Supply} {positive negative : Option State}
    (isCondition : condition.IsCondition vocabulary)
    (sound : solver.Sound asserted)
    (succeeds : (state.forkWithSolver condition solver options before).run.run supply =
      (.ok ((positive, negative), answered), after)) :
    (∀ survivor ∈ positive, survivor.Supported vocabulary) ∧
      ∀ survivor ∈ negative, survivor.Supported vocabulary := by
  rw [State.forkWithSolver] at succeeds
  obtain ⟨⟨first, second⟩, _, forks, succeeds⟩ := Fresh.run_bind_eq_ok succeeds
  obtain ⟨⟨keptFirst, _⟩, _, keepsFirst, succeeds⟩ := Fresh.run_bind_eq_ok succeeds
  obtain ⟨⟨keptSecond, _⟩, _, keepsSecond, succeeds⟩ := Fresh.run_bind_eq_ok succeeds
  cases succeeds
  obtain ⟨firstSupported, secondSupported⟩ := supported.fork isCondition forks
  exact ⟨firstSupported.keepIfFeasible sound (Fresh.run_lift_eq_ok keepsFirst).1,
    secondSupported.keepIfFeasible sound (Fresh.run_lift_eq_ok keepsSecond).1⟩

/-! ## Merging -/

/-- The guard tells the models of two states apart: it holds in those of the
left state and fails in those of the right one. Their merged condition is not
found to contradict itself. -/
structure Separates (guard : Term) (left right merged : State) : Prop where
  left : ∀ model ∈ left.models, model.evaluate guard.encoded = .ok (some (.bool true))
  right : ∀ model ∈ right.models, model.evaluate guard.encoded = .ok (some (.bool false))
  feasible : merged.condition.isFalse = false

theorem Supported.merge {left right merged : State} {guard : Term} {supply after : Supply}
    (leftSupported : left.Supported vocabulary)
    (rightSupported : right.Supported vocabulary)
    (isCondition : guard.IsCondition vocabulary)
    (separates : Separates guard left right merged)
    (succeeds : (left.merge right guard).run.run supply = (.ok merged, after)) :
    merged.Supported vocabulary := by
  have isMerge := merge_cases succeeds
  have isModels := isMerge.models
  obtain ⟨sides, merges⟩ := isMerge.condition
  have built := PathCondition.Built.merge leftSupported.built rightSupported.built merges
  have sorted := leftSupported.sorted.merge rightSupported.sorted isCondition merges
  have feasible := separates.feasible
  obtain ⟨leftFeasible, rightFeasible, sameEqualities, rfl, isMerged⟩ :=
    PathCondition.merge_eq_ok.1 merges
  have equalities := leftSupported.built.mem_equality_iff sameEqualities
  -- A model of either side decides the guard, and satisfies the side that it chooses.
  have chosen : ∀ (model : Model) (truth : Bool),
      model.evaluate guard.encoded = .ok (some (.bool truth)) →
        model.valuation.encoded.All (if truth then left else right).condition.constraints →
          model.valuation.encoded.All merged.condition.constraints := by
    intro model truth decided sideHolds
    have guardDecided : model.valuation.encoded.assigns guard truth :=
      Model.evaluate_eq_some.1 decided
    rw [isMerged] at feasible ⊢
    rw [model.valuation.encoded.all_foldl_add feasible,
      model.valuation.encoded.all_mergedConstraints leftFeasible rightFeasible equalities
        guardDecided]
    refine ⟨by simp [Valuation.All], ?_⟩
    cases truth <;> exact sideHolds
  refine ⟨built, sorted, ?_⟩
  rw [isModels, List.forall_mem_append]
  constructor
  · intro model member
    exact chosen model true (separates.left model member) (leftSupported.models model member)
  · intro model member
    exact chosen model false (separates.right model member) (rightSupported.models model member)

/-! ## Runs -/

/-- The states that a run can reach. Identities and owners are of no concern
here, so every step may draw them from any supply; `permits` limits the merges
of the run. -/
inductive Run (vocabulary : Vocabulary) (permits : Term → State → State → State → Prop) :
    List State → Prop where
  | start : Run vocabulary permits []
  | create {states : List State} (run : Run vocabulary permits states) (entry : String)
      (supply : Supply) : Run vocabulary permits (((create entry).run supply).1 :: states)
  | addConstraint {states : List State} {state extended : State} {constraint : Term}
      (run : Run vocabulary permits states)
      (reached : state ∈ states)
      (isCondition : constraint.IsCondition vocabulary)
      (succeeds : state.addConstraint constraint = .ok extended) :
      Run vocabulary permits (extended :: states)
  | fork {states : List State} {state positive negative : State} {condition : Term}
      {supply after : Supply}
      (run : Run vocabulary permits states)
      (reached : state ∈ states)
      (isCondition : condition.IsCondition vocabulary)
      (succeeds : (state.fork condition).run.run supply = (.ok (positive, negative), after)) :
      Run vocabulary permits (positive :: negative :: states)
  | forkWithSolver {states : List State} {state : State} {positive negative : Option State}
      {condition : Term} {σ : Type} {solver : Solver σ} {asserted : σ → List Term}
      {options : Options} {before answered : σ} {supply after : Supply}
      (run : Run vocabulary permits states)
      (reached : state ∈ states)
      (isCondition : condition.IsCondition vocabulary)
      (sound : solver.Sound asserted)
      (succeeds : (state.forkWithSolver condition solver options before).run.run supply =
        (.ok ((positive, negative), answered), after)) :
      Run vocabulary permits (positive.toList ++ negative.toList ++ states)
  | merge {states : List State} {left right merged : State} {guard : Term}
      {supply after : Supply}
      (run : Run vocabulary permits states)
      (leftReached : left ∈ states)
      (rightReached : right ∈ states)
      (isCondition : guard.IsCondition vocabulary)
      (succeeds : (left.merge right guard).run.run supply = (.ok merged, after))
      (permitted : permits guard left right merged) :
      Run vocabulary permits (merged :: states)
  | addModel {states : List State} {state : State} {model : Model}
      (run : Run vocabulary permits states)
      (reached : state ∈ states)
      (admissible : model.Admissible vocabulary)
      (satisfies : ∀ literal ∈ state.condition.constraints, model.Satisfies literal) :
      Run vocabulary permits (state.addModel model :: states)
  | advance {states : List State} {state : State} (run : Run vocabulary permits states)
      (reached : state ∈ states) (statement : Nat) :
      Run vocabulary permits (state.advance statement :: states)
  | call {states : List State} {state called : State} {method : String} {returnStatement : Nat}
      (run : Run vocabulary permits states)
      (reached : state ∈ states)
      (succeeds : state.call method returnStatement = .ok called) :
      Run vocabulary permits (called :: states)
  | returnFromMethod {states : List State} {state returned : State}
      (run : Run vocabulary permits states)
      (reached : state ∈ states)
      (succeeds : state.returnFromMethod = .ok returned) :
      Run vocabulary permits (returned :: states)
  | terminate {states : List State} {state : State} (run : Run vocabulary permits states)
      (reached : state ∈ states) (reason : Termination) :
      Run vocabulary permits (state.terminate reason :: states)
  | useMemory {states : List State} {state : State} (run : Run vocabulary permits states)
      (reached : state ∈ states) (memory : Memory) :
      Run vocabulary permits ({ state with memory } :: states)

theorem Run.supported {states : List State} (run : Run vocabulary Separates states) :
    ∀ state ∈ states, state.Supported vocabulary := by
  induction run with
  | start => simp
  | create run entry supply inductionHypothesis =>
      exact List.forall_mem_cons.2 ⟨create_supported entry supply, inductionHypothesis⟩
  | addConstraint run reached isCondition succeeds inductionHypothesis =>
      exact List.forall_mem_cons.2
        ⟨(inductionHypothesis _ reached).addConstraint isCondition succeeds, inductionHypothesis⟩
  | fork run reached isCondition succeeds inductionHypothesis =>
      obtain ⟨positiveSupported, negativeSupported⟩ :=
        (inductionHypothesis _ reached).fork isCondition succeeds
      exact List.forall_mem_cons.2 ⟨positiveSupported,
        List.forall_mem_cons.2 ⟨negativeSupported, inductionHypothesis⟩⟩
  | forkWithSolver run reached isCondition sound succeeds inductionHypothesis =>
      obtain ⟨positiveSupported, negativeSupported⟩ :=
        (inductionHypothesis _ reached).forkWithSolver isCondition sound succeeds
      simp only [List.forall_mem_append, Option.mem_toList]
      exact ⟨⟨positiveSupported, negativeSupported⟩, inductionHypothesis⟩
  | merge run leftReached rightReached isCondition succeeds permitted inductionHypothesis =>
      exact List.forall_mem_cons.2
        ⟨(inductionHypothesis _ leftReached).merge (inductionHypothesis _ rightReached)
          isCondition permitted succeeds, inductionHypothesis⟩
  | addModel run reached admissible satisfies inductionHypothesis =>
      exact List.forall_mem_cons.2
        ⟨(inductionHypothesis _ reached).addModel admissible satisfies, inductionHypothesis⟩
  | advance run reached statement inductionHypothesis =>
      exact List.forall_mem_cons.2
        ⟨(inductionHypothesis _ reached).congr rfl rfl, inductionHypothesis⟩
  | call run reached succeeds inductionHypothesis =>
      obtain ⟨_, rfl⟩ := call_cases succeeds
      exact List.forall_mem_cons.2
        ⟨(inductionHypothesis _ reached).congr rfl rfl, inductionHypothesis⟩
  | returnFromMethod run reached succeeds inductionHypothesis =>
      have supported := inductionHypothesis _ reached
      rw [List.forall_mem_cons]
      obtain ⟨_, ⟨_, _, rfl⟩ | ⟨_, rfl⟩⟩ := returnFromMethod_cases succeeds
      · exact ⟨supported.congr rfl rfl, inductionHypothesis⟩
      · exact ⟨supported.congr rfl rfl, inductionHypothesis⟩
  | terminate run reached reason inductionHypothesis =>
      exact List.forall_mem_cons.2
        ⟨(inductionHypothesis _ reached).congr rfl rfl, inductionHypothesis⟩
  | useMemory run reached memory inductionHypothesis =>
      exact List.forall_mem_cons.2
        ⟨(inductionHypothesis _ reached).congr rfl rfl, inductionHypothesis⟩

/-- In a run whose merges are told apart by their guards, every model that a
state keeps satisfies the encoded path condition. -/
theorem models_satisfy_condition
    (vocabulary : Vocabulary)
    (states : List State)
    (run : Run vocabulary Separates states)
    (state : State)
    (reached : state ∈ states)
    (model : Model)
    (kept : model ∈ state.models)
    (limit : Nat) :
    ∀ term ∈ (state.condition.encode.run (.start limit)).1, model.Satisfies term := by
  rw [PathCondition.encode_start, Model.all_encoded_iff]
  exact (run.supported state reached).models model kept

/-! ## Two sides of a bound -/

/-- The symbols of a program that counts, and chooses one of two ways. -/
def countingSymbols : Vocabulary :=
  ⟨fun name sort => name = "count" ∧ sort = .i32 ∨ name = "first" ∧ sort = .bool,
    fun _ _ => False⟩

def belowFive : Term := .binary .lessThan (.var "count" .i32) (.const (.i32 5))

def counted (count : Int32) (first : Bool) : Model :=
  (Model.empty.assign "count" (.i32 count)).assign "first" (.bool first)

theorem counted_admissible (count : Int32) (first : Bool) :
    (counted count first).Admissible countingSymbols := by
  refine ((Model.empty_admissible countingSymbols).assign ?_).assign ?_
  · rintro sort (⟨_, rfl⟩ | ⟨other, _⟩)
    · exact ⟨⟨Constant.noConfusion, rfl⟩, rfl⟩
    · exact absurd other (by decide)
  · rintro sort (⟨other, _⟩ | ⟨_, rfl⟩)
    · exact absurd other (by decide)
    · exact ⟨⟨Constant.noConfusion, rfl⟩, rfl⟩

theorem belowFive_isCondition : belowFive.IsCondition countingSymbols := by
  refine ⟨?_, rfl⟩
  simp [belowFive, Term.WellSorted, ValueSort.isArray, countingSymbols, BinaryOp.Accepts,
    Term.sort, Constant.sort, ValueSort.isInteger]

private theorem first_isCondition : (Term.var "first" .bool).IsCondition countingSymbols := by
  refine ⟨?_, rfl⟩
  simp [Term.WellSorted, ValueSort.isArray, countingSymbols]

/-- A model of the side below five that does not choose that side stays with
the merged state, and makes its path condition false. -/
theorem merge_keeps_refuted_model :
    ∃ states state model term, Run countingSymbols (fun _ _ _ _ => True) states ∧
      state ∈ states ∧ model ∈ state.models ∧
        term ∈ (state.condition.encode.run (.start Session.defaultUnrollLimit)).1 ∧
          model.evaluate term = .ok (some (.bool false)) := by
  have created : Run countingSymbols (fun _ _ _ _ => True) _ := .create .start "main" .initial
  have forked := created.fork List.mem_cons_self belowFive_isCondition
    (show (fork _ belowFive).run.run Supply.initial = _ from rfl)
  have known := forked.addModel List.mem_cons_self (counted_admissible 3 false)
    (List.forall_mem_singleton.2 rfl)
  have merged := known.merge List.mem_cons_self (.tail _ (.tail _ (.head _))) first_isCondition
    (show (merge _ _ _).run.run Supply.initial = _ from rfl) trivial
  exact ⟨_, _, counted 3 false, _, merged, List.mem_cons_self, .head _, .head _, rfl⟩

/-- Models that choose their own side satisfy the merged condition. -/
theorem merge_supports_separated_models :
    ∃ states state, Run countingSymbols Separates states ∧ state ∈ states ∧
      state.models = [counted 3 true, counted 7 false] ∧
        ∀ model ∈ state.models,
          ∀ term ∈ (state.condition.encode.run (.start Session.defaultUnrollLimit)).1,
            model.Satisfies term := by
  have created : Run countingSymbols Separates _ := .create .start "main" .initial
  have forked := created.forkWithSolver List.mem_cons_self belowFive_isCondition
    CandidateState.solver_sound
    (show (forkWithSolver _ belowFive CandidateState.solver .initial
      (.start [counted 3 true, counted 7 false] [])).run.run Supply.initial = _ from rfl)
  have merged := forked.merge List.mem_cons_self (.tail _ (.head _)) first_isCondition
    (show (merge _ _ _).run.run Supply.initial = _ from rfl)
    ⟨List.forall_mem_singleton.2 rfl, List.forall_mem_singleton.2 rfl, rfl⟩
  refine ⟨_, _, merged, List.mem_cons_self, rfl, ?_⟩
  intro model kept
  exact models_satisfy_condition countingSymbols _ merged _ List.mem_cons_self model kept
    Session.defaultUnrollLimit

end State

end SymbolicHeap
