import SymbolicHeap.Proofs.ArrayTheory.Preservation
import SymbolicHeap.Proofs.PathCondition.Encodings
import SymbolicHeap.Proofs.Solver.Exactness
import SymbolicHeap.Proofs.State.Models

/-!
Contract: feasibility is decided exactly, with shortcuts or without.

A fork asks the solver about a child only if its condition is not known to
contradict itself and no model of the parent is left. Neither shortcut changes
which children stay: a contradiction that is found among the conditions is one
for every admissible model of their encodings, and a model that is left
satisfies the condition of the child.

Owns:
- children that are kept exactly where they are feasible;
- what a fork does under an exact solver, and when there is a fork at all;
- the verdicts of an exact solver on conditions and on forks.
-/

namespace SymbolicHeap

namespace State

variable {σ : Type} {solver : Solver σ} {frames : σ → List (List Term)}
  {candidates : Model → Prop} {vocabulary : Vocabulary}

/-! ## Feasible children -/

/-- A child that adds a constraint is kept exactly if a model of its parent
satisfies the constraint or a candidate satisfies the child's condition along
with what is asserted. Then it is kept as it is, or with a candidate as model. -/
structure KeptExactly (candidates : Model → Prop) (asserted : List Term) (parent : State)
    (constraint : Term) (child : State) (kept : Option State) : Prop where
  exactly : kept.isSome = true ↔
    (∃ model ∈ parent.models, model.Satisfies constraint.encoded) ∨
      Feasible candidates asserted child.condition.constraints
  added : Feasible candidates asserted child.condition.constraints ↔
    Feasible candidates asserted (parent.condition.constraints ++ [constraint])
  survivor : ∀ survivor ∈ kept,
    survivor = child ∨ ∃ model, candidates model ∧ survivor = child.addModel model

private theorem keepIfFeasible_exact (exact : solver.Exact frames candidates) (state : State)
    (options : Options) (before : σ) :
    ∃ kept after, state.keepIfFeasible solver options before = .ok (kept, after) ∧
      frames after = frames before ∧
      (kept.isSome = true ↔ state.condition.isFalse = false ∧
        (state.models ≠ [] ∨
          Feasible candidates (frames before).flatten state.condition.constraints)) ∧
      ∀ survivor ∈ kept,
        survivor = state ∨ ∃ model, candidates model ∧ survivor = state.addModel model := by
  rw [State.keepIfFeasible]
  split
  · next contradicts => exact ⟨none, before, rfl, rfl, by simp [contradicts], by simp⟩
  · next feasible =>
      split
      · next hasModel =>
          refine ⟨some state, before, rfl, rfl, ?_, by simp⟩
          simp_all
      · next noModel =>
          obtain ⟨outcome, after, checks, decides, restored⟩ := exact.checkSoftly
            (Session.start_faithful options.unrollLimit) state.condition options before
          refine ⟨outcome.model?.map state.addModel, after, ?_, restored, ?_, ?_⟩
          · rw [checks]
            rfl
          · rw [Option.isSome_map]
            have verdict := decides.isSatisfiable_iff
            rw [Solver.decided_iff_feasible] at verdict
            simp_all [Outcome.isSatisfiable]
          · intro survivor isKept
            obtain ⟨model, found, rfl⟩ := Option.map_eq_some_iff.1 isKept
            exact .inr ⟨model, (decides.model found).1, rfl⟩

/-- Constraints add what they say to what candidates have to satisfy, whether
the condition is found to contradict itself or not. -/
private theorem feasible_foldl_add_iff
    (admissible : ∀ model, candidates model → model.Admissible vocabulary)
    {condition : PathCondition} {constraints : List Term} (asserted : List Term)
    (sorted : condition.Sorted vocabulary)
    (areConditions : ∀ constraint ∈ constraints, constraint.IsCondition vocabulary) :
    Feasible candidates asserted (constraints.foldl PathCondition.add condition).constraints ↔
      Feasible candidates asserted (condition.constraints ++ constraints) := by
  apply exists_congr
  intro model
  apply and_congr_right
  intro isCandidate
  apply and_congr_right
  intro _
  rw [Model.all_satisfy_encoded_iff, Model.all_satisfy_encoded_iff, Valuation.all_append]
  exact (admissible model isCandidate).all_foldl_add sorted areConditions

private theorem keptExactly_of_addConstraint (exact : solver.Exact frames candidates)
    (admissible : ∀ model, candidates model → model.Admissible vocabulary)
    {parent copy child : State} {constraint : Term}
    (supported : parent.Supported vocabulary)
    (inherited : ∀ model ∈ parent.models, model.Admissible vocabulary)
    (isCondition : constraint.IsCondition vocabulary)
    (isCopy : copy.IsCopyOf parent)
    (extended : copy.addConstraint constraint = .ok child)
    (options : Options) (before : σ) :
    ∃ kept after, child.keepIfFeasible solver options before = .ok (kept, after) ∧
      frames after = frames before ∧
        KeptExactly candidates (frames before).flatten parent constraint child kept := by
  obtain ⟨_, _, rfl⟩ := isCopy
  obtain ⟨isChild, keeps⟩ := addConstraint_cases extended
  have isExtended : child.condition = parent.condition.add constraint := by rw [isChild]
  obtain ⟨kept, after, succeeds, restored, keptIff, survivor⟩ :=
    keepIfFeasible_exact exact child options before
  refine ⟨kept, after, succeeds, restored, ?_, ?_, survivor⟩
  · rw [keptIff]
    rcases keeps with ⟨contradicts, _⟩ | ⟨feasible, keeps⟩
    · -- A model of the parent would satisfy the contradiction.
      have noModel : ∀ model ∈ parent.models, ¬ model.Satisfies constraint.encoded := by
        intro model member satisfies
        apply model.valuation.encoded.not_all_of_isFalse contradicts
        rw [isExtended, (inherited model member).all_add supported.sorted isCondition]
        exact ⟨supported.models model member, Model.satisfies_iff.1 satisfies⟩
      have notFeasible :
          ¬ Feasible candidates (frames before).flatten child.condition.constraints := by
        rintro ⟨model, _, _, satisfies⟩
        exact model.valuation.encoded.not_all_of_isFalse contradicts
          (Model.all_satisfy_encoded_iff.1 satisfies)
      constructor
      · intro isKept
        rw [contradicts] at isKept
        cases isKept.1
      · rintro (⟨model, member, satisfies⟩ | isFeasible)
        · exact absurd satisfies (noModel model member)
        · exact absurd isFeasible notFeasible
    · have hasModel :
          child.models ≠ [] ↔ ∃ model ∈ parent.models, model.Satisfies constraint.encoded := by
        constructor
        · intro nonempty
          obtain ⟨model, member⟩ := List.exists_mem_of_ne_nil _ nonempty
          exact ⟨model, (keeps model).1 member⟩
        · rintro ⟨model, member⟩
          exact List.ne_nil_of_mem ((keeps model).2 member)
      rw [hasModel, and_iff_right feasible]
  · rw [isExtended]
    exact feasible_foldl_add_iff admissible _ supported.sorted
      (List.forall_mem_singleton.2 isCondition)

/-! ## Forks -/

private theorem modelsOf_total {term : Term} {models : List Model}
    (evaluates : ∀ model ∈ models, ∃ value, model.evaluate term = .ok value) :
    ∃ kept, modelsOf term models = .ok kept := by
  induction models with
  | nil => exact ⟨[], rfl⟩
  | cons model rest inductionHypothesis =>
      rw [List.forall_mem_cons] at evaluates
      obtain ⟨value, evaluated⟩ := evaluates.1
      obtain ⟨kept, keeps⟩ := inductionHypothesis evaluates.2
      exact ⟨_, Model.bind_eq_ok.2 ⟨value, evaluated, Model.bind_eq_ok.2 ⟨kept, keeps, rfl⟩⟩⟩

private theorem addConstraint_total (state : State) {constraint : Term}
    (evaluates : ∀ model ∈ state.models, ∃ value, model.evaluate constraint.encoded = .ok value) :
    ∃ extended, state.addConstraint constraint = .ok extended := by
  rw [State.addConstraint]
  dsimp only
  split
  · exact ⟨_, rfl⟩
  · obtain ⟨kept, keeps⟩ := modelsOf_total evaluates
    rw [Term.encode_start, keeps]
    exact ⟨_, rfl⟩

/-- An active state can be forked on what its models can evaluate. -/
private theorem fork_total {state : State} {condition : Term} (active : state.status = .active)
    (evaluates : ∀ model ∈ state.models, ∃ value, model.evaluate condition.encoded = .ok value)
    (negationEvaluates : ∀ model ∈ state.models,
      ∃ value, model.evaluate condition.not.encoded = .ok value)
    (supply : Supply) :
    ∃ children after, (state.fork condition).run.run supply = (.ok children, after) := by
  have isActive : state.checkActive = .ok () := checkActive_eq_ok.2 active
  obtain ⟨positive, firstExtended⟩ := (state.child.run supply).1.addConstraint_total evaluates
  obtain ⟨negative, secondExtended⟩ :=
    (state.child.run (state.child.run supply).2).1.addConstraint_total negationEvaluates
  refine ⟨(positive, negative), (state.child.run (state.child.run supply).2).2, ?_⟩
  rw [State.fork, isActive, Fresh.run_bind_of_ok (Fresh.run_lift _ supply),
    Fresh.run_bind_of_ok (Fresh.run_fresh _ _), firstExtended,
    Fresh.run_bind_of_ok (Fresh.run_lift _ _), Fresh.run_bind_of_ok (Fresh.run_fresh _ _),
    secondExtended, Fresh.run_bind_of_ok (Fresh.run_lift _ _)]
  rfl

/-- Under an exact solver a fork keeps each of its children exactly. -/
private theorem forkWithSolver_exact (exact : solver.Exact frames candidates)
    (admissible : ∀ model, candidates model → model.Admissible vocabulary)
    {state positive negative : State} {condition : Term} {supply after : Supply}
    (supported : state.Supported vocabulary)
    (inherited : ∀ model ∈ state.models, model.Admissible vocabulary)
    (isCondition : condition.IsCondition vocabulary)
    (forks : (state.fork condition).run.run supply = (.ok (positive, negative), after))
    (options : Options) (before : σ) :
    ∃ keptPositive keptNegative answered,
      (state.forkWithSolver condition solver options before).run.run supply =
        (.ok ((keptPositive, keptNegative), answered), after) ∧
      frames answered = frames before ∧
      KeptExactly candidates (frames before).flatten state condition positive keptPositive ∧
      KeptExactly candidates (frames before).flatten state condition.not negative
        keptNegative := by
  obtain ⟨_, first, second, isFirst, isSecond, firstExtended, secondExtended⟩ := fork_cases forks
  obtain ⟨keptPositive, between, keepsFirst, betweenRestored, firstExact⟩ :=
    keptExactly_of_addConstraint exact admissible supported inherited isCondition isFirst
      firstExtended options before
  obtain ⟨keptNegative, answered, keepsSecond, restored, secondExact⟩ :=
    keptExactly_of_addConstraint exact admissible supported inherited isCondition.not isSecond
      secondExtended options between
  rw [betweenRestored] at restored secondExact
  refine ⟨keptPositive, keptNegative, answered, ?_, restored, firstExact, secondExact⟩
  rw [State.forkWithSolver, Fresh.run_bind_of_ok forks]
  dsimp only
  rw [keepsFirst, Fresh.run_bind_of_ok (Fresh.run_lift _ _)]
  dsimp only
  rw [keepsSecond, Fresh.run_bind_of_ok (Fresh.run_lift _ _)]
  rfl

/-! ## Conditions and their encodings -/

/-- A flat condition is evaluated under every admissible model. -/
private theorem evaluates_of_isFlat {model : Model} (admissible : model.Admissible vocabulary)
    {condition : Term} (isCondition : condition.IsCondition vocabulary)
    (flat : condition.isFlat = true) : ∃ value, model.evaluate condition.encoded = .ok value := by
  obtain ⟨truth, evaluated⟩ :=
    Model.evaluate_bool_ok admissible.sorted isCondition.1 isCondition.2 flat
  have refines := Term.encoded_refines condition isCondition.1
  exact ⟨_, Model.evaluate_of_eval (refines.eval admissible Bindings.respect_empty evaluated)⟩

/-- Where its encoding is true, a condition has no other value. -/
private theorem eq_true_of_encoded {model : Model} (admissible : model.Admissible vocabulary)
    {condition : Term} (isCondition : condition.IsCondition vocabulary)
    (encodingHolds : model.Satisfies condition.encoded) {value : Constant}
    (evaluated : model.eval [] condition = .ok value) : value = .bool true := by
  have refines := Term.encoded_refines condition isCondition.1
  have encodingEvaluated := refines.eval admissible Bindings.respect_empty evaluated
  have isTrue : model.eval [] condition.encoded = .ok (.bool true) :=
    Model.satisfies_iff.1 encodingHolds
  rw [encodingEvaluated, Except.ok.injEq] at isTrue
  exact isTrue

/-- A flat condition is true where its encoding is. -/
private theorem satisfies_of_encoded {model : Model} (admissible : model.Admissible vocabulary)
    {condition : Term} (isCondition : condition.IsCondition vocabulary)
    (encodingHolds : model.Satisfies condition.encoded)
    (flat : condition.isFlat = true) : model.Satisfies condition := by
  obtain ⟨truth, evaluated⟩ :=
    Model.evaluate_bool_ok admissible.sorted isCondition.1 isCondition.2 flat
  rw [eq_true_of_encoded admissible isCondition encodingHolds evaluated] at evaluated
  exact Model.satisfies_iff.2 evaluated

/-- A model that is found for the encodings of a condition never denies the
condition. -/
private theorem satisfies_of_decided {model : Model} (admissible : model.Admissible vocabulary)
    {condition : PathCondition} (sorted : condition.Sorted vocabulary) {asserted : List Term}
    (satisfies : ∀ term ∈ Term.encodedAll condition.constraints ++ asserted,
      model.Satisfies term) :
    ∀ literal ∈ condition.constraints,
      model.Satisfies literal.encoded ∧
        (∀ value, model.evaluate literal = .ok (some value) → value = .bool true) ∧
        (literal.isFlat = true → model.Satisfies literal) := by
  intro literal recorded
  have allTrue := Model.all_encoded_iff.1 (List.forall_mem_append.1 satisfies).1
  have encodingHolds := Model.all_satisfy_encoded_iff.2 allTrue literal recorded
  have isCondition := sorted literal recorded
  refine ⟨encodingHolds, ?_, satisfies_of_encoded admissible isCondition encodingHolds⟩
  intro value evaluated
  exact eq_true_of_encoded admissible isCondition encodingHolds
    (Model.evaluate_eq_some.1 evaluated)

private theorem isFlat_not {condition : Term} (flat : condition.isFlat = true) :
    condition.not.isFlat = true := by
  rcases Term.not_cases condition with ⟨_, _, result⟩ | ⟨inner, rfl, result⟩ | result <;>
    rw [result]
  · rfl
  · rw [Term.isFlat] at flat
    exact flat
  · rw [Term.isFlat]
    exact flat

/-! ## Verdicts -/

/-- Soft constraints, known contradictions and the models of the parent change
no verdict of an exact solver, and leave its assertions as they were. -/
theorem verdicts_independent_of_shortcuts
    {σ : Type}
    (solver : Solver σ)
    (frames : σ → List (List Term))
    (candidates : Model → Prop)
    (exact : solver.Exact frames candidates)
    (vocabulary : Vocabulary)
    (admissible : ∀ model, candidates model → model.Admissible vocabulary)
    (options : Options)
    (before : σ) :
    (∀ (regions : List Region) (session : Session), session.Reached regions →
      ∀ condition : PathCondition, condition.Sorted vocabulary → ∀ timeout,
        ∃ outcome after softOutcome softAfter,
          solver.check session condition timeout before = .ok (outcome, after) ∧
          solver.checkSoftly session condition options before = .ok (softOutcome, softAfter) ∧
          (outcome.isSatisfiable = true ↔
            Feasible candidates (frames before).flatten condition.constraints) ∧
          (softOutcome.isSatisfiable = true ↔ outcome.isSatisfiable = true) ∧
          (∀ model, outcome.model? = some model ∨ softOutcome.model? = some model →
            candidates model ∧ ∀ literal ∈ condition.constraints,
              model.Satisfies literal.encoded ∧
                (∀ value, model.evaluate literal = .ok (some value) → value = .bool true) ∧
                (literal.isFlat = true → model.Satisfies literal)) ∧
          frames after = frames before ∧ frames softAfter = frames before) ∧
    (∀ condition : PathCondition, condition.Sorted vocabulary →
      ∀ constraints : List Term, (∀ constraint ∈ constraints, constraint.IsCondition vocabulary) →
        (Feasible candidates (frames before).flatten
            (constraints.foldl .add condition).constraints ↔
          Feasible candidates (frames before).flatten (condition.constraints ++ constraints))) ∧
    (∀ state : State, state.Supported vocabulary →
      (∀ model ∈ state.models, model.Admissible vocabulary) →
      ∀ condition : Term, condition.IsCondition vocabulary → ∀ supply,
        (state.status = .active → condition.isFlat = true →
          ∃ children after, (state.fork condition).run.run supply = (.ok children, after)) ∧
        (∀ cause after, (state.fork condition).run.run supply = (.error cause, after) →
          (state.forkWithSolver condition solver options before).run.run supply =
            (.error cause, after)) ∧
        ∀ positive negative after,
          (state.fork condition).run.run supply = (.ok (positive, negative), after) →
            ∃ keptPositive keptNegative answered,
              (state.forkWithSolver condition solver options before).run.run supply =
                (.ok ((keptPositive, keptNegative), answered), after) ∧
              frames answered = frames before ∧
              KeptExactly candidates (frames before).flatten state condition positive
                keptPositive ∧
              KeptExactly candidates (frames before).flatten state condition.not negative
                keptNegative) := by
  refine ⟨?_, ?_, ?_⟩
  · intro regions session reached condition sorted timeout
    obtain ⟨outcome, after, checks, decides, restored⟩ :=
      exact.check reached.faithful condition timeout before
    obtain ⟨softOutcome, softAfter, softChecks, softDecides, softRestored⟩ :=
      exact.checkSoftly reached.faithful condition options before
    refine ⟨outcome, after, softOutcome, softAfter, checks, softChecks, ?_, ?_, ?_, restored,
      softRestored⟩
    · rw [decides.isSatisfiable_iff, Solver.decided_iff_feasible]
    · rw [softDecides.isSatisfiable_iff, decides.isSatisfiable_iff]
    · intro model returned
      have found : candidates model ∧ ∀ term ∈ Term.encodedAll condition.constraints ++
          (frames before).flatten, model.Satisfies term := by
        rcases returned with found | found
        · exact decides.model found
        · exact softDecides.model found
      exact ⟨found.1, satisfies_of_decided (admissible model found.1) sorted found.2⟩
  · intro condition sorted constraints areConditions
    exact feasible_foldl_add_iff admissible _ sorted areConditions
  · intro state supported inherited condition isCondition supply
    refine ⟨?_, ?_, ?_⟩
    · intro active flat
      apply fork_total active
      · exact fun model member => evaluates_of_isFlat (inherited model member) isCondition flat
      · exact fun model member =>
          evaluates_of_isFlat (inherited model member) isCondition.not (isFlat_not flat)
    · intro cause after fails
      rw [State.forkWithSolver, Fresh.run_bind_of_error fails]
    · intro positive negative after forks
      exact forkWithSolver_exact exact admissible supported inherited isCondition forks options
        before

/-! ## A candidate beyond the soft bound -/

/-- A state at its start that knows one model. -/
def knowsThree : State := ((create "main").run Supply.initial).1.addModel (counted 3 true)

/-- Soft constraints that ask for integers between -5 and 5. -/
def narrowBounds : Options := { Options.initial with softConstraints := true, softBound := 5 }

/-- The solver already asks for the second way. -/
def asksForSecond : List (List Term) × Option Model := ([[.negation (.var "first" .bool)]], none)

private theorem knowsThree_supported : knowsThree.Supported countingSymbols :=
  (create_supported "main" Supply.initial).addModel (counted_admissible 3 true)
    (List.forall_mem_nil _)

/-- The known model keeps the side below five, although the solver has no
candidate for it. The other side is kept for a candidate that the soft
constraints exclude, and a check of its condition finds that one too. -/
theorem verdicts_beyond_narrowBounds :
    (∃ outcome after, (Solver.exhaustive [counted 7 false]).checkSoftly
        (.start Session.defaultUnrollLimit) (.add .empty belowFive.not) narrowBounds
          asksForSecond = .ok (outcome, after) ∧
      outcome.isSatisfiable = true ∧ after.1 = asksForSecond.1) ∧
    ∃ positive negative answered after,
      (knowsThree.forkWithSolver belowFive (Solver.exhaustive [counted 7 false]) narrowBounds
        asksForSecond).run.run Supply.initial =
          (.ok ((some positive, some negative), answered), after) ∧
      answered.1 = asksForSecond.1 := by
  obtain ⟨checks, _, forks⟩ := verdicts_independent_of_shortcuts
    (Solver.exhaustive [counted 7 false]) Prod.fst _ (Solver.exhaustive_exact _) countingSymbols
    (List.forall_mem_singleton.2 (counted_admissible 7 false)) narrowBounds asksForSecond
  have satisfiesAll : ∀ condition ∈ [belowFive.not],
      (counted 7 false).Satisfies condition.encoded := List.forall_mem_singleton.2 rfl
  have assertionsHold : ∀ term ∈ asksForSecond.1.flatten, (counted 7 false).Satisfies term :=
    List.forall_mem_singleton.2 rfl
  constructor
  · obtain ⟨outcome, _, softOutcome, softAfter, _, softChecks, verdict, agrees, _, _, restored⟩ :=
      checks [] _ (.start Session.defaultUnrollLimit) (.add .empty belowFive.not)
        (PathCondition.empty_sorted.add belowFive_isCondition.not) 0
    refine ⟨softOutcome, softAfter, softChecks, agrees.2 (verdict.2 ?_), restored⟩
    exact ⟨counted 7 false, List.mem_cons_self, assertionsHold, satisfiesAll⟩
  · obtain ⟨total, _, keeps⟩ := forks knowsThree knowsThree_supported
      (List.forall_mem_singleton.2 (counted_admissible 3 true)) belowFive belowFive_isCondition
      Supply.initial
    obtain ⟨⟨positive, negative⟩, after, forked⟩ := total rfl rfl
    obtain ⟨keptPositive, keptNegative, answered, succeeds, restored, positiveExact,
      negativeExact⟩ := keeps positive negative after forked
    have positiveKept : keptPositive.isSome = true :=
      positiveExact.exactly.2 (.inl ⟨counted 3 true, List.mem_cons_self, rfl⟩)
    have negativeKept : keptNegative.isSome = true := by
      apply negativeExact.exactly.2
      apply Or.inr
      apply negativeExact.added.2
      exact ⟨counted 7 false, List.mem_cons_self, assertionsHold, satisfiesAll⟩
    obtain ⟨_, rfl⟩ := Option.isSome_iff_exists.1 positiveKept
    obtain ⟨_, rfl⟩ := Option.isSome_iff_exists.1 negativeKept
    exact ⟨_, _, answered, after, succeeds, restored⟩

end State

end SymbolicHeap
