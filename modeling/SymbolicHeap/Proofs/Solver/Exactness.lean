import SymbolicHeap.Proofs.PathCondition.Conjunction
import SymbolicHeap.Proofs.Solver.Soundness

/-!
Contract: the verdicts of an exact solver.

An exact solver keeps a stack of frames of assertions and searches a set of
candidates: it is satisfiable, with a candidate that satisfies all assertions,
as soon as there is one, and unsatisfiable otherwise. Checking a path condition
opens a frame and closes it again, so the stack is left as it was. Soft
constraints are tried first and then forgotten, so they do not matter for what
is decided, nor does a contradiction that is known without the solver.

Owns:
- exact solvers, with the exhaustive search of a list of models as one of them;
- conditions that a candidate can satisfy along with what is asserted already;
- what the checks of an exact solver decide, and that they restore the stack.
-/

namespace SymbolicHeap

/-! ## Decided terms -/

/-- A candidate that satisfies all of some terms is returned, or there is none. -/
def Outcome.Decides (candidates : Model → Prop) (terms : List Term) : Outcome → Prop
  | .satisfiable model => candidates model ∧ ∀ term ∈ terms, model.Satisfies term
  | .unsatisfiable => ¬ ∃ model, candidates model ∧ ∀ term ∈ terms, model.Satisfies term
  | .unknown => False

/-- Some candidate satisfies the encodings of some conditions, along with all
that is asserted. -/
def Feasible (candidates : Model → Prop) (asserted conditions : List Term) : Prop :=
  ∃ model, candidates model ∧ (∀ term ∈ asserted, model.Satisfies term) ∧
    ∀ condition ∈ conditions, model.Satisfies condition.encoded

namespace Outcome

variable {candidates : Model → Prop} {outcome : Outcome}

theorem Decides.congr {terms others : List Term} (decides : outcome.Decides candidates terms)
    (same : ∀ term, term ∈ terms ↔ term ∈ others) : outcome.Decides candidates others := by
  cases outcome with
  | satisfiable model => simpa only [Decides, same] using decides
  | unsatisfiable => simpa only [Decides, same] using decides
  | unknown => exact decides

/-- A model that is found for some terms is one for a part of them. -/
private theorem Decides.weaken {terms others : List Term}
    (decides : outcome.Decides candidates terms)
    (found : outcome.isSatisfiable = true) (part : others ⊆ terms) :
    outcome.Decides candidates others := by
  cases outcome with
  | satisfiable model => exact ⟨decides.1, fun term member => decides.2 term (part member)⟩
  | unsatisfiable => cases found
  | unknown => cases found

theorem Decides.isSatisfiable_iff {terms : List Term}
    (decides : outcome.Decides candidates terms) :
    outcome.isSatisfiable = true ↔
      ∃ model, candidates model ∧ ∀ term ∈ terms, model.Satisfies term := by
  cases outcome with
  | satisfiable model => exact iff_of_true rfl ⟨model, decides⟩
  | unsatisfiable => exact iff_of_false Bool.false_ne_true decides
  | unknown => exact decides.elim

theorem Decides.model {terms : List Term} {model : Model}
    (decides : outcome.Decides candidates terms)
    (found : outcome.model? = some model) :
    candidates model ∧ ∀ term ∈ terms, model.Satisfies term := by
  cases outcome with
  | satisfiable returned =>
      cases found
      exact decides
  | unsatisfiable => cases found
  | unknown => cases found

end Outcome

/-! ## Exact solvers -/

namespace Solver

variable {σ : Type}

/-- The solver keeps a stack of frames, and decides what they assert over a set
of candidates. -/
structure Exact (solver : Solver σ) (frames : σ → List (List Term)) (candidates : Model → Prop) :
    Prop where
  push : ∀ state, frames (solver.push state) = [] :: frames state
  assume : ∀ {term state frame outer}, frames state = frame :: outer →
    frames (solver.assume term state) = (term :: frame) :: outer
  pop : ∀ state, frames (solver.pop state) = (frames state).tail
  model : ∀ state, frames (solver.model? state).2 = frames state
  solve : ∀ timeout state, ∃ solved, frames solved = frames state ∧
    ((∃ model, solver.solve timeout state = .ok (.satisfiable, solved) ∧
        (solver.model? solved).1 = some model ∧ candidates model ∧
          ∀ term ∈ (frames state).flatten, model.Satisfies term) ∨
      solver.solve timeout state = .ok (.unsatisfiable, solved) ∧
        ¬ ∃ model, candidates model ∧ ∀ term ∈ (frames state).flatten, model.Satisfies term)

namespace Exact

variable {solver : Solver σ} {frames : σ → List (List Term)} {candidates : Model → Prop}
  (exact : solver.Exact frames candidates)

include exact

/-- What is assumed goes to the top frame. -/
theorem assume_all (terms : List Term) {state : σ} {frame : List Term}
    {outer : List (List Term)} (isTop : frames state = frame :: outer) :
    frames (terms.foldl (fun state term => solver.assume term state) state) =
      (terms.reverse ++ frame) :: outer := by
  induction terms generalizing state frame with
  | nil => exact isTop
  | cons term rest inductionHypothesis =>
      rw [List.foldl_cons, inductionHypothesis (exact.assume isTop), List.reverse_cons,
        List.append_assoc, List.singleton_append]

/-- A question is decided along with what is asserted already, and leaves the
stack as it was. -/
theorem solveTerms (terms : List Term) (timeout : Nat) (state : σ) :
    ∃ outcome after, solver.solveTerms terms timeout state = .ok (outcome, after) ∧
      outcome.Decides candidates (terms ++ (frames state).flatten) ∧
        frames after = frames state := by
  have isTop := exact.assume_all terms (exact.push state)
  have sameTerms : ∀ term, term ∈ ((terms.reverse ++ []) :: frames state).flatten ↔
      term ∈ terms ++ (frames state).flatten := by
    simp
  obtain ⟨solved, kept, ⟨model, solves, isModel, satisfies⟩ | ⟨solves, unsatisfied⟩⟩ :=
    exact.solve timeout
      (terms.foldl (fun state term => solver.assume term state) (solver.push state))
  · refine ⟨.satisfiable model, solver.pop (solver.model? solved).2, ?_, ?_, ?_⟩
    · rw [Solver.solveTerms, solves]
      show Except.ok _ = _
      rw [isModel]
      rfl
    · rw [isTop] at satisfies
      exact Outcome.Decides.congr satisfies sameTerms
    · rw [exact.pop, exact.model, kept, isTop, List.tail_cons]
  · refine ⟨.unsatisfiable, solver.pop solved, ?_, ?_, ?_⟩
    · rw [Solver.solveTerms, solves]
      rfl
    · rw [isTop] at unsatisfied
      exact Outcome.Decides.congr unsatisfied sameTerms
    · rw [exact.pop, kept, isTop, List.tail_cons]

/-- A condition that is known to contradict itself needs no solver, and no
candidate either. -/
theorem check {session : Session} (faithful : session.Faithful) (condition : PathCondition)
    (timeout : Nat) (state : σ) :
    ∃ outcome after, solver.check session condition timeout state = .ok (outcome, after) ∧
      outcome.Decides candidates
        (Term.encodedAll condition.constraints ++ (frames state).flatten) ∧
        frames after = frames state := by
  rw [Solver.check]
  split
  · next contradicts =>
      refine ⟨.unsatisfiable, state, rfl, ?_, rfl⟩
      rintro ⟨model, _, satisfies⟩
      have allTrue := Model.all_encoded_iff.1 (List.forall_mem_append.1 satisfies).1
      exact model.valuation.encoded.not_all_of_isFalse contradicts allTrue
  · rw [condition.encode_faithful faithful]
    exact exact.solveTerms _ timeout state

/-- Soft constraints change the model that is found, and nothing else. -/
theorem checkSoftly {session : Session} (faithful : session.Faithful)
    (condition : PathCondition) (options : Options) (state : σ) :
    ∃ outcome after, solver.checkSoftly session condition options state = .ok (outcome, after) ∧
      outcome.Decides candidates
        (Term.encodedAll condition.constraints ++ (frames state).flatten) ∧
        frames after = frames state := by
  rw [Solver.checkSoftly]
  split
  · exact exact.check faithful condition options.solverTimeout state
  · have isHard := condition.encode_faithful faithful
    rcases encodes : condition.encode.run session with ⟨hard, encoded⟩
    rw [encodes] at isHard
    subst isHard
    dsimp only
    rcases (Term.encodeAll (condition.softConstraints options.softBound)).run encoded with ⟨soft, _⟩
    dsimp only
    obtain ⟨outcome, tried, attempts, decides, restored⟩ := exact.solveTerms
      (Term.encodedAll condition.constraints ++ soft) options.solverTimeout state
    rw [attempts]
    show ∃ final after, (if outcome.isSatisfiable then Except.ok (outcome, tried)
      else solver.solveTerms _ options.solverTimeout tried) = .ok (final, after) ∧ _
    cases found : outcome.isSatisfiable with
    | true =>
        refine ⟨outcome, tried, rfl, decides.weaken found ?_, restored⟩
        intro term
        simp only [List.mem_append]
        tauto
    | false =>
        rw [← restored]
        exact exact.solveTerms _ options.solverTimeout tried

end Exact

theorem decided_iff_feasible {candidates : Model → Prop} {asserted conditions : List Term} :
    (∃ model, candidates model ∧
      ∀ term ∈ Term.encodedAll conditions ++ asserted, model.Satisfies term) ↔
        Feasible candidates asserted conditions := by
  simp only [Feasible, Term.encodedAll_eq_map, List.forall_mem_append, List.forall_mem_map]
  exact exists_congr fun model => and_congr_right fun _ => and_comm

end Solver

/-! ## Exhaustive search -/

/-- Whether the model satisfies all of some terms. A term without a value is not
satisfied. -/
def Model.satisfiesAll (model : Model) (terms : List Term) : Bool :=
  terms.all fun term => model.evaluate term = .ok (some (.bool true))

private theorem Model.satisfiesAll_iff {model : Model} {terms : List Term} :
    model.satisfiesAll terms = true ↔ ∀ term ∈ terms, model.Satisfies term := by
  simp only [satisfiesAll, List.all_eq_true, decide_eq_true_eq, Satisfies]

namespace Solver

/-- A solver that tries some models one by one. -/
def exhaustive (candidates : List Model) : Solver (List (List Term) × Option Model) where
  push := fun (frames, found) => ([] :: frames, found)
  assume := fun term (frames, found) =>
    match frames with
    | frame :: outer => ((term :: frame) :: outer, found)
    | [] => ([[term]], found)
  solve := fun _ (frames, _) =>
    let found := candidates.find? fun model => model.satisfiesAll frames.flatten
    .ok (if found.isSome then .satisfiable else .unsatisfiable, frames, found)
  model? := fun state => (state.2, state)
  pop := fun (frames, found) => (frames.tail, found)

theorem exhaustive_exact (candidates : List Model) :
    (exhaustive candidates).Exact Prod.fst (· ∈ candidates) where
  push := fun _ => rfl
  assume := by
    rintro term ⟨frames, found⟩ frame outer rfl
    rfl
  pop := fun _ => rfl
  model := fun _ => rfl
  solve := by
    rintro timeout ⟨frames, before⟩
    cases searched : candidates.find? fun model => model.satisfiesAll frames.flatten with
    | some model =>
        have satisfies := List.find?_some searched
        refine ⟨(frames, some model), rfl, .inl ⟨model, ?_, rfl, ?_, ?_⟩⟩
        · simp only [exhaustive, searched, Option.isSome_some, if_true]
        · exact List.mem_of_find?_eq_some searched
        · exact Model.satisfiesAll_iff.1 satisfies
    | none =>
        refine ⟨(frames, none), rfl, .inr ⟨?_, ?_⟩⟩
        · simp only [exhaustive, searched, Option.isSome_none, Bool.false_eq_true, if_false]
        · rintro ⟨model, member, satisfies⟩
          have fails := List.find?_eq_none.1 searched model member
          exact fails (Model.satisfiesAll_iff.2 satisfies)

end Solver

end SymbolicHeap
