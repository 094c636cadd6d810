import SymbolicHeap.Proofs.ArrayTheory.Sessions
import SymbolicHeap.Proofs.PathCondition.Truth
import SymbolicHeap.Solver.Candidates

/-!
Contract: the models of a solver that tells the truth.

A solver is trusted with one thing: a model that comes with a satisfiable
verdict satisfies all assertions. Checking a path condition asserts its encoded
literals, with soft constraints or without, so a model that it returns makes the
encoded condition true.

Owns:
- encodings of conditions in a session;
- sound solvers, and that the candidate solver is one;
- the models that the checks of a sound solver return.
-/

namespace SymbolicHeap

/-! ## Encoded conditions -/

theorem Term.encode_start (term : Term) (limit : Nat) :
    (term.encode.run (.start limit)).1 = term.encoded := by
  obtain ⟨after, ran, _⟩ := Encoding.returns_encode Encoding.onValues_faithful term
    (.start limit) (Session.start_faithful limit)
  rw [ran]

theorem PathCondition.encode_faithful (condition : PathCondition) {session : Session}
    (faithful : session.Faithful) :
    (condition.encode.run session).1 = Term.encodedAll condition.constraints := by
  obtain ⟨after, ran, _⟩ := Encoding.returns_encodeAll Encoding.onValues_faithful
    condition.constraints session faithful
  rw [PathCondition.encode, ran]

theorem PathCondition.encode_start (condition : PathCondition) (limit : Nat) :
    (condition.encode.run (.start limit)).1 = Term.encodedAll condition.constraints :=
  condition.encode_faithful (Session.start_faithful limit)

theorem Term.encodedAll_eq_map (terms : List Term) :
    Term.encodedAll terms = terms.map Term.encoded := by
  induction terms with
  | nil => rw [Term.encodedAll, List.map_nil]
  | cons head tail inductionHypothesis =>
      rw [Term.encodedAll, List.map_cons, inductionHypothesis]

theorem Model.all_satisfy_encoded_iff {model : Model} {conditions : List Term} :
    (∀ condition ∈ conditions, model.Satisfies condition.encoded) ↔
      model.valuation.encoded.All conditions := by
  simp only [Model.satisfies_iff]
  rfl

theorem Model.all_encoded_iff {model : Model} {conditions : List Term} :
    (∀ term ∈ Term.encodedAll conditions, model.Satisfies term) ↔
      model.valuation.encoded.All conditions := by
  rw [Term.encodedAll_eq_map, List.forall_mem_map, all_satisfy_encoded_iff]

/-! ## Sound solvers -/

namespace Solver

variable {σ : Type}

/-- The solver keeps what it is asked to assume, and a model that comes with a
satisfiable verdict satisfies it. -/
structure Sound (solver : Solver σ) (asserted : σ → List Term) : Prop where
  push : ∀ state, asserted state ⊆ asserted (solver.push state)
  assume : ∀ term state, term :: asserted state ⊆ asserted (solver.assume term state)
  model : ∀ {timeout state solved model},
    solver.solve timeout state = .ok (.satisfiable, solved) →
      (solver.model? solved).1 = some model →
        ∀ term ∈ asserted state, model.Satisfies term

variable {solver : Solver σ} {asserted : σ → List Term}

theorem Sound.assume_all (sound : solver.Sound asserted) (terms : List Term) (state : σ) :
    terms ⊆ asserted (terms.foldl (fun state term => solver.assume term state) state) ∧
      asserted state ⊆
        asserted (terms.foldl (fun state term => solver.assume term state) state) := by
  induction terms generalizing state with
  | nil => exact ⟨List.nil_subset _, List.Subset.refl _⟩
  | cons term rest inductionHypothesis =>
      obtain ⟨restKept, earlierKept⟩ := inductionHypothesis (solver.assume term state)
      obtain ⟨termKept, stateKept⟩ :=
        List.cons_subset.1 (List.Subset.trans (sound.assume term state) earlierKept)
      exact ⟨List.cons_subset.2 ⟨termKept, restKept⟩, stateKept⟩

theorem Sound.solveTerms (sound : solver.Sound asserted) {terms : List Term} {timeout : Nat}
    {state after : σ} {outcome : Outcome} {model : Model}
    (solves : solver.solveTerms terms timeout state = .ok (outcome, after))
    (found : outcome.model? = some model) :
    ∀ term ∈ terms, model.Satisfies term := by
  rw [Solver.solveTerms] at solves
  obtain ⟨⟨verdict, solved⟩, decides, answers⟩ := Model.bind_eq_ok.1 solves
  cases verdict with
  | satisfiable =>
      obtain ⟨rfl, _⟩ := Prod.mk.inj (Model.pure_eq_ok.1 answers)
      cases answer : (solver.model? solved).1 with
      | none =>
          rw [answer] at found
          cases found
      | some returned =>
          rw [answer] at found
          cases found
          intro term member
          exact sound.model decides answer term ((sound.assume_all terms _).1 member)
  | unsatisfiable =>
      obtain ⟨rfl, _⟩ := Prod.mk.inj (Model.pure_eq_ok.1 answers)
      cases found
  | undefined =>
      obtain ⟨rfl, _⟩ := Prod.mk.inj (Model.pure_eq_ok.1 answers)
      cases found

/-- A model for a path condition satisfies the encoded condition. -/
theorem Sound.check (sound : solver.Sound asserted) {condition : PathCondition}
    {limit timeout : Nat} {state after : σ} {outcome : Outcome} {model : Model}
    (checks : solver.check (.start limit) condition timeout state = .ok (outcome, after))
    (found : outcome.model? = some model) :
    model.valuation.encoded.All condition.constraints := by
  rw [Solver.check] at checks
  split at checks
  · cases checks
    cases found
  · rw [PathCondition.encode_start] at checks
    exact Model.all_encoded_iff.1 (sound.solveTerms checks found)

theorem Sound.checkSoftly (sound : solver.Sound asserted) {condition : PathCondition}
    {limit : Nat} {options : Options} {state after : σ} {outcome : Outcome} {model : Model}
    (checks : solver.checkSoftly (.start limit) condition options state = .ok (outcome, after))
    (found : outcome.model? = some model) :
    model.valuation.encoded.All condition.constraints := by
  rw [Solver.checkSoftly] at checks
  split at checks
  · exact sound.check checks found
  · rcases encodes : condition.encode.run (.start limit) with ⟨hard, session⟩
    have isHard : hard = Term.encodedAll condition.constraints := by
      rw [← PathCondition.encode_start condition limit, encodes]
    rw [encodes] at checks
    obtain ⟨⟨tried, triedState⟩, solves, rest⟩ := Model.bind_eq_ok.1 checks
    apply Model.all_encoded_iff.1
    rw [← isHard]
    simp only at rest
    split at rest
    · obtain ⟨rfl, _⟩ := Prod.mk.inj (Model.pure_eq_ok.1 rest)
      exact (List.forall_mem_append.1 (sound.solveTerms solves found)).1
    · exact sound.solveTerms rest found

end Solver

/-! ## The candidate solver -/

namespace CandidateState

private theorem holds_of_holdsAll {model : Model} {terms : List Term}
    (holds : holdsAll model terms = .ok true) : ∀ term ∈ terms, model.Satisfies term := by
  induction terms with
  | nil => simp
  | cons term rest inductionHypothesis =>
      obtain ⟨truth, termEvaluates, restHold⟩ := Model.bind_eq_ok.1 holds
      obtain ⟨value, evaluated, isTrue⟩ := Model.bind_eq_ok.1 termEvaluates
      cases truth with
      | false => cases restHold
      | true =>
          rw [of_decide_eq_true (Model.pure_eq_ok.1 isTrue)] at evaluated
          rw [List.forall_mem_cons]
          exact ⟨evaluated, inductionHypothesis restHold⟩

private theorem holds_of_firstModel {terms : List Term} {candidates : List Model} {model : Model}
    (found : firstModel terms candidates = .ok (some model)) :
    ∀ term ∈ terms, model.Satisfies term := by
  induction candidates with
  | nil => cases found
  | cons candidate rest inductionHypothesis =>
      obtain ⟨truth, holds, next⟩ := Model.bind_eq_ok.1 found
      cases truth with
      | true =>
          cases Model.pure_eq_ok.1 next
          exact holds_of_holdsAll holds
      | false => exact inductionHypothesis next

private theorem mem_assertions {state : CandidateState} {term : Term} :
    term ∈ state.assertions ↔ ∃ frame ∈ state.frames, term ∈ frame := by
  simp only [assertions, List.mem_flatten, List.mem_reverse, List.mem_map]
  constructor
  · rintro ⟨_, ⟨frame, member, rfl⟩, asserted⟩
    exact ⟨frame, member, List.mem_reverse.1 asserted⟩
  · rintro ⟨frame, member, asserted⟩
    exact ⟨_, ⟨frame, member, rfl⟩, List.mem_reverse.2 asserted⟩

/-- A candidate is returned only if it satisfies all assertions. -/
theorem solver_sound : solver.Sound assertions where
  push := by
    intro state term
    simp only [mem_assertions, solver, push, List.mem_cons]
    rintro ⟨frame, member, asserted⟩
    exact ⟨frame, .inr member, asserted⟩
  assume := by
    intro term state asserted
    simp only [List.mem_cons, mem_assertions, solver, CandidateState.assume]
    cases state.frames with
    | nil => simp
    | cons frame outer =>
        simp only [List.mem_cons, exists_eq_or_imp]
        tauto
  model := by
    intro timeout state solved model solves returned
    obtain ⟨found, isFirst, answers⟩ := Model.bind_eq_ok.1 solves
    have isFound : found = some model := by
      simp only at answers
      split at answers <;>
        obtain ⟨verdict, rfl⟩ := Prod.mk.inj (Model.pure_eq_ok.1 answers)
      · cases verdict
      · cases verdict
      · cases returned
      · exact returned
    rw [isFound] at isFirst
    exact holds_of_firstModel isFirst

end CandidateState

end SymbolicHeap
