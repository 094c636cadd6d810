import SymbolicHeap.PathCondition.Equality
import SymbolicHeap.Proofs.Sorts.Evaluation

/-!
Contract: equations that are found to contradict each other do so.

The search for a contradiction takes terms for opaque. It is sound for every
reading of terms as values that keeps different constants apart: a link leads
from a term to another one with the same value, so a representative has the
value of its class.

Owns:
- readings of terms, and what a literal says under a reading;
- soundness of links;
- a contradiction consists of given literals, and no reading satisfies it.
-/

namespace SymbolicHeap

namespace Equation

/-- Values of terms, as far as they have one. -/
structure Reading (α : Type) where
  denotes : Term → α → Prop
  unique : ∀ {term value other}, denotes term value → denotes term other → value = other
  distinct : ∀ {left right value}, denotes (.const left) value → denotes (.const right) value →
    left = right

namespace Reading

variable {α : Type} (reading : Reading α)

/-- An equality says that both sides have one value, a disequality that they
have two. No other literal says anything. -/
def Holds : Term → Prop
  | .binary .equals left right => ∃ value, reading.denotes left value ∧ reading.denotes right value
  | .negation (.binary .equals left right) =>
      ∃ value other, reading.denotes left value ∧ reading.denotes right other ∧ value ≠ other
  | _ => True

/-- Links lead to terms with the same value. -/
def Follows (links : Links) : Prop :=
  ∀ link ∈ links, ∀ value, reading.denotes link.1 value → reading.denotes link.2 value

private theorem representative_denotes {links : Links} (follows : reading.Follows links)
    {term : Term}
    {value : α} (denotes : reading.denotes term value) :
    reading.denotes (representative links term) value := by
  induction links generalizing term with
  | nil => exact denotes
  | cons link rest inductionHypothesis =>
      obtain ⟨here, later⟩ := List.forall_mem_cons.1 follows
      rw [representative, List.foldl_cons]
      apply inductionHypothesis later
      split
      · next linked =>
          rw [linked] at denotes
          exact here value denotes
      · exact denotes

theorem Follows.add {links : Links} (follows : reading.Follows links) {former next : Term}
    {value : α} (formerDenotes : reading.denotes former value)
    (nextDenotes : reading.denotes next value) :
    reading.Follows (links ++ [(former, next)]) := by
  rw [Follows, List.forall_mem_append, List.forall_mem_singleton]
  refine ⟨follows, ?_⟩
  intro other otherDenotes
  rw [reading.unique otherDenotes formerDenotes]
  exact nextDenotes

/-- Two classes with one value are not those of different constants. -/
private theorem not_both_constant {left right : Term} {value : α}
    (leftDenotes : reading.denotes left value)
    (rightDenotes : reading.denotes right value)
    (different : left ≠ right)
    (leftConstant : left.isConstant = true) : right.isConstant = false := by
  cases left <;> simp only [Term.isConstant, Bool.false_eq_true] at leftConstant
  cases right <;> simp only [Term.isConstant]
  next leftValue rightValue =>
    have same : leftValue = rightValue := reading.distinct leftDenotes rightDenotes
    exact absurd (congrArg Term.const same) different

end Reading

/-! ## Connecting classes -/

/-- The equation is what its literal says. -/
def IsEquality (equation : Equation) : Prop :=
  equation.literal = .binary .equals equation.left equation.right

variable {α : Type} {reading : Reading α}

/-- One equation that holds links its classes or finds them linked; it never
joins two constants. -/
private theorem connect_cons {links : Links} {seen : List Term} {equation : Equation}
    {rest : List Equation}
    (follows : reading.Follows links)
    (isEquality : equation.IsEquality)
    (holds : reading.Holds equation.literal) :
    ∃ extended, reading.Follows extended ∧
      connect links seen (equation :: rest) =
        connect extended (seen ++ [equation.literal]) rest := by
  rw [isEquality] at holds
  obtain ⟨value, leftDenotes, rightDenotes⟩ := holds
  have leftClass := reading.representative_denotes follows leftDenotes
  have rightClass := reading.representative_denotes follows rightDenotes
  rw [connect]
  split
  · exact ⟨links, follows, rfl⟩
  · next different =>
      split
      · next leftConstant =>
          have rightOpen := reading.not_both_constant leftClass rightClass different leftConstant
          rw [if_neg (by simp [rightOpen])]
          exact ⟨_, follows.add reading rightClass leftClass, rfl⟩
      · exact ⟨_, follows.add reading leftClass rightClass, rfl⟩

private theorem connect_of_holds {links : Links} {seen : List Term} {equations : List Equation}
    (follows : reading.Follows links)
    (areEqualities : ∀ equation ∈ equations, equation.IsEquality)
    (hold : ∀ equation ∈ equations, reading.Holds equation.literal) :
    ∃ extended, reading.Follows extended ∧ connect links seen equations = .ok extended := by
  induction equations generalizing links seen with
  | nil => exact ⟨links, follows, rfl⟩
  | cons equation rest inductionHypothesis =>
      rw [List.forall_mem_cons] at areEqualities hold
      obtain ⟨extended, extendedFollows, connected⟩ :=
        connect_cons follows areEqualities.1 hold.1
      rw [connected]
      exact inductionHypothesis extendedFollows areEqualities.2 hold.2

/-- An equation ends the search or extends the links, whatever comes after it. -/
private theorem connect_step (links : Links) (seen : List Term) (equation : Equation) :
    (∀ rest, connect links seen (equation :: rest) = .error (seen ++ [equation.literal])) ∨
      ∃ extended, ∀ rest, connect links seen (equation :: rest) =
        connect extended (seen ++ [equation.literal]) rest := by
  simp only [connect]
  split
  · exact .inr ⟨links, fun _ => rfl⟩
  · split
    · split
      · exact .inl fun _ => rfl
      · exact .inr ⟨_, fun _ => rfl⟩
    · exact .inr ⟨_, fun _ => rfl⟩

/-- A failure lists the equations up to the one at which the search ends. -/
private theorem connect_error {links : Links} {seen core : List Term} {equations : List Equation}
    (failed : connect links seen equations = .error core) :
    ∃ first rest, equations = first ++ rest ∧ core = seen ++ first.map literal ∧
      connect links seen first = .error core := by
  induction equations generalizing links seen with
  | nil => simp [connect] at failed
  | cons equation rest inductionHypothesis =>
      rcases connect_step links seen equation with ends | ⟨extended, goesOn⟩
      · rw [ends] at failed
        cases failed
        exact ⟨[equation], rest, rfl, rfl, ends []⟩
      · rw [goesOn] at failed
        obtain ⟨first, later, isRest, isCore, firstFailed⟩ := inductionHypothesis failed
        refine ⟨equation :: first, later, by rw [isRest, List.cons_append], ?_, ?_⟩
        · rw [isCore, List.map_cons, List.append_assoc, List.singleton_append]
        · rw [goesOn, firstFailed]

/-! ## Contradictions -/

private theorem eq_of_ofEquality? {literal : Term} {equation : Equation}
    (isEquation : ofEquality? literal = some equation) :
    equation.literal = literal ∧ equation.IsEquality := by
  unfold ofEquality? at isEquation
  split at isEquation <;> simp only [Option.some.injEq, reduceCtorEq] at isEquation
  subst isEquation
  exact ⟨rfl, rfl⟩

private theorem eq_of_ofDisequality? {literal : Term} {equation : Equation}
    (isEquation : ofDisequality? literal = some equation) :
    equation.literal = literal ∧
      literal = .negation (.binary .equals equation.left equation.right) := by
  unfold ofDisequality? at isEquation
  split at isEquation <;> simp only [Option.some.injEq, reduceCtorEq] at isEquation
  subst isEquation
  exact ⟨rfl, rfl⟩

private theorem mem_equalities {literals : List Term} {equation : Equation}
    (member : equation ∈ literals.filterMap ofEquality?) :
    equation.literal ∈ literals ∧ equation.IsEquality := by
  obtain ⟨literal, inLiterals, isEquation⟩ := List.mem_filterMap.1 member
  obtain ⟨sameLiteral, isEquality⟩ := eq_of_ofEquality? isEquation
  exact ⟨sameLiteral ▸ inLiterals, isEquality⟩

/-- A contradiction is made of equalities that connect two constants, or of
all equalities with a disequality that they deny. -/
private theorem contradiction?_cases {literals core : List Term}
    (found : contradiction? literals = some core) :
    (∃ equations, equations ⊆ literals.filterMap ofEquality? ∧ core = equations.map literal ∧
      connect [] [] equations = .error core) ∨
    ∃ links violated, violated ∈ literals.filterMap ofDisequality? ∧
      connect [] [] (literals.filterMap ofEquality?) = .ok links ∧
      representative links violated.left = representative links violated.right ∧
      core = (literals.filterMap ofEquality?).map literal ++ [violated.literal] := by
  rw [contradiction?] at found
  split at found
  · next core' failed =>
      cases found
      obtain ⟨first, rest, isAll, isCore, firstFailed⟩ := connect_error failed
      refine .inl ⟨first, ?_, by simpa using isCore, firstFailed⟩
      rw [isAll]
      exact List.subset_append_left first rest
  · next links connected =>
      obtain ⟨violated, isViolated, rfl⟩ := Option.map_eq_some_iff.1 found
      refine .inr ⟨links, violated, List.mem_of_find?_eq_some isViolated, connected, ?_, rfl⟩
      simpa using List.find?_some isViolated

/-- A contradiction consists of given literals. -/
theorem subset_of_contradiction? {literals core : List Term}
    (found : contradiction? literals = some core) : core ⊆ literals := by
  have inLiterals : ∀ {equations}, equations ⊆ literals.filterMap ofEquality? →
      equations.map literal ⊆ literals := by
    intro equations subset member inCore
    obtain ⟨equation, inEquations, rfl⟩ := List.mem_map.1 inCore
    exact (mem_equalities (subset inEquations)).1
  rcases contradiction?_cases found with ⟨equations, subset, rfl, _⟩ |
    ⟨links, violated, isViolated, _, _, rfl⟩
  · exact inLiterals subset
  · obtain ⟨literal, isLiteral, isEquation⟩ := List.mem_filterMap.1 isViolated
    rw [(eq_of_ofDisequality? isEquation).1]
    refine List.append_subset.2 ⟨inLiterals (List.Subset.refl _), ?_⟩
    exact List.cons_subset.2 ⟨isLiteral, List.nil_subset literals⟩

/-- No reading satisfies a contradiction. -/
theorem not_hold_of_contradiction? (reading : Reading α) {literals core : List Term}
    (found : contradiction? literals = some core) : ¬ ∀ literal ∈ core, reading.Holds literal := by
  intro hold
  have startFollows : reading.Follows [] := by simp [Reading.Follows]
  rcases contradiction?_cases found with ⟨equations, subset, rfl, failed⟩ |
    ⟨links, violated, isViolated, connected, sameClass, rfl⟩
  -- Equalities that hold never join two constants, so the search would go on.
  · obtain ⟨extended, _, succeeded⟩ := connect_of_holds startFollows
      (fun equation member => (mem_equalities (subset member)).2)
      (fun equation member => hold _ (List.mem_map_of_mem member))
    rw [failed] at succeeded
    cases succeeded
  -- The equalities alone put both sides of the disequality into one class.
  · obtain ⟨equalitiesHold, disequalityHolds⟩ := List.forall_mem_append.1 hold
    obtain ⟨extended, follows, succeeded⟩ := connect_of_holds startFollows
      (fun equation member => (mem_equalities member).2)
      (fun equation member => equalitiesHold _ (List.mem_map_of_mem member))
    rw [connected, Except.ok.injEq] at succeeded
    subst succeeded
    obtain ⟨literal, _, isEquation⟩ := List.mem_filterMap.1 isViolated
    obtain ⟨sameLiteral, isDisequality⟩ := eq_of_ofDisequality? isEquation
    rw [List.forall_mem_singleton, sameLiteral, isDisequality] at disequalityHolds
    obtain ⟨value, other, leftDenotes, rightDenotes, different⟩ := disequalityHolds
    have leftClass := reading.representative_denotes follows leftDenotes
    have rightClass := reading.representative_denotes follows rightDenotes
    rw [sameClass] at leftClass
    exact different (reading.unique leftClass rightClass)

end Equation

/-! ## Models as readings -/

/-- The values of closed terms under a model. -/
def Model.reading (model : Model) : Equation.Reading Constant where
  denotes := fun term value => model.eval [] term = .ok value
  unique := by
    intro term value other evaluated otherwise
    rw [evaluated] at otherwise
    exact Except.ok.inj otherwise
  distinct := by
    intro left right value leftHolds rightHolds
    rw [(Model.eval_const_eq_ok.1 leftHolds).1, (Model.eval_const_eq_ok.1 rightHolds).1]

/-- A true literal says what it says as an equation. -/
theorem Model.reading_holds {model : Model} {literal : Term}
    (isTrue : model.eval [] literal = .ok (.bool true)) : model.reading.Holds literal := by
  unfold Equation.Reading.Holds
  split
  · obtain ⟨value, other, leftHolds, rightHolds, same, _⟩ :=
      (Model.eval_strict_eq_ok rfl).1 isTrue
    refine ⟨value, leftHolds, ?_⟩
    unfold Constant.equals at same
    split at same <;> simp at same
    rw [same]
    exact rightHolds
  · obtain ⟨truth, equalityFails, isFalse⟩ := Model.eval_negation_eq_ok.1 isTrue
    cases truth <;> simp at isFalse
    obtain ⟨value, other, leftHolds, rightHolds, different, _⟩ :=
      (Model.eval_strict_eq_ok rfl).1 equalityFails
    refine ⟨value, other, leftHolds, rightHolds, ?_⟩
    unfold Constant.equals at different
    split at different <;> simp at different
    exact different
  · trivial

end SymbolicHeap
