import SymbolicHeap.Proofs.Simplify.Comparison

/-!
Contract: reads and writes of arrays keep their meaning when they are
simplified.

A read skips a write only when the indices are known to differ, so everything
rests on what a known comparison of indices says about their values.

Owns:
- known comparisons of index lists decide whether the values are equal;
- `Term.select` and `Term.store` refine the plain nodes.
-/

namespace SymbolicHeap

namespace Term

variable {vocabulary : Vocabulary} {scope : Scope} {model : Model} {bindings : Bindings}

/-! ## Known comparisons -/

/-- A comparison that simplifies to a truth value tells whether the values of
its operands are equal. -/
private theorem eq_iff_of_equals_known
    (admissible : model.Admissible vocabulary)
    (respect : bindings.Respect scope)
    {left right : Term}
    (leftSorted : left.WellSorted vocabulary scope)
    (rightSorted : right.WellSorted vocabulary scope)
    (sameSort : left.sort = right.sort)
    {leftValue rightValue : Constant}
    (leftHolds : model.eval bindings left = .ok leftValue)
    (rightHolds : model.eval bindings right = .ok rightValue)
    {truth : Bool}
    (known : (left.equals right).asBool? = some truth) :
    leftValue = rightValue ↔ truth = true := by
  have leftProper := (Model.eval_hasSort admissible.sorted left respect leftSorted leftHolds).1
  have rightProper := (Model.eval_hasSort admissible.sorted right respect rightSorted rightHolds).1
  have plain : model.eval bindings (.binary .equals left right) =
      .ok (.bool (leftValue = rightValue)) := by
    refine (Model.eval_strict_eq_ok rfl).2 ⟨_, _, leftHolds, rightHolds, ?_, by simp⟩
    cases leftValue <;> cases rightValue <;> simp_all [Constant.equals, Constant.isBottom]
  have simplified := (refines_equals (by
    simp only [WellSorted, BinaryOp.Accepts]
    exact ⟨leftSorted, rightSorted, sameSort⟩)).eval admissible respect plain
  rw [eq_const_of_asBool? known] at simplified
  have decided := Constant.bool.inj (eq_of_eval_ofBool simplified)
  rw [← decided, decide_eq_true_eq]

/-- Comparisons of the indices, as far as they simplify to a truth value. -/
def knownMatches (stored indices : List Term) : List (Option Bool) :=
  List.zipWith (fun index other => (equals index other).asBool?) stored indices

private theorem indicesMatch?_cases {stored indices : List Term} {truth : Bool}
    (matched : indicesMatch? stored indices = some truth) :
    (some false ∈ knownMatches stored indices ∧ truth = false) ∨
      ((∀ known ∈ knownMatches stored indices, known = some true) ∧ truth = true) := by
  simp only [indicesMatch?] at matched
  split at matched
  · next differs =>
      rw [List.contains_iff_mem] at differs
      exact .inl ⟨differs, by simpa using matched.symm⟩
  · split at matched
    · next same =>
        refine .inr ⟨?_, by simpa using matched.symm⟩
        simpa [knownMatches] using same
    · simp at matched

section Indices

variable (admissible : model.Admissible vocabulary) (respect : bindings.Respect scope)

include admissible respect

private theorem ne_of_mem_knownMatches {stored indices : List Term} {places values : List Constant}
    (storedSorted : AllWellSorted vocabulary scope stored)
    (indicesSorted : AllWellSorted vocabulary scope indices)
    (sameSorts : sorts stored = sorts indices)
    (storedHold : model.evalAll bindings stored = .ok places)
    (indicesHold : model.evalAll bindings indices = .ok values)
    (differs : some false ∈ knownMatches stored indices) :
    places ≠ values := by
  induction stored generalizing indices places values with
  | nil => simp [knownMatches] at differs
  | cons head tail inductionHypothesis =>
      cases indices with
      | nil => simp [knownMatches] at differs
      | cons other others =>
          simp only [AllWellSorted, sorts, List.cons.injEq] at storedSorted indicesSorted sameSorts
          obtain ⟨place, restPlaces, headHolds, tailHold, rfl⟩ :=
            Model.evalAll_cons_eq_ok.1 storedHold
          obtain ⟨value, restValues, otherHolds, othersHold, rfl⟩ :=
            Model.evalAll_cons_eq_ok.1 indicesHold
          intro same
          obtain ⟨samePlace, sameRest⟩ := List.cons.inj same
          simp only [knownMatches, List.zipWith_cons_cons, List.mem_cons] at differs
          rcases differs with here | later
          · have apart := eq_iff_of_equals_known admissible respect storedSorted.1
              indicesSorted.1 sameSorts.1 headHolds otherHolds here.symm
            exact Bool.false_ne_true (apart.1 samePlace)
          · exact inductionHypothesis storedSorted.2 indicesSorted.2 sameSorts.2 tailHold
              othersHold later sameRest

private theorem eq_of_all_knownMatches {stored indices : List Term} {places values : List Constant}
    (storedSorted : AllWellSorted vocabulary scope stored)
    (indicesSorted : AllWellSorted vocabulary scope indices)
    (sameSorts : sorts stored = sorts indices)
    (storedHold : model.evalAll bindings stored = .ok places)
    (indicesHold : model.evalAll bindings indices = .ok values)
    (same : ∀ known ∈ knownMatches stored indices, known = some true) :
    places = values := by
  induction stored generalizing indices places values with
  | nil =>
      cases indices with
      | nil =>
          rw [storedHold, Except.ok.injEq] at indicesHold
          exact indicesHold
      | cons _ _ => simp [sorts] at sameSorts
  | cons head tail inductionHypothesis =>
      cases indices with
      | nil => simp [sorts] at sameSorts
      | cons other others =>
          simp only [AllWellSorted, sorts, List.cons.injEq] at storedSorted indicesSorted sameSorts
          obtain ⟨place, restPlaces, headHolds, tailHold, rfl⟩ :=
            Model.evalAll_cons_eq_ok.1 storedHold
          obtain ⟨value, restValues, otherHolds, othersHold, rfl⟩ :=
            Model.evalAll_cons_eq_ok.1 indicesHold
          simp only [knownMatches, List.zipWith_cons_cons, List.forall_mem_cons] at same
          have samePlace := (eq_iff_of_equals_known admissible respect storedSorted.1
            indicesSorted.1 sameSorts.1 headHolds otherHolds same.1).2 rfl
          have sameRest := inductionHypothesis storedSorted.2 indicesSorted.2 sameSorts.2
            tailHold othersHold same.2
          rw [samePlace, sameRest]

/-- Index lists that are known to match, or known not to, do so in every
admissible model. -/
private theorem eq_iff_of_indicesMatch? {stored indices : List Term} {places values : List Constant}
    (storedSorted : AllWellSorted vocabulary scope stored)
    (indicesSorted : AllWellSorted vocabulary scope indices)
    (sameSorts : sorts stored = sorts indices)
    (storedHold : model.evalAll bindings stored = .ok places)
    (indicesHold : model.evalAll bindings indices = .ok values)
    {truth : Bool}
    (matched : indicesMatch? stored indices = some truth) :
    places = values ↔ truth = true := by
  rcases indicesMatch?_cases matched with ⟨differs, rfl⟩ | ⟨same, rfl⟩
  · have apart := ne_of_mem_knownMatches admissible respect storedSorted indicesSorted sameSorts
      storedHold indicesHold differs
    simp [apart]
  · have equal := eq_of_all_knownMatches admissible respect storedSorted indicesSorted sameSorts
      storedHold indicesHold same
    simp [equal]

end Indices

/-! ## Reads -/

/-- A read from an array with one more write is, as far as sorts go, a read from
the array and a comparison of indices. -/
private theorem selection_update_wellSorted {array value : Term} {stored indices : List Term}
    (wellSorted :
      (Term.selection (.update array stored value) indices).WellSorted vocabulary scope) :
    AllWellSorted vocabulary scope stored ∧ AllWellSorted vocabulary scope indices ∧
      sorts stored = sorts indices ∧ value.WellSorted vocabulary scope ∧
      value.sort = array.sort.range ∧
      (Term.selection array indices).WellSorted vocabulary scope := by
  simp only [WellSorted, Term.sort] at wellSorted ⊢
  obtain ⟨⟨arraySorted, storedSorted, valueSorted, storedSort⟩, indicesSorted, indicesSort⟩ :=
    wellSorted
  have same := storedSort.symm.trans indicesSort
  rw [ValueSort.array.injEq] at same
  exact ⟨storedSorted, indicesSorted, same.1, valueSorted, same.2, arraySorted, indicesSorted,
    indicesSort⟩

theorem evalSelection_selection (model : Model) (bindings : Bindings) (array : Term)
    (indices : List Term) (values : List Constant) :
    model.evalSelection bindings (.selection array indices) values = .error .undefined := by
  rw [Model.evalSelection] <;> simp

theorem refines_select (array : Term) (indices : List Term)
    (wellSorted : (Term.selection array indices).WellSorted vocabulary scope) :
    Refines vocabulary scope (.selection array indices) (array.select indices) := by
  fun_induction select array indices with
  | case1 array stored value indices apart inductionHypothesis =>
      obtain ⟨storedSorted, indicesSorted, sameSorts, _, _, restSorted⟩ :=
        selection_update_wellSorted wellSorted
      refine Refines.trans ?_ (inductionHypothesis restSorted)
      refine Refines.ofScalar (fun _ _ _ => evalSelection_selection ..) restSorted rfl ?_
      intro model bindings result admissible respect evaluated
      obtain ⟨proper, values, indicesHold, selected⟩ := Model.eval_selection_eq_ok.1 evaluated
      obtain ⟨places, storedHold, rest⟩ := Model.evalSelection_update_eq_ok.1 selected
      have differ : ¬ places = values := by
        rw [eq_iff_of_indicesMatch? admissible respect storedSorted indicesSorted sameSorts
          storedHold indicesHold apart]
        exact Bool.false_ne_true
      rw [if_neg differ] at rest
      exact Model.eval_selection_eq_ok.2 ⟨proper, values, indicesHold, rest⟩
  | case2 array stored value indices same =>
      obtain ⟨storedSorted, indicesSorted, sameSorts, valueSorted, valueSort, _⟩ :=
        selection_update_wellSorted wellSorted
      refine Refines.ofScalar (fun _ _ _ => evalSelection_selection ..) valueSorted valueSort ?_
      intro model bindings result admissible respect evaluated
      obtain ⟨proper, values, indicesHold, selected⟩ := Model.eval_selection_eq_ok.1 evaluated
      obtain ⟨places, storedHold, rest⟩ := Model.evalSelection_update_eq_ok.1 selected
      have equal : places = values :=
        (eq_iff_of_indicesMatch? admissible respect storedSorted indicesSorted sameSorts
          storedHold indicesHold same).2 rfl
      rw [if_pos equal] at rest
      exact rest
  | case3 => exact Refines.refl wellSorted
  | case4 value sort indices =>
      simp only [WellSorted, Term.sort] at wellSorted
      obtain ⟨⟨valueSorted, arraySort⟩, _⟩ := wellSorted
      have valueSort : value.sort = sort.range := by rw [arraySort, ValueSort.range]
      refine Refines.ofScalar (fun _ _ _ => evalSelection_selection ..) valueSorted valueSort ?_
      intro model bindings result _ _ evaluated
      obtain ⟨_, _, _, selected⟩ := Model.eval_selection_eq_ok.1 evaluated
      rw [Model.evalSelection] at selected
      exact selected
  | case5 => exact Refines.refl wellSorted

/-! ## Writes -/

/-- Writing back the element that is there changes no element. -/
theorem refines_store {array value : Term} {indices : List Term}
    (wellSorted : (Term.update array indices value).WellSorted vocabulary scope) :
    Refines vocabulary scope (.update array indices value) (array.store indices value) := by
  fun_cases store array indices value with
  | case1 source selected same =>
      obtain ⟨rfl, rfl⟩ := same
      simp only [WellSorted] at wellSorted
      refine ⟨wellSorted.1, rfl, ?_, ?_⟩
      · intro model bindings result _ _ evaluated
        simp [Model.eval] at evaluated
      · intro model bindings values result _ _ picked
        obtain ⟨places, indicesHold, rest⟩ := Model.evalSelection_update_eq_ok.1 picked
        split at rest
        · next here =>
            obtain ⟨_, again, againHold, element⟩ := Model.eval_selection_eq_ok.1 rest
            rw [indicesHold, Except.ok.injEq] at againHold
            rw [← here, againHold]
            exact element
        · exact rest
  | case2 | case3 => exact Refines.refl wellSorted

end Term

end SymbolicHeap
