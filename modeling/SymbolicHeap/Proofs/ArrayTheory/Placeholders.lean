import SymbolicHeap.Proofs.ArrayTheory.Values
import SymbolicHeap.Proofs.Heap.Terms

/-!
Contract: placeholders and parameters of terms, before and after encoding.

A placeholder has the element of a base array. Writing that selection in its
place changes neither the values of a term nor its encoding. What is encoded from
a closed term has no placeholders left and is closed in the same scope.

Owns:
- terms without placeholders, and closed terms;
- encodings of closed terms, which are both;
- the term with selections in the place of its placeholders.
-/

namespace SymbolicHeap

/-! ## Terms that stand for themselves -/

namespace Term

mutual

/-- No contents of a memory before execution occur in the term. -/
def isInputFree : Term → Bool
  | .const _ | .var _ _ | .bound _ _ | .arrayConst _ _ => true
  | .binary _ left right => left.isInputFree && right.isInputFree
  | .negation operand | .subtype operand _ => operand.isInputFree
  | .conditional condition consequent alternate =>
      condition.isInputFree && consequent.isInputFree && alternate.isInputFree
  | .inputRead _ _ => false
  | .constArray element _ => element.isInputFree
  | .selection array indices => array.isInputFree && areInputFree indices
  | .update array indices element =>
      array.isInputFree && areInputFree indices && element.isInputFree
  | .lambda parameters body => areInputFree parameters && body.isInputFree

def areInputFree : List Term → Bool
  | [] => true
  | head :: tail => head.isInputFree && areInputFree tail

end

mutual

/-- Every parameter that occurs in the term is one of the scope, or of a lambda
around it. -/
def isClosed : Scope → Term → Bool
  | _, .const _ | _, .var _ _ | _, .arrayConst _ _ => true
  | scope, .bound name sort => scope.lookup name = some sort
  | scope, .binary _ left right => left.isClosed scope && right.isClosed scope
  | scope, .negation operand | scope, .subtype operand _ => operand.isClosed scope
  | scope, .conditional condition consequent alternate =>
      condition.isClosed scope && consequent.isClosed scope && alternate.isClosed scope
  | scope, .inputRead _ key => areClosed scope key
  | scope, .constArray element _ => element.isClosed scope
  | scope, .selection array indices => array.isClosed scope && areClosed scope indices
  | scope, .update array indices element =>
      array.isClosed scope && areClosed scope indices && element.isClosed scope
  | scope, .lambda parameters body =>
      parameters.all isBound && body.isClosed (bindScope parameters scope)

def areClosed : Scope → List Term → Bool
  | _, [] => true
  | scope, head :: tail => head.isClosed scope && areClosed scope tail

end

private theorem areInputFree_iff {terms : List Term} :
    areInputFree terms = true ↔ ∀ term ∈ terms, term.isInputFree = true := by
  induction terms with
  | nil => simp [areInputFree]
  | cons head tail inductionHypothesis =>
      rw [areInputFree, Bool.and_eq_true, inductionHypothesis, List.forall_mem_cons]

private theorem areClosed_iff {scope : Scope} {terms : List Term} :
    areClosed scope terms = true ↔ ∀ term ∈ terms, term.isClosed scope = true := by
  induction terms with
  | nil => simp [areClosed]
  | cons head tail inductionHypothesis =>
      rw [areClosed, Bool.and_eq_true, inductionHypothesis, List.forall_mem_cons]

theorem areInputFree_of_areBound {parameters : List Term}
    (areBound : parameters.all isBound = true) : areInputFree parameters = true := by
  rw [areInputFree_iff]
  intro parameter member
  have isParameter := List.all_eq_true.1 areBound parameter member
  cases parameter <;> simp_all [isBound, isInputFree]

/-- Without placeholders, and closed in a scope. -/
def Resolved (scope : Scope) (term : Term) : Prop :=
  term.isInputFree = true ∧ term.isClosed scope = true

theorem Hereditary.both {first second : Term → Prop} (firstHereditary : Hereditary first)
    (secondHereditary : Hereditary second) : Hereditary fun term => first term ∧ second term where
  const := fun value => ⟨firstHereditary.const value, secondHereditary.const value⟩
  binary := by
    intros
    rw [firstHereditary.binary, secondHereditary.binary, and_and_and_comm]
  negation := by
    intros
    rw [firstHereditary.negation, secondHereditary.negation]
  conditional := by
    intros
    rw [firstHereditary.conditional, secondHereditary.conditional]
    tauto
  constArray := by
    intros
    rw [firstHereditary.constArray, secondHereditary.constArray]
  selection := by
    intros
    rw [firstHereditary.selection, secondHereditary.selection, and_and_and_comm]
    simp only [forall_and]
  update := by
    intros
    rw [firstHereditary.update, secondHereditary.update]
    simp only [forall_and]
    tauto

theorem closed_hereditary (scope : Scope) : Hereditary fun term => term.isClosed scope = true where
  const := by simp [isClosed]
  binary := by simp [isClosed]
  negation := by simp [isClosed]
  conditional := by simp [isClosed, and_assoc]
  constArray := by simp [isClosed]
  selection := by simp [isClosed, areClosed_iff]
  update := by simp [isClosed, areClosed_iff, and_assoc]

theorem closed_storable (scope : Scope) : Storable fun term => term.isClosed scope = true where
  toHereditary := closed_hereditary scope
  inputRead := by simp [isClosed, areClosed_iff]

private theorem inputFree_hereditary : Hereditary fun term => term.isInputFree = true where
  const := by simp [isInputFree]
  binary := by simp [isInputFree]
  negation := by simp [isInputFree]
  conditional := by simp [isInputFree, and_assoc]
  constArray := by simp [isInputFree]
  selection := by simp [isInputFree, areInputFree_iff]
  update := by simp [isInputFree, areInputFree_iff, and_assoc]

theorem resolved_hereditary (scope : Scope) : Hereditary (Resolved scope) :=
  inputFree_hereditary.both (closed_hereditary scope)

/-! ## Closed terms -/

mutual

/-- The values of a memory have no parameters. -/
theorem closed_of_isMemoryLevel : (term : Term) → {scope : Scope} →
    term.isMemoryLevel = true → term.isClosed scope = true
  | .const _, _, _ | .var _ _, _, _ => by rw [isClosed]
  | .binary _ left right, _, level => by
      rw [isMemoryLevel, Bool.and_eq_true] at level
      rw [isClosed, closed_of_isMemoryLevel left level.1, closed_of_isMemoryLevel right level.2,
        Bool.and_self]
  | .negation operand, _, level | .subtype operand _, _, level => by
      rw [isMemoryLevel] at level
      rw [isClosed, closed_of_isMemoryLevel operand level]
  | .conditional condition consequent alternate, _, level => by
      rw [isMemoryLevel, Bool.and_eq_true, Bool.and_eq_true] at level
      rw [isClosed, closed_of_isMemoryLevel condition level.1.1,
        closed_of_isMemoryLevel consequent level.1.2, closed_of_isMemoryLevel alternate level.2,
        Bool.and_self, Bool.and_self]
  | .inputRead _ key, _, level => by
      rw [isMemoryLevel, Bool.and_eq_true] at level
      rw [isClosed, closed_of_areMemoryLevel key level.2]
  | .bound _ _, _, level | .arrayConst _ _, _, level | .constArray _ _, _, level
  | .selection _ _, _, level | .update _ _ _, _, level | .lambda _ _, _, level => by
      simp [isMemoryLevel] at level

private theorem closed_of_areMemoryLevel : (terms : List Term) → {scope : Scope} →
    areMemoryLevel terms = true → areClosed scope terms = true
  | [], _, _ => by rw [areClosed]
  | head :: tail, _, level => by
      rw [areMemoryLevel, Bool.and_eq_true] at level
      rw [areClosed, closed_of_isMemoryLevel head level.1, closed_of_areMemoryLevel tail level.2,
        Bool.and_self]

end

mutual

/-- A well-sorted term has the parameters of its scope. -/
theorem closed_of_wellSorted {vocabulary : Vocabulary} : (term : Term) → {scope : Scope} →
    term.WellSorted vocabulary scope → term.isClosed scope = true
  | .const _, _, _ | .var _ _, _, _ | .arrayConst _ _, _, _ => by rw [isClosed]
  | .bound name sort, _, wellSorted => by
      rw [WellSorted] at wellSorted
      rw [isClosed, decide_eq_true_eq]
      exact wellSorted
  | .binary _ left right, _, wellSorted => by
      rw [WellSorted] at wellSorted
      rw [isClosed, closed_of_wellSorted left wellSorted.1,
        closed_of_wellSorted right wellSorted.2.1, Bool.and_self]
  | .negation operand, _, wellSorted | .subtype operand _, _, wellSorted
  | .constArray operand _, _, wellSorted => by
      rw [WellSorted] at wellSorted
      rw [isClosed, closed_of_wellSorted operand wellSorted.1]
  | .conditional condition consequent alternate, _, wellSorted => by
      rw [WellSorted] at wellSorted
      rw [isClosed, closed_of_wellSorted condition wellSorted.1,
        closed_of_wellSorted consequent wellSorted.2.1,
        closed_of_wellSorted alternate wellSorted.2.2.1, Bool.and_self, Bool.and_self]
  | .inputRead _ key, _, wellSorted => by
      rw [WellSorted] at wellSorted
      rw [isClosed, closed_of_allWellSorted key wellSorted.1]
  | .selection array indices, _, wellSorted => by
      rw [WellSorted] at wellSorted
      rw [isClosed, closed_of_wellSorted array wellSorted.1,
        closed_of_allWellSorted indices wellSorted.2.1, Bool.and_self]
  | .update array indices element, _, wellSorted => by
      rw [WellSorted] at wellSorted
      rw [isClosed, closed_of_wellSorted array wellSorted.1,
        closed_of_allWellSorted indices wellSorted.2.1,
        closed_of_wellSorted element wellSorted.2.2.1, Bool.and_self, Bool.and_self]
  | .lambda parameters body, _, wellSorted => by
      rw [WellSorted] at wellSorted
      rw [isClosed, List.all_eq_true.2 wellSorted.1, closed_of_wellSorted body wellSorted.2,
        Bool.and_self]

private theorem closed_of_allWellSorted {vocabulary : Vocabulary} : (terms : List Term) →
    {scope : Scope} → AllWellSorted vocabulary scope terms → areClosed scope terms = true
  | [], _, _ => by rw [areClosed]
  | head :: tail, _, wellSorted => by
      rw [AllWellSorted] at wellSorted
      rw [areClosed, closed_of_wellSorted head wellSorted.1,
        closed_of_allWellSorted tail wellSorted.2, Bool.and_self]

end

mutual

/-- Parameters of further lambdas outside do not matter. -/
theorem isClosed_widen : (term : Term) → {scope : Scope} → term.isClosed scope = true →
    (outer : Scope) → term.isClosed (scope ++ outer) = true
  | .const _, _, _, _ | .var _ _, _, _, _ | .arrayConst _ _, _, _, _ => by rw [isClosed]
  | .bound name sort, scope, closed, outer => by
      rw [isClosed, decide_eq_true_eq] at closed ⊢
      rw [List.lookup_append, closed, Option.some_or]
  | .binary _ left right, _, closed, outer => by
      rw [isClosed, Bool.and_eq_true] at closed ⊢
      exact ⟨isClosed_widen left closed.1 outer, isClosed_widen right closed.2 outer⟩
  | .negation operand, _, closed, outer | .subtype operand _, _, closed, outer
  | .constArray operand _, _, closed, outer => by
      rw [isClosed] at closed ⊢
      exact isClosed_widen operand closed outer
  | .conditional condition consequent alternate, _, closed, outer => by
      rw [isClosed, Bool.and_eq_true, Bool.and_eq_true] at closed ⊢
      obtain ⟨⟨conditionClosed, consequentClosed⟩, alternateClosed⟩ := closed
      exact ⟨⟨isClosed_widen condition conditionClosed outer,
        isClosed_widen consequent consequentClosed outer⟩,
        isClosed_widen alternate alternateClosed outer⟩
  | .inputRead _ key, _, closed, outer => by
      rw [isClosed] at closed ⊢
      exact areClosed_widen key closed outer
  | .selection array indices, _, closed, outer => by
      rw [isClosed, Bool.and_eq_true] at closed ⊢
      exact ⟨isClosed_widen array closed.1 outer, areClosed_widen indices closed.2 outer⟩
  | .update array indices element, _, closed, outer => by
      rw [isClosed, Bool.and_eq_true, Bool.and_eq_true] at closed ⊢
      exact ⟨⟨isClosed_widen array closed.1.1 outer, areClosed_widen indices closed.1.2 outer⟩,
        isClosed_widen element closed.2 outer⟩
  | .lambda parameters body, _, closed, outer => by
      rw [isClosed, Bool.and_eq_true] at closed ⊢
      rw [bindScope_append]
      exact ⟨closed.1, isClosed_widen body closed.2 outer⟩

private theorem areClosed_widen :
    (terms : List Term) → {scope : Scope} → areClosed scope terms = true →
    (outer : Scope) → areClosed (scope ++ outer) terms = true
  | [], _, _, _ => by rw [areClosed]
  | head :: tail, _, closed, outer => by
      rw [areClosed, Bool.and_eq_true] at closed ⊢
      exact ⟨isClosed_widen head closed.1 outer, areClosed_widen tail closed.2 outer⟩

end

mutual

/-- What is encoded from a closed term is closed, and has no placeholders. -/
theorem encoded_resolved : (term : Term) → {scope : Scope} → term.isClosed scope = true →
    term.encoded.Resolved scope
  | .const _, _, closed | .var _ _, _, closed | .bound _ _, _, closed
  | .arrayConst _ _, _, closed => by
      rw [encoded]
      exact ⟨by rw [isInputFree], closed⟩
  | .binary operator left right, scope, closed => by
      rw [isClosed, Bool.and_eq_true] at closed
      rw [encoded]
      exact (resolved_hereditary scope).build operator (encoded_resolved left closed.1)
        (encoded_resolved right closed.2)
  | .negation operand, scope, closed => by
      rw [isClosed] at closed
      rw [encoded]
      exact (resolved_hereditary scope).not (encoded_resolved operand closed)
  | .subtype operand _, _, closed => by
      rw [isClosed] at closed
      rw [encoded, Resolved, isInputFree, isClosed]
      exact encoded_resolved operand closed
  | .constArray element _, scope, closed => by
      rw [isClosed] at closed
      rw [encoded]
      exact (resolved_hereditary scope).constArray.2 (encoded_resolved element closed)
  | .conditional condition consequent alternate, scope, closed => by
      rw [isClosed, Bool.and_eq_true, Bool.and_eq_true] at closed
      rw [encoded]
      exact (resolved_hereditary scope).ite (encoded_resolved condition closed.1.1)
        (encoded_resolved consequent closed.1.2) (encoded_resolved alternate closed.2)
  | .inputRead region key, scope, closed => by
      rw [isClosed] at closed
      rw [encoded]
      refine (resolved_hereditary scope).select ?_ (encodedAll_resolved key closed)
      rw [RegionId.baseArray, Resolved, isInputFree, isClosed]
      exact ⟨rfl, rfl⟩
  | .selection array indices, scope, closed => by
      rw [isClosed, Bool.and_eq_true] at closed
      rw [encoded]
      exact (resolved_hereditary scope).select (encoded_resolved array closed.1)
        (encodedAll_resolved indices closed.2)
  | .update array indices element, scope, closed => by
      rw [isClosed, Bool.and_eq_true, Bool.and_eq_true] at closed
      rw [encoded]
      exact (resolved_hereditary scope).store (encoded_resolved array closed.1.1)
        (encodedAll_resolved indices closed.1.2) (encoded_resolved element closed.2)
  | .lambda parameters body, scope, closed => by
      rw [isClosed, Bool.and_eq_true] at closed
      have bodyResolved := encoded_resolved body closed.2
      rw [encoded, Resolved, isInputFree, isClosed, Bool.and_eq_true, Bool.and_eq_true]
      exact ⟨⟨areInputFree_of_areBound closed.1, bodyResolved.1⟩, closed.1, bodyResolved.2⟩

private theorem encodedAll_resolved : (terms : List Term) → {scope : Scope} →
    areClosed scope terms = true → ∀ term ∈ encodedAll terms, term.Resolved scope
  | [], _, _ => by simp [encodedAll]
  | head :: tail, _, closed => by
      rw [areClosed, Bool.and_eq_true] at closed
      rw [encodedAll, List.forall_mem_cons]
      exact ⟨encoded_resolved head closed.1, encodedAll_resolved tail closed.2⟩

end

/-! ## Placeholders as selections -/

mutual

/-- Every placeholder becomes the selection from its base array at its key. -/
def withSelections : Term → Term
  | .const value => .const value
  | .var name sort => .var name sort
  | .bound name sort => .bound name sort
  | .arrayConst name sort => .arrayConst name sort
  | .binary operator left right => .binary operator left.withSelections right.withSelections
  | .negation operand => .negation operand.withSelections
  | .conditional condition consequent alternate =>
      .conditional condition.withSelections consequent.withSelections alternate.withSelections
  | .subtype operand typeName => .subtype operand.withSelections typeName
  | .inputRead region key => .selection region.baseArray (allWithSelections key)
  | .constArray element sort => .constArray element.withSelections sort
  | .selection array indices => .selection array.withSelections (allWithSelections indices)
  | .update array indices element =>
      .update array.withSelections (allWithSelections indices) element.withSelections
  | .lambda parameters body => .lambda parameters body.withSelections

def allWithSelections : List Term → List Term
  | [] => []
  | head :: tail => head.withSelections :: allWithSelections tail

end

mutual

/-- A placeholder is encoded as the selection that takes its place. -/
theorem encoded_withSelections : (term : Term) → term.withSelections.encoded = term.encoded
  | .const _ | .var _ _ | .bound _ _ | .arrayConst _ _ => by rw [withSelections]
  | .binary _ left right => by
      rw [withSelections, encoded, encoded, encoded_withSelections left,
        encoded_withSelections right]
  | .negation operand | .subtype operand _ | .constArray operand _ => by
      rw [withSelections, encoded, encoded, encoded_withSelections operand]
  | .conditional condition consequent alternate => by
      rw [withSelections, encoded, encoded, encoded_withSelections condition,
        encoded_withSelections consequent, encoded_withSelections alternate]
  | .inputRead region key => by
      rw [withSelections, encoded, encoded, encodedAll_withSelections key, RegionId.baseArray,
        encoded]
  | .selection array indices => by
      rw [withSelections, encoded, encoded, encoded_withSelections array,
        encodedAll_withSelections indices]
  | .update array indices element => by
      rw [withSelections, encoded, encoded, encoded_withSelections array,
        encodedAll_withSelections indices, encoded_withSelections element]
  | .lambda _ body => by
      rw [withSelections, encoded, encoded, encoded_withSelections body]

private theorem encodedAll_withSelections : (terms : List Term) →
    encodedAll (allWithSelections terms) = encodedAll terms
  | [] => by rw [allWithSelections]
  | head :: tail => by
      rw [allWithSelections, encodedAll, encodedAll, encoded_withSelections head,
        encodedAll_withSelections tail]

end

end Term

namespace Model

/-- A placeholder has the element of the base array at its key. -/
theorem eval_inputRead (model : Model) (bindings : Bindings) (region : RegionId)
    (key : List Term) :
    model.eval bindings (.inputRead region key) =
      model.eval bindings (.selection region.baseArray key) := by
  rw [eval, eval, RegionId.baseArray]
  simp only [evalSelection]
  rfl

variable {model : Model}

mutual

/-- Reading base arrays in place of the input gives every term the value that it
has, and none to a term without a value. -/
theorem eval_withSelections : (term : Term) → (bindings : Bindings) →
    model.eval bindings term.withSelections = model.eval bindings term
  | .const _, _ | .var _ _, _ | .bound _ _, _ | .arrayConst _ _, _ => by
      rw [Term.withSelections]
  | .binary _ left right, bindings => by
      rw [Term.withSelections, eval, eval, eval_withSelections left bindings,
        eval_withSelections right bindings]
  | .negation operand, bindings | .subtype operand _, bindings => by
      rw [Term.withSelections, eval, eval, eval_withSelections operand bindings]
  | .conditional condition consequent alternate, bindings => by
      rw [Term.withSelections, eval, eval, eval_withSelections condition bindings,
        eval_withSelections consequent bindings, eval_withSelections alternate bindings]
  | .inputRead region key, bindings => by
      rw [Term.withSelections, ← eval_inputRead, eval, eval, evalAll_withSelections key bindings]
  | .selection array indices, bindings => by
      rw [Term.withSelections, eval, eval, evalAll_withSelections indices bindings]
      simp only [evalSelection_withSelections array bindings]
  | .constArray _ _, _ | .update _ _ _, _ | .lambda _ _, _ => by
      rw [Term.withSelections, eval, eval]

private theorem evalAll_withSelections : (terms : List Term) → (bindings : Bindings) →
    model.evalAll bindings (Term.allWithSelections terms) = model.evalAll bindings terms
  | [], _ => by rw [Term.allWithSelections]
  | head :: tail, bindings => by
      rw [Term.allWithSelections, evalAll, evalAll, eval_withSelections head bindings,
        evalAll_withSelections tail bindings]

theorem evalSelection_withSelections : (term : Term) → (bindings : Bindings) →
    (indices : List Constant) →
      model.evalSelection bindings term.withSelections indices =
        model.evalSelection bindings term indices
  | .const _, _, _ | .var _ _, _, _ | .bound _ _, _, _ | .arrayConst _ _, _, _ => by
      rw [Term.withSelections]
  | .conditional condition consequent alternate, bindings, indices => by
      rw [Term.withSelections, evalSelection, evalSelection,
        eval_withSelections condition bindings,
        evalSelection_withSelections consequent bindings indices,
        evalSelection_withSelections alternate bindings indices]
  | .constArray element _, bindings, _ => by
      rw [Term.withSelections, evalSelection, evalSelection, eval_withSelections element bindings]
  | .update array stored element, bindings, indices => by
      rw [Term.withSelections, evalSelection, evalSelection,
        evalAll_withSelections stored bindings, eval_withSelections element bindings,
        evalSelection_withSelections array bindings indices]
  | .lambda parameters body, bindings, indices => by
      rw [Term.withSelections, evalSelection, evalSelection, eval_withSelections body]
  -- What remains is no array on either side.
  | .binary _ _ _, _, _ | .negation _, _, _ | .subtype _ _, _, _ | .inputRead _ _, _, _
  | .selection _ _, _, _ => by
      simp [Term.withSelections, evalSelection]

end

end Model

end SymbolicHeap
