import SymbolicHeap.Proofs.Model.Cached
import SymbolicHeap.Proofs.Simplify.Arrays

/-!
Contract: building a term with simplification changes nothing that a model can
see.

Owns:
- the simplifying constructors as one type, with the plain node of each;
- every constructor's result has the value of the plain node.
-/

namespace SymbolicHeap

/-- A simplifying constructor with its operands. -/
inductive Construction where
  | add (left right : Term)
  | sub (left right : Term)
  | and (left right : Term)
  | or (left right : Term)
  | not (operand : Term)
  | ite (condition consequent alternate : Term)
  | equals (left right : Term)
  | notEquals (left right : Term)
  | lessThan (left right : Term)
  | lessOrEqual (left right : Term)
  | greaterThan (left right : Term)
  | greaterOrEqual (left right : Term)
  | select (array : Term) (indices : List Term)
  | store (array : Term) (indices : List Term) (value : Term)

namespace Construction

/-- The node that says what the constructor means. There are no nodes for
inequality and for the reversed comparisons. -/
def plain : Construction → Term
  | .add left right => .binary .add left right
  | .sub left right => .binary .sub left right
  | .and left right => .binary .and left right
  | .or left right => .binary .or left right
  | .not operand => .negation operand
  | .ite condition consequent alternate => .conditional condition consequent alternate
  | .equals left right => .binary .equals left right
  | .notEquals left right => .negation (.binary .equals left right)
  | .lessThan left right => .binary .lessThan left right
  | .lessOrEqual left right => .binary .lessOrEqual left right
  | .greaterThan left right => .binary .lessThan right left
  | .greaterOrEqual left right => .binary .lessOrEqual right left
  | .select array indices => .selection array indices
  | .store array indices value => .update array indices value

/-- What the constructor builds. -/
def simplified : Construction → Term
  | .add left right => left.add right
  | .sub left right => left.sub right
  | .and left right => left.and right
  | .or left right => left.or right
  | .not operand => operand.not
  | .ite condition consequent alternate => condition.ite consequent alternate
  | .equals left right => left.equals right
  | .notEquals left right => left.notEquals right
  | .lessThan left right => left.lessThan right
  | .lessOrEqual left right => left.lessOrEqual right
  | .greaterThan left right => left.greaterThan right
  | .greaterOrEqual left right => left.greaterOrEqual right
  | .select array indices => array.select indices
  | .store array indices value => array.store indices value

variable {vocabulary : Vocabulary} {scope : Scope}

private theorem refines_notEquals {left right : Term}
    (wellSorted :
      (Term.negation (.binary .equals left right)).WellSorted vocabulary scope) :
    Term.Refines vocabulary scope (.negation (.binary .equals left right))
      (left.notEquals right) := by
  have operands := wellSorted
  rw [Term.WellSorted] at operands
  have negated := (Term.refines_equals operands.1).negation rfl
  exact negated.trans (Term.refines_not negated.wellSorted)

theorem refines (construction : Construction)
    (wellSorted : construction.plain.WellSorted vocabulary scope) :
    Term.Refines vocabulary scope construction.plain construction.simplified := by
  cases construction with
  | add => exact Term.refines_add wellSorted
  | sub => exact Term.refines_sub wellSorted
  | and => exact Term.refines_and wellSorted
  | or => exact Term.refines_or wellSorted
  | not => exact Term.refines_not wellSorted
  | ite => exact Term.refines_ite wellSorted
  | equals => exact Term.refines_equals wellSorted
  | notEquals => exact refines_notEquals wellSorted
  | lessThan => exact Term.refines_lessThan wellSorted
  | lessOrEqual => exact Term.refines_lessOrEqual wellSorted
  | greaterThan => exact Term.refines_lessThan wellSorted
  | greaterOrEqual => exact Term.refines_lessOrEqual wellSorted
  | select array indices => exact Term.refines_select array indices wellSorted
  | store => exact Term.refines_store wellSorted

/-- Wherever the plain node has a value, the simplified term has the same one.
An array has no value of its own, so for arrays this is about their elements,
read by a plain node or by the simplifying constructor. -/
theorem simplified_preserves_meaning
    (vocabulary : Vocabulary)
    (scope : Scope)
    (construction : Construction)
    (wellSorted : construction.plain.WellSorted vocabulary scope)
    (model : Model)
    (admissible : model.Admissible vocabulary)
    (bindings : Bindings)
    (respect : bindings.Respect scope) :
    (∀ value, model.outcome bindings construction.plain = .ok value →
      model.outcome bindings construction.simplified = .ok value) ∧
    ∀ indices value, model.outcome bindings (.selection construction.plain indices) = .ok value →
      model.outcome bindings (.selection construction.simplified indices) = .ok value ∧
        ((Term.selection construction.plain indices).WellSorted vocabulary scope →
          model.outcome bindings (construction.simplified.select indices) = .ok value) := by
  have refinement := construction.refines wellSorted
  simp only [Model.outcome_eq_eval]
  refine ⟨fun value => refinement.eval admissible respect, ?_⟩
  intro indices value evaluated
  have element : model.eval bindings (.selection construction.simplified indices) = .ok value := by
    obtain ⟨proper, places, indicesHold, selected⟩ := Model.eval_selection_eq_ok.1 evaluated
    exact Model.eval_selection_eq_ok.2
      ⟨proper, places, indicesHold, refinement.select admissible respect selected⟩
  refine ⟨element, fun selectionSorted => ?_⟩
  have simplifiedSorted :
      (Term.selection construction.simplified indices).WellSorted vocabulary scope := by
    simp only [Term.WellSorted, refinement.sort] at selectionSorted ⊢
    exact ⟨refinement.wellSorted, selectionSorted.2⟩
  exact (Term.refines_select _ indices simplifiedSorted).eval admissible respect element

/-- An element read at an input object, past a write at an allocated one. -/
def readPastWrite : Construction :=
  .select
    (.update (.arrayConst "lengths" (.array [.reference] .i32)) [.const (.heap 1)]
      (.bound "k" .i32))
    [.var "p" .reference]

theorem readPastWrite_preserves_meaning :
    Model.empty.outcome [("k", .i32 5)] readPastWrite.simplified = .ok (.i32 0) :=
  (simplified_preserves_meaning
    ⟨fun name sort => name = "p" ∧ sort = .reference,
      fun name sort => name = "lengths" ∧ sort = .array [.reference] .i32⟩
    [("k", .i32)] readPastWrite
    (by simp [readPastWrite, plain, Term.WellSorted, Term.AllWellSorted, Term.sort, Term.sorts,
      ValueSort.isArray, ValueSort.range, Constant.sort])
    Model.empty (Model.empty_admissible _) [("k", .i32 5)]
    (Bindings.respect_empty.cons "k" (by decide))).1 (.i32 0) (by rw [Model.outcome_eq_eval]; rfl)

end Construction

end SymbolicHeap
