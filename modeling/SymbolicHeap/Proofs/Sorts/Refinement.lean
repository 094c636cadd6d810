import SymbolicHeap.Proofs.Sorts.Soundness

/-!
Contract: when one well-sorted term may stand for another.

A term refines a plain one when it has the same sort and, under every
admissible model, the same value wherever the plain one has a value. It may
have a value where the plain one has none. Array terms have no value of their
own, so refinement also compares their elements.

Owns:
- the relation and its order laws;
- refinements of terms that are no arrays.
-/

namespace SymbolicHeap

namespace Term

structure Refines
    (vocabulary : Vocabulary)
    (scope : Scope)
    (plain other : Term) :
    Prop where
  wellSorted : other.WellSorted vocabulary scope
  sort : other.sort = plain.sort
  eval : ∀ {model : Model} {bindings : Bindings} {value : Constant},
    model.Admissible vocabulary → bindings.Respect scope →
      model.eval bindings plain = .ok value → model.eval bindings other = .ok value
  select : ∀ {model : Model} {bindings : Bindings} {indices : List Constant} {value : Constant},
    model.Admissible vocabulary → bindings.Respect scope →
      model.evalSelection bindings plain indices = .ok value →
        model.evalSelection bindings other indices = .ok value

namespace Refines

variable {vocabulary : Vocabulary} {scope : Scope}

theorem refl {term : Term} (wellSorted : term.WellSorted vocabulary scope) :
    Refines vocabulary scope term term where
  wellSorted := wellSorted
  sort := rfl
  eval := fun _ _ => id
  select := fun _ _ => id

theorem trans {first second third : Term}
    (early : Refines vocabulary scope first second)
    (late : Refines vocabulary scope second third) :
    Refines vocabulary scope first third where
  wellSorted := late.wellSorted
  sort := late.sort.trans early.sort
  eval := fun admissible respect evaluated =>
    late.eval admissible respect (early.eval admissible respect evaluated)
  select := fun admissible respect selected =>
    late.select admissible respect (early.select admissible respect selected)

/-- Operators, negations, subtype tests and input reads are no arrays, so only
their own values count. -/
theorem ofScalar {plain other : Term}
    (noElements : ∀ (model : Model) (bindings : Bindings) (indices : List Constant),
      model.evalSelection bindings plain indices = .error .undefined)
    (wellSorted : other.WellSorted vocabulary scope)
    (sort : other.sort = plain.sort)
    (eval : ∀ {model : Model} {bindings : Bindings} {value : Constant},
      model.Admissible vocabulary → bindings.Respect scope →
        model.eval bindings plain = .ok value → model.eval bindings other = .ok value) :
    Refines vocabulary scope plain other where
  wellSorted := wellSorted
  sort := sort
  eval := eval
  select := by
    intro model bindings indices value _ _ selected
    rw [noElements] at selected
    simp at selected

theorem ofBinary {operator : BinaryOp} {left right other : Term}
    (wellSorted : other.WellSorted vocabulary scope)
    (sort : other.sort = (Term.binary operator left right).sort)
    (eval : ∀ {model : Model} {bindings : Bindings} {value : Constant},
      model.Admissible vocabulary → bindings.Respect scope →
        model.eval bindings (.binary operator left right) = .ok value →
          model.eval bindings other = .ok value) :
    Refines vocabulary scope (.binary operator left right) other :=
  ofScalar (fun _ _ _ => by rw [Model.evalSelection] <;> simp) wellSorted sort eval

/-! ## Operands -/

theorem negation {plain other : Term} (refines : Refines vocabulary scope plain other)
    (isBool : plain.sort = .bool) :
    Refines vocabulary scope (.negation plain) (.negation other) := by
  apply ofScalar
  · intro model bindings indices
    rw [Model.evalSelection] <;> simp
  · simp only [WellSorted]
    exact ⟨refines.wellSorted, refines.sort.trans isBool⟩
  · rfl
  · intro model bindings value admissible respect evaluated
    obtain ⟨truth, operandHolds, result⟩ := Model.eval_negation_eq_ok.1 evaluated
    exact Model.eval_negation_eq_ok.2
      ⟨truth, refines.eval admissible respect operandHolds, result⟩

end Refines

end Term

end SymbolicHeap
