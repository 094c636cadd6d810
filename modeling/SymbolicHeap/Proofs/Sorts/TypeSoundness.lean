import SymbolicHeap.Proofs.Simplify.Meaning
import SymbolicHeap.Proofs.Sorts.Subterms

/-!
Contract: terms have values of their sort, and simplification keeps sorts.

A term whose parts are flat has a value under every sorted model. The condition
on keys is needed: arrays have no value of their own, so the input read at an
array has none, whatever the sort of the contents.

Owns:
- type soundness of evaluation and of the simplifying constructors;
- a well-sorted scalar without a value.
-/

namespace SymbolicHeap

/-- Type soundness. A closed well-sorted scalar that compares scalars, reads the
input at scalars and has flat arrays inside has a value of exactly its sort
under every sorted model. A simplifying constructor builds a well-sorted term of
the sort that the plain node has. -/
theorem type_soundness (vocabulary : Vocabulary) :
    (∀ term : Term, term.WellSorted vocabulary [] → term.sort.isArray = false →
      (∀ part ∈ term.subterms, part.PartIsFlat) →
        ∀ model : Model, model.Sorted vocabulary →
          ∃ value, model.evaluate term = .ok (some value) ∧ value.HasSort term.sort) ∧
    ∀ (scope : Scope) (construction : Construction),
      construction.plain.WellSorted vocabulary scope →
        construction.simplified.WellSorted vocabulary scope ∧
          construction.simplified.sort = construction.plain.sort := by
  constructor
  · intro term wellSorted scalar parts model sorted
    have flat := Term.isFlat_of_parts term wellSorted parts
    obtain ⟨value, evaluated⟩ :=
      Model.eval_ok sorted term Bindings.cover_empty wellSorted flat scalar
    refine ⟨value, Model.evaluate_of_eval evaluated, ?_⟩
    exact Model.eval_hasSort sorted term Bindings.respect_empty wellSorted evaluated
  · intro scope construction wellSorted
    have refinement := construction.refines wellSorted
    exact ⟨refinement.wellSorted, refinement.sort⟩

/-- One of two arrays, read at the index at which the first was written. -/
def chosenElement : Term :=
  .selection
    (.conditional (.var "b" .bool)
      (.update (.arrayConst "A" (.array [.i32] .i32)) [.var "x" .i32] (.const (.i32 5)))
      (.lambda [.bound "k" .i32] (.binary .add (.bound "k" .i32) (.const (.i32 1)))))
    [.var "x" .i32]

theorem type_soundness_chosenElement :
    (∃ value, Model.empty.evaluate chosenElement = .ok (some value) ∧ value.HasSort .i32) ∧
      Construction.readPastWrite.simplified.sort = .i32 := by
  have evaluates := (type_soundness ⟨fun _ _ => True, fun _ _ => True⟩).1
  have constructs := (type_soundness ⟨fun _ _ => True, fun _ _ => True⟩).2
  constructor
  · exact evaluates chosenElement
      (by simp [chosenElement, Term.WellSorted, Term.AllWellSorted, Term.isBound, bindScope,
        BinaryOp.Accepts, Term.sort, Term.sorts, ValueSort.isArray, ValueSort.isInteger,
        ValueSort.range, Constant.sort, BinaryOp.resultSort])
      rfl (by decide +kernel) Model.empty (Model.empty_admissible _).sorted
  · exact (constructs [("k", .i32)] Construction.readPastWrite
      (by simp [Construction.readPastWrite, Construction.plain, Term.WellSorted,
        Term.AllWellSorted, Term.sort, Term.sorts, ValueSort.isArray, ValueSort.range,
        Constant.sort])).2

/-- The contents of a map whose keys are arrays, read at an array. -/
def readAtArray : Term :=
  .inputRead (.mapValue "M" (.array [.i32] .i32) .i32) [.null, .var "A" (.array [.i32] .i32)]

/-- Without the condition on keys there need not be a value. -/
theorem readAtArray_undefined :
    readAtArray.WellSorted ⟨fun _ _ => True, fun _ _ => True⟩ [] ∧
      readAtArray.sort = .i32 ∧
      (∀ part ∈ readAtArray.subterms,
        part.equatesScalars = true ∧ part.isFlatArray = true) ∧
      Model.empty.Sorted ⟨fun _ _ => True, fun _ _ => True⟩ ∧
      Model.empty.evaluate readAtArray = .ok none := by
  refine ⟨?_, rfl, by decide +kernel, (Model.empty_admissible _).sorted, ?_⟩
  · simp [readAtArray, Term.WellSorted, Term.AllWellSorted, Term.null, Term.sorts, Term.sort,
      Constant.sort, ValueSort.isArray, RegionId.inputArraySort, RegionId.secondarySort,
      ValueSort.domain, Vocabulary.Declares]
  · rw [Model.evaluate_eq]
    rfl

end SymbolicHeap
