import SymbolicHeap.Proofs.Sorts.Refinement
import SymbolicHeap.Term.Simplify

/-!
Contract: sums and differences keep their meaning when offsets are collected.

Offsets are added in 64 bits whatever the sort of the operands, and cut to the
width of the sort when a constant is built. Every integer constant of a sort is
the image of a 64-bit number under `Constant.ofInt`, and this map turns sums
into sums, so the collected offset has the right image.

Owns:
- integer constants as images of 64-bit numbers;
- `Term.add` and `Term.sub` refine the plain nodes.
-/

namespace SymbolicHeap

/-! ## Integer constants -/

namespace Constant

private theorem ofInt_ne_bottom (number : Int64) (sort : ValueSort) :
    ofInt number sort ≠ .bottom := by
  cases sort <;> simp [ofInt]

private theorem ofInt_sort {sort : ValueSort} (integer : sort.isInteger = true) (number : Int64) :
    (ofInt number sort).sort = sort := by
  cases sort <;> simp_all [ofInt, Constant.sort, ValueSort.isInteger]

theorem ofInt_hasSort {sort : ValueSort} (integer : sort.isInteger = true) (number : Int64) :
    (ofInt number sort).HasSort sort :=
  ⟨ofInt_ne_bottom number sort, ofInt_sort integer number⟩

private theorem ofInt_add (left right : Int64) (sort : ValueSort) :
    (ofInt left sort).add (ofInt right sort) = ofInt (left + right) sort := by
  cases sort <;> simp [ofInt, add]

theorem ofInt_sub (left right : Int64) (sort : ValueSort) :
    (ofInt left sort).sub (ofInt right sort) = ofInt (left - right) sort := by
  cases sort <;> simp [ofInt, sub]

/-- Every integer of a sort is the image of a 64-bit number. -/
private theorem eq_ofInt_of_hasSort {value : Constant} {sort : ValueSort}
    (integer : sort.isInteger = true)
    (hasSort : value.HasSort sort) :
    ∃ number, value = ofInt number sort := by
  cases sort <;> simp [ValueSort.isInteger] at integer
  · obtain ⟨number, rfl⟩ := hasSort.i32_cases
    exact ⟨number.toInt64, by simp [ofInt]⟩
  · obtain ⟨number, rfl⟩ := hasSort.i64_cases
    exact ⟨number, rfl⟩

private theorem eq_ofInt_of_asInt? {value : Constant} {number : Int64}
    (known : value.asInt? = some number) :
    value = ofInt number value.sort ∧ value.sort.isInteger = true := by
  cases value <;> simp [asInt?] at known <;> subst known <;>
    simp [ofInt, Constant.sort, ValueSort.isInteger]

end Constant

namespace Term

/-! ## Known operands -/

theorem eq_const_of_folded?
    {operation : Constant → Constant → Constant}
    {left right result : Term}
    (folded : folded? operation left right = some result) :
    ∃ leftValue rightValue, left = .const leftValue ∧ right = .const rightValue ∧
      result = .const (operation leftValue rightValue) ∧
        operation leftValue rightValue ≠ .bottom := by
  cases left <;> cases right <;> simp only [folded?, reduceCtorEq] at folded
  next leftValue rightValue =>
    split at folded
    · simp at folded
    · next proper =>
        simp only [Option.some.injEq] at folded
        refine ⟨leftValue, rightValue, rfl, rfl, folded.symm, ?_⟩
        intro bottom
        simp [bottom, Constant.isBottom] at proper

theorem eq_const_of_asInt? {term : Term} {number : Int64} (known : term.asInt? = some number) :
    ∃ value, term = .const value ∧ value.asInt? = some number := by
  cases term <;> simp only [asInt?, reduceCtorEq] at known
  exact ⟨_, rfl, known⟩

private theorem ofInt_wellSorted {vocabulary : Vocabulary} {scope : Scope} (number : Int64)
    (sort : ValueSort) : (ofInt number sort).WellSorted vocabulary scope := by
  simp only [ofInt, WellSorted]
  exact Constant.ofInt_ne_bottom number sort

private theorem ofInt_sort {sort : ValueSort} (number : Int64) (integer : sort.isInteger = true) :
    (ofInt number sort).sort = sort :=
  Constant.ofInt_sort integer number

private theorem eval_ofInt (model : Model) (bindings : Bindings) (number : Int64)
    (sort : ValueSort) :
    model.eval bindings (ofInt number sort) = .ok (.ofInt number sort) :=
  Model.eval_const_eq_ok.2 ⟨rfl, Constant.ofInt_ne_bottom number sort⟩

/-! ## Offsets -/

/-- A term is its own base, or a base moved by a constant. -/
inductive Moved : Term → Term → Int64 → Prop
  | still (term : Term) : Moved term term 0
  | up {base : Term} {value : Constant} {offset : Int64} (known : value.asInt? = some offset) :
      Moved (.binary .add base (.const value)) base offset
  | down {base : Term} {value : Constant} {offset : Int64} (known : value.asInt? = some offset) :
      Moved (.binary .sub base (.const value)) base (-offset)

theorem offsetParts_cases (term : Term) :
    (∃ value offset, term = .const value ∧ value.asInt? = some offset ∧
      offsetParts term = (none, offset)) ∨
    ∃ base offset, Moved term base offset ∧ offsetParts term = (some base, offset) := by
  cases known : term.asInt? with
  | some offset =>
      obtain ⟨value, rfl, valueKnown⟩ := eq_const_of_asInt? known
      exact .inl ⟨value, offset, rfl, valueKnown, by simp [offsetParts, known]⟩
  | none =>
      right
      simp only [offsetParts, known]
      split
      · next base right =>
          cases rightKnown : right.asInt? with
          | none => exact ⟨_, 0, .still _, rfl⟩
          | some offset =>
              obtain ⟨value, rfl, valueKnown⟩ := eq_const_of_asInt? rightKnown
              exact ⟨base, offset, .up valueKnown, rfl⟩
      · next base right =>
          cases rightKnown : right.asInt? with
          | none => exact ⟨_, 0, .still _, rfl⟩
          | some offset =>
              obtain ⟨value, rfl, valueKnown⟩ := eq_const_of_asInt? rightKnown
              exact ⟨base, -offset, .down valueKnown, rfl⟩
      · exact ⟨term, 0, .still term, rfl⟩

namespace Moved

variable {vocabulary : Vocabulary} {scope : Scope} {term base : Term} {offset : Int64}

theorem wellSorted (moved : Moved term base offset)
    (termSorted : term.WellSorted vocabulary scope) :
    base.WellSorted vocabulary scope ∧ base.sort = term.sort := by
  cases moved with
  | still => exact ⟨termSorted, rfl⟩
  | up | down =>
      simp only [WellSorted] at termSorted
      exact ⟨termSorted.1, rfl⟩

/-- The base of a term has a value wherever the term has one, and the offset is
what lies between the two. -/
private theorem eval_base
    (moved : Moved term base offset)
    {model : Model}
    (admissible : model.Admissible vocabulary)
    {bindings : Bindings}
    (respect : bindings.Respect scope)
    (termSorted : term.WellSorted vocabulary scope)
    (integer : term.sort.isInteger = true)
    {value : Constant}
    (evaluated : model.eval bindings term = .ok value) :
    ∃ number, model.eval bindings base = .ok (.ofInt number term.sort) ∧
      value = .ofInt (number + offset) term.sort := by
  obtain ⟨baseSorted, baseSort⟩ := moved.wellSorted termSorted
  have baseNumber : ∀ {baseValue}, model.eval bindings base = .ok baseValue →
      ∃ number, baseValue = .ofInt number term.sort := by
    intro baseValue baseHolds
    have hasSort := Model.eval_hasSort admissible.sorted base respect baseSorted baseHolds
    rw [baseSort] at hasSort
    exact Constant.eq_ofInt_of_hasSort integer hasSort
  cases moved with
  | still =>
      obtain ⟨number, rfl⟩ := baseNumber evaluated
      exact ⟨number, evaluated, by simp⟩
  | @up base constant offset known =>
      simp only [WellSorted, BinaryOp.Accepts] at termSorted
      obtain ⟨baseValue, _, baseHolds, constantHolds, rfl, _⟩ :=
        (Model.eval_strict_eq_ok rfl).1 evaluated
      obtain ⟨number, rfl⟩ := baseNumber baseHolds
      obtain ⟨rfl, _⟩ := Model.eval_const_eq_ok.1 constantHolds
      have image := (Constant.eq_ofInt_of_asInt? known).1
      have constantSort : constant.sort = base.sort := termSorted.2.2.2.symm
      refine ⟨number, baseHolds, ?_⟩
      rw [image, constantSort]
      exact Constant.ofInt_add number offset base.sort
  | @down base constant offset known =>
      simp only [WellSorted, BinaryOp.Accepts] at termSorted
      obtain ⟨baseValue, _, baseHolds, constantHolds, rfl, _⟩ :=
        (Model.eval_strict_eq_ok rfl).1 evaluated
      obtain ⟨number, rfl⟩ := baseNumber baseHolds
      obtain ⟨rfl, _⟩ := Model.eval_const_eq_ok.1 constantHolds
      have image := (Constant.eq_ofInt_of_asInt? known).1
      have constantSort : constant.sort = base.sort := termSorted.2.2.2.symm
      refine ⟨number, baseHolds, ?_⟩
      rw [image, constantSort, ← Int64.sub_eq_add_neg]
      exact Constant.ofInt_sub number offset base.sort

end Moved

/-! ## A base moved by an offset -/

section WithOffset

variable {vocabulary : Vocabulary} {scope : Scope} {base : Term} {sort : ValueSort}

private theorem withOffset_wellSorted
    (baseSorted : base.WellSorted vocabulary scope)
    (baseSort : base.sort = sort)
    (integer : sort.isInteger = true)
    (offset : Int64) :
    (withOffset (some base) offset sort).WellSorted vocabulary scope := by
  have accepted (number : Int64) :
      base.sort.isInteger = true ∧ base.sort = (ofInt number sort).sort := by
    rw [ofInt_sort number integer, baseSort]
    exact ⟨integer, rfl⟩
  simp only [withOffset]
  split
  · exact baseSorted
  · split <;> simp only [WellSorted, BinaryOp.Accepts] <;>
      exact ⟨baseSorted, ofInt_wellSorted _ _, accepted _⟩

theorem withOffset_sort (base : Term) (offset : Int64) (sort : ValueSort) :
    (withOffset (some base) offset sort).sort = base.sort := by
  simp only [withOffset]
  split
  · rfl
  · split <;> rfl

private theorem eval_withOffset {model : Model} {bindings : Bindings} {number : Int64}
    (baseHolds : model.eval bindings base = .ok (.ofInt number sort))
    (offset : Int64) :
    model.eval bindings (withOffset (some base) offset sort) =
      .ok (.ofInt (number + offset) sort) := by
  simp only [withOffset]
  split
  · next zero => rw [zero, Int64.add_zero, baseHolds]
  · split
    · exact (Model.eval_strict_eq_ok rfl).2 ⟨_, _, baseHolds, eval_ofInt _ _ _ _,
        Constant.ofInt_add _ _ _, Constant.ofInt_ne_bottom _ _⟩
    · refine (Model.eval_strict_eq_ok rfl).2 ⟨_, _, baseHolds, eval_ofInt _ _ _ _, ?_,
        Constant.ofInt_ne_bottom _ _⟩
      rw [Constant.ofInt_sub, Int64.sub_eq_add_neg, Int64.neg_neg]

end WithOffset

/-! ## Sums and differences -/

section Sums

variable {vocabulary : Vocabulary} {scope : Scope} {left right : Term}

/-- A known result of two constants stands for their plain node. -/
theorem refines_of_folded?
    {operator : BinaryOp}
    {operation : Constant → Constant → Constant}
    (strict : operator.onConstants? = some operation)
    {result : Term}
    (folded : folded? operation left right = some result) :
    Refines vocabulary scope (.binary operator left right) result := by
  obtain ⟨leftValue, rightValue, rfl, rfl, rfl, proper⟩ := eq_const_of_folded? folded
  apply Refines.ofBinary
  · simpa only [WellSorted] using proper
  · exact Constant.onConstants_sort strict proper
  · intro model bindings value _ _ evaluated
    obtain ⟨_, _, leftHolds, rightHolds, rfl, _⟩ := (Model.eval_strict_eq_ok strict).1 evaluated
    obtain ⟨rfl, _⟩ := Model.eval_const_eq_ok.1 leftHolds
    obtain ⟨rfl, _⟩ := Model.eval_const_eq_ok.1 rightHolds
    exact Model.eval_const_eq_ok.2 ⟨rfl, proper⟩

private theorem eq_ofInt_of_eval_const {model : Model} {bindings : Bindings}
    {value result : Constant}
    {offset : Int64}
    (known : value.asInt? = some offset)
    (evaluated : model.eval bindings (.const value) = .ok result) :
    result = .ofInt offset (Term.const value).sort := by
  obtain ⟨rfl, _⟩ := Model.eval_const_eq_ok.1 evaluated
  exact (Constant.eq_ofInt_of_asInt? known).1

theorem refines_add (wellSorted : (Term.binary .add left right).WellSorted vocabulary scope) :
    Refines vocabulary scope (.binary .add left right) (left.add right) := by
  have operands := wellSorted
  simp only [WellSorted, BinaryOp.Accepts] at operands
  obtain ⟨leftSorted, rightSorted, integer, sameSort⟩ := operands
  have rightInteger : right.sort.isInteger = true := sameSort ▸ integer
  rw [add]
  split
  · next result folded => exact refines_of_folded? rfl folded
  · rcases offsetParts_cases left with
      ⟨leftConstant, leftOffset, rfl, leftKnown, leftParts⟩ |
        ⟨leftBase, leftOffset, leftMoved, leftParts⟩ <;>
      rcases offsetParts_cases right with
        ⟨rightConstant, rightOffset, rfl, rightKnown, rightParts⟩ |
          ⟨rightBase, rightOffset, rightMoved, rightParts⟩ <;>
      rw [leftParts, rightParts]
    · apply Refines.ofBinary
      · exact ofInt_wellSorted _ _
      · exact ofInt_sort _ integer
      · intro model bindings value _ _ evaluated
        obtain ⟨_, _, leftHolds, rightHolds, rfl, _⟩ := (Model.eval_strict_eq_ok rfl).1 evaluated
        rw [eq_ofInt_of_eval_const leftKnown leftHolds,
          eq_ofInt_of_eval_const rightKnown rightHolds, ← sameSort, Constant.ofInt_add]
        exact eval_ofInt _ _ _ _
    · obtain ⟨baseSorted, baseSort⟩ := rightMoved.wellSorted rightSorted
      apply Refines.ofBinary
      · exact withOffset_wellSorted baseSorted (baseSort.trans sameSort.symm) integer _
      · exact (withOffset_sort _ _ _).trans (baseSort.trans sameSort.symm)
      · intro model bindings value admissible respect evaluated
        obtain ⟨_, _, leftHolds, rightHolds, rfl, _⟩ := (Model.eval_strict_eq_ok rfl).1 evaluated
        obtain ⟨number, baseHolds, rfl⟩ :=
          rightMoved.eval_base admissible respect rightSorted rightInteger rightHolds
        rw [← sameSort] at baseHolds
        rw [eq_ofInt_of_eval_const leftKnown leftHolds, ← sameSort, Constant.ofInt_add,
          eval_withOffset baseHolds, ← Int64.add_assoc, ← Int64.add_assoc,
          Int64.add_comm number]
    · obtain ⟨baseSorted, baseSort⟩ := leftMoved.wellSorted leftSorted
      apply Refines.ofBinary
      · exact withOffset_wellSorted baseSorted baseSort integer _
      · exact (withOffset_sort _ _ _).trans baseSort
      · intro model bindings value admissible respect evaluated
        obtain ⟨_, _, leftHolds, rightHolds, rfl, _⟩ := (Model.eval_strict_eq_ok rfl).1 evaluated
        obtain ⟨number, baseHolds, rfl⟩ :=
          leftMoved.eval_base admissible respect leftSorted integer leftHolds
        rw [eq_ofInt_of_eval_const rightKnown rightHolds, ← sameSort, Constant.ofInt_add,
          eval_withOffset baseHolds, Int64.add_assoc]
    · exact .refl wellSorted

theorem refines_sub (wellSorted : (Term.binary .sub left right).WellSorted vocabulary scope) :
    Refines vocabulary scope (.binary .sub left right) (left.sub right) := by
  have operands := wellSorted
  simp only [WellSorted, BinaryOp.Accepts] at operands
  obtain ⟨leftSorted, rightSorted, integer, sameSort⟩ := operands
  have rightInteger : right.sort.isInteger = true := sameSort ▸ integer
  rw [sub]
  split
  · next result folded => exact refines_of_folded? rfl folded
  · rcases offsetParts_cases left with
      ⟨leftConstant, leftOffset, rfl, leftKnown, leftParts⟩ |
        ⟨leftBase, leftOffset, leftMoved, leftParts⟩ <;>
      rcases offsetParts_cases right with
        ⟨rightConstant, rightOffset, rfl, rightKnown, rightParts⟩ |
          ⟨rightBase, rightOffset, rightMoved, rightParts⟩ <;>
      rw [leftParts, rightParts]
    · apply Refines.ofBinary
      · exact ofInt_wellSorted _ _
      · exact ofInt_sort _ integer
      · intro model bindings value _ _ evaluated
        obtain ⟨_, _, leftHolds, rightHolds, rfl, _⟩ := (Model.eval_strict_eq_ok rfl).1 evaluated
        rw [eq_ofInt_of_eval_const leftKnown leftHolds,
          eq_ofInt_of_eval_const rightKnown rightHolds, ← sameSort, Constant.ofInt_sub]
        exact eval_ofInt _ _ _ _
    · exact .refl wellSorted
    · obtain ⟨baseSorted, baseSort⟩ := leftMoved.wellSorted leftSorted
      apply Refines.ofBinary
      · exact withOffset_wellSorted baseSorted baseSort integer _
      · exact (withOffset_sort _ _ _).trans baseSort
      · intro model bindings value admissible respect evaluated
        obtain ⟨_, _, leftHolds, rightHolds, rfl, _⟩ := (Model.eval_strict_eq_ok rfl).1 evaluated
        obtain ⟨number, baseHolds, rfl⟩ :=
          leftMoved.eval_base admissible respect leftSorted integer leftHolds
        rw [eq_ofInt_of_eval_const rightKnown rightHolds, ← sameSort, Constant.ofInt_sub,
          eval_withOffset baseHolds]
        simp only [Int64.sub_eq_add_neg, Int64.add_assoc]
    · -- One base under both operands: only the offsets remain.
      simp only
      split
      · next sameBase =>
          subst sameBase
          apply Refines.ofBinary
          · exact ofInt_wellSorted _ _
          · exact ofInt_sort _ integer
          · intro model bindings value admissible respect evaluated
            obtain ⟨_, _, leftHolds, rightHolds, rfl, _⟩ :=
              (Model.eval_strict_eq_ok rfl).1 evaluated
            obtain ⟨number, baseHolds, rfl⟩ :=
              leftMoved.eval_base admissible respect leftSorted integer leftHolds
            obtain ⟨other, otherHolds, rfl⟩ :=
              rightMoved.eval_base admissible respect rightSorted rightInteger rightHolds
            rw [baseHolds, ← sameSort, Except.ok.injEq] at otherHolds
            have otherImage : Constant.ofInt (other + rightOffset) left.sort =
                Constant.ofInt (number + rightOffset) left.sort := by
              rw [← Constant.ofInt_add, ← otherHolds, Constant.ofInt_add]
            have offsets :
                number + leftOffset - (number + rightOffset) = leftOffset - rightOffset := by
              rw [Int64.sub_eq_iff_eq_add, Int64.add_comm number rightOffset, ← Int64.add_assoc,
                Int64.sub_add_cancel, Int64.add_comm]
            rw [← sameSort, otherImage, Constant.ofInt_sub, offsets]
            exact eval_ofInt _ _ _ _
      · exact .refl wellSorted

end Sums

end Term

end SymbolicHeap
