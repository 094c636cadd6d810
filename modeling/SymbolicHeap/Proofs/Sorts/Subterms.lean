import SymbolicHeap.Proofs.Sorts.Totality

/-!
Contract: terms judged by their parts.

What a term computes with is a matter of all the terms inside it, lambda bodies
and keys included. A well-sorted term is flat if none of its parts equates
arrays, reads the input at an array, or is an array of an unusual form or sort.

Owns:
- the subterms of a term;
- the three conditions on parts, each of them decidable;
- flatness of well-sorted terms all of whose parts meet them.
-/

namespace SymbolicHeap

namespace Term

/-! ## Subterms -/

mutual

/-- The terms strictly inside a term. -/
def inner : Term → List Term
  | .const _ | .var _ _ | .bound _ _ | .arrayConst _ _ => []
  | .binary _ left right => left :: left.inner ++ right :: right.inner
  | .negation operand | .subtype operand _ => operand :: operand.inner
  | .conditional condition consequent alternate =>
      condition :: condition.inner ++ consequent :: consequent.inner ++
        alternate :: alternate.inner
  | .inputRead _ key => innerAll key
  | .constArray value _ => value :: value.inner
  | .selection array indices => array :: array.inner ++ innerAll indices
  | .update array indices value =>
      array :: array.inner ++ innerAll indices ++ value :: value.inner
  | .lambda parameters body => innerAll parameters ++ body :: body.inner

/-- The terms of a list with those inside them. -/
def innerAll : List Term → List Term
  | [] => []
  | head :: tail => head :: head.inner ++ innerAll tail

end

/-- A term with the terms inside it. -/
def subterms (term : Term) : List Term := term :: term.inner

theorem self_mem_subterms (term : Term) : term ∈ term.subterms := List.mem_cons_self

/-! ## Conditions on parts -/

/-- An equality compares scalars. -/
def equatesScalars : Term → Bool
  | .binary .equals left right => !left.sort.isArray && !right.sort.isArray
  | _ => true

/-- The input is read at scalars. -/
def readsAtScalars : Term → Bool
  | .inputRead _ key => (sorts key).all fun sort => !sort.isArray
  | _ => true

/-- The forms in which arrays are written down. -/
def isArrayForm : Term → Bool
  | .arrayConst _ _ | .var _ _ | .constArray _ _ | .update _ _ _ | .lambda _ _
  | .conditional _ _ _ => true
  | _ => false

/-- An array has one of the usual forms, and holds scalars at scalar indices. -/
def isFlatArray (term : Term) : Bool :=
  !term.sort.isArray || term.isArrayForm && term.sort.isFlat

/-- The three conditions on one part. -/
structure PartIsFlat (part : Term) : Prop where
  equates : part.equatesScalars = true
  reads : part.readsAtScalars = true
  arrays : part.isFlatArray = true

instance (part : Term) : Decidable part.PartIsFlat :=
  decidable_of_iff
    (part.equatesScalars = true ∧ part.readsAtScalars = true ∧ part.isFlatArray = true)
    ⟨fun ⟨equates, reads, arrays⟩ => ⟨equates, reads, arrays⟩,
      fun flat => ⟨flat.equates, flat.reads, flat.arrays⟩⟩

private theorem PartIsFlat.flat_sort {part : Term} (flat : part.PartIsFlat) :
    part.sort.isFlat = true := by
  have arrays := flat.arrays
  cases isArray : part.sort.isArray with
  | true =>
      simp only [isFlatArray, isArray, Bool.not_true, Bool.false_or, Bool.and_eq_true] at arrays
      exact arrays.2
  | false => cases sort : part.sort <;> simp_all [ValueSort.isFlat, ValueSort.isArray]

private theorem PartIsFlat.scalar_of_not_isArrayForm {part : Term} (flat : part.PartIsFlat)
    (otherForm : part.isArrayForm = false) : part.sort.isArray = false := by
  simpa [isFlatArray, otherForm] using flat.arrays

end Term

/-! ## Flat terms -/

private theorem RegionId.isScalar_of_indices {region : RegionId}
    (valueScalar : region.valueSort.isArray = false)
    (indicesScalar : (region.inputArraySort.domain.all fun sort => !sort.isArray) = true) :
    region.isScalar = true := by
  rw [isScalar, valueScalar]
  cases secondary : region.secondarySort with
  | none => rfl
  | some sort =>
      simpa [inputArraySort, secondary, ValueSort.domain, ValueSort.isArray] using indicesScalar

/-- Operators other than equality take scalars by their sort. -/
private theorem BinaryOp.Accepts.scalar_left {operator : BinaryOp} {left right : ValueSort}
    (accepts : operator.Accepts left right) (other : operator ≠ .equals) :
    left.isArray = false := by
  cases operator with
  | equals => exact absurd rfl other
  | and | or => rw [accepts.1]; rfl
  | add | sub | lessThan | lessOrEqual =>
      cases left <;> simp [Accepts, ValueSort.isInteger] at accepts <;> rfl

namespace Term

variable {vocabulary : Vocabulary}

mutual

theorem isFlat_of_parts : (term : Term) → {scope : Scope} →
    term.WellSorted vocabulary scope → (∀ part ∈ term.subterms, part.PartIsFlat) →
      term.isFlat = true
  | .const _, _, _, _ => rfl
  | .var _ _, _, _, parts => (parts _ (self_mem_subterms _)).flat_sort
  | .arrayConst _ _, _, _, parts => (parts _ (self_mem_subterms _)).flat_sort
  | .bound _ _, _, _, parts => by
      have scalar := (parts _ (self_mem_subterms _)).scalar_of_not_isArrayForm rfl
      rw [sort] at scalar
      rw [isFlat, scalar]
      rfl
  | .binary operator left right, _, wellSorted, parts => by
      simp only [WellSorted] at wellSorted
      obtain ⟨leftSorted, rightSorted, accepts⟩ := wellSorted
      have here := parts _ (self_mem_subterms _)
      simp only [subterms, inner, List.forall_mem_cons, List.forall_mem_append] at parts
      have leftFlat := isFlat_of_parts left leftSorted (List.forall_mem_cons.2 parts.2.1)
      have rightFlat := isFlat_of_parts right rightSorted (List.forall_mem_cons.2 parts.2.2)
      have leftScalar : left.sort.isArray = false := by
        by_cases isEquals : operator = .equals
        · subst isEquals
          have equates := here.equates
          simp only [equatesScalars, Bool.and_eq_true, Bool.not_eq_true'] at equates
          exact equates.1
        · exact accepts.scalar_left isEquals
      simp [isFlat, leftFlat, rightFlat, leftScalar]
  | .negation operand, _, wellSorted, parts => by
      simp only [WellSorted] at wellSorted
      simp only [subterms, inner, List.forall_mem_cons] at parts
      rw [isFlat]
      exact isFlat_of_parts operand wellSorted.1 (List.forall_mem_cons.2 parts.2)
  | .subtype operand _, _, wellSorted, parts => by
      simp only [WellSorted] at wellSorted
      simp only [subterms, inner, List.forall_mem_cons] at parts
      rw [isFlat]
      exact isFlat_of_parts operand wellSorted.1 (List.forall_mem_cons.2 parts.2)
  | .conditional condition consequent alternate, _, wellSorted, parts => by
      simp only [WellSorted] at wellSorted
      obtain ⟨conditionSorted, consequentSorted, alternateSorted, _, _⟩ := wellSorted
      simp only [subterms, inner, List.forall_mem_cons, List.forall_mem_append] at parts
      obtain ⟨_, ⟨conditionParts, consequentParts⟩, alternateParts⟩ := parts
      rw [isFlat,
        isFlat_of_parts condition conditionSorted (List.forall_mem_cons.2 conditionParts),
        isFlat_of_parts consequent consequentSorted (List.forall_mem_cons.2 consequentParts),
        isFlat_of_parts alternate alternateSorted (List.forall_mem_cons.2 alternateParts)]
      rfl
  | .inputRead region key, _, wellSorted, parts => by
      simp only [WellSorted] at wellSorted
      obtain ⟨keySorted, keySorts, _⟩ := wellSorted
      have here := parts _ (self_mem_subterms _)
      simp only [subterms, inner, List.forall_mem_cons] at parts
      have valueScalar := here.scalar_of_not_isArrayForm rfl
      have indicesScalar := here.reads
      rw [readsAtScalars, keySorts] at indicesScalar
      rw [sort] at valueScalar
      rw [isFlat, RegionId.isScalar_of_indices valueScalar indicesScalar,
        areFlat_of_parts key keySorted parts.2]
      rfl
  | .constArray value _, _, wellSorted, parts => by
      simp only [WellSorted] at wellSorted
      have sortFlat := (parts _ (self_mem_subterms _)).flat_sort
      simp only [subterms, inner, List.forall_mem_cons] at parts
      rw [sort] at sortFlat
      rw [isFlat, isFlat_of_parts value wellSorted.1 (List.forall_mem_cons.2 parts.2), sortFlat]
      rfl
  | .selection array indices, _, wellSorted, parts => by
      simp only [WellSorted] at wellSorted
      simp only [subterms, inner, List.forall_mem_cons, List.forall_mem_append] at parts
      obtain ⟨_, ⟨arrayHere, arrayInner⟩, indicesParts⟩ := parts
      rw [isFlat,
        isFlat_of_parts array wellSorted.1 (List.forall_mem_cons.2 ⟨arrayHere, arrayInner⟩),
        areFlat_of_parts indices wellSorted.2.1 indicesParts, arrayHere.flat_sort]
      rfl
  | .update array indices value, _, wellSorted, parts => by
      simp only [WellSorted] at wellSorted
      obtain ⟨arraySorted, indicesSorted, valueSorted, _⟩ := wellSorted
      simp only [subterms, inner, List.forall_mem_cons, List.forall_mem_append] at parts
      obtain ⟨_, ⟨⟨arrayHere, arrayInner⟩, indicesParts⟩, valueParts⟩ := parts
      rw [isFlat,
        isFlat_of_parts array arraySorted (List.forall_mem_cons.2 ⟨arrayHere, arrayInner⟩),
        areFlat_of_parts indices indicesSorted indicesParts,
        isFlat_of_parts value valueSorted (List.forall_mem_cons.2 valueParts),
        arrayHere.flat_sort]
      rfl
  | .lambda parameters body, _, wellSorted, parts => by
      simp only [WellSorted] at wellSorted
      have sortFlat := (parts _ (self_mem_subterms _)).flat_sort
      simp only [subterms, inner, List.forall_mem_cons, List.forall_mem_append] at parts
      rw [sort] at sortFlat
      rw [isFlat, isFlat_of_parts body wellSorted.2 (List.forall_mem_cons.2 parts.2.2), sortFlat]
      rfl

private theorem areFlat_of_parts : (terms : List Term) → {scope : Scope} →
    AllWellSorted vocabulary scope terms → (∀ part ∈ innerAll terms, part.PartIsFlat) →
      areFlat terms = true
  | [], _, _, _ => rfl
  | head :: tail, _, wellSorted, parts => by
      simp only [AllWellSorted] at wellSorted
      simp only [innerAll, List.forall_mem_cons, List.forall_mem_append] at parts
      rw [areFlat, isFlat_of_parts head wellSorted.1 (List.forall_mem_cons.2 parts.1),
        areFlat_of_parts tail wellSorted.2 parts.2]
      rfl

end

end Term

end SymbolicHeap
