import Mathlib.Data.List.Forall2
import SymbolicHeap.Proofs.Model.Cached
import SymbolicHeap.Proofs.Simplify.Denotation
import SymbolicHeap.Reference

/-!
Contract: which address a reference is under a model.

Splitting a reference lists every address that it may be. Under one model
exactly one of them is meant, namely the one that the conditions of the
reference lead to, and a choice between values for the addresses comes down to
the value for that one.

Owns:
- values of closed terms, the address and the place that a reference denotes;
- the leaf of a split reference that a model picks;
- the value of a choice between leaves.
-/

namespace SymbolicHeap

namespace Model

/-- The value of a closed term. -/
def valueOf (model : Model) (term : Term) : Constant :=
  match model.evaluate term with
  | .ok (some value) => value
  | _ => .bottom

/-- A closed condition is true. -/
def holds (model : Model) (condition : Term) : Bool := model.valueOf condition = .bool true

private theorem valueOf_of_eval {model : Model} {term : Term} {value : Constant}
    (evaluated : model.eval [] term = .ok value) : model.valueOf term = value := by
  rw [valueOf, evaluate_of_eval evaluated]

private theorem holds_of_eval {model : Model} {condition : Term} {truth : Bool}
    (evaluated : model.eval [] condition = .ok (.bool truth)) :
    model.holds condition = truth := by
  rw [holds, valueOf_of_eval evaluated]
  cases truth <;> rfl

end Model

namespace Term.Denotes

variable {interpretation : Interpretation}

theorem valueOf {term : Term} {sort : ValueSort} {value : Constant}
    (denotes : term.Denotes interpretation .closed sort value) :
    interpretation.model.valueOf term = value :=
  Model.valueOf_of_eval denotes.eval

theorem holds {condition : Term} {truth : Bool}
    (denotes : condition.Denotes interpretation .closed .bool (.bool truth)) :
    interpretation.model.holds condition = truth :=
  Model.holds_of_eval denotes.eval

/-- A closed Boolean term denotes whether it holds. -/
theorem truth {condition : Term} {value : Constant}
    (denotes : condition.Denotes interpretation .closed .bool value) :
    condition.Denotes interpretation .closed .bool
      (.bool (interpretation.model.holds condition)) := by
  obtain ⟨known, rfl⟩ := denotes.hasSort.bool_cases
  rw [denotes.holds]
  exact denotes

end Term.Denotes

/-! ## Addresses under a model -/

/-- Where a location lies. An input object is told apart by its address, which
is null for a reference that could have been an object but is none. -/
inductive Place where
  | null
  | object (address : UInt32)
  | input (address : Constant)
deriving DecidableEq

def Address.place (model : Model) : Address → Place
  | .null => .null
  | .object address => .object address
  | .symbolic reference => .input (model.valueOf reference)

/-- The address that the conditions of a reference lead to. -/
def Term.addressUnder (model : Model) : Term → Address
  | .conditional condition consequent alternate =>
      if model.holds condition then consequent.addressUnder model
      else alternate.addressUnder model
  | reference => .classify reference

def Term.place (model : Model) (reference : Term) : Place :=
  (reference.addressUnder model).place model

/-- A memory-level value: a closed well-sorted term without arrays, which compares
scalars only. -/
structure Term.IsValue (vocabulary : Vocabulary) (term : Term) (sort : ValueSort) : Prop where
  wellSorted : term.WellSorted vocabulary []
  sorted : term.sort = sort
  memoryLevel : term.isMemoryLevel = true

theorem Term.isValue_const {vocabulary : Vocabulary} {value : Constant} {sort : ValueSort}
    (hasSort : value.HasSort sort) : (Term.const value).IsValue vocabulary sort :=
  ⟨by rw [WellSorted]; exact hasSort.1, hasSort.2, rfl⟩

section

variable {vocabulary : Vocabulary} {model : Model} (sorted : model.Sorted vocabulary)

include sorted

theorem Term.IsValue.eval {term : Term} {sort : ValueSort}
    (isValue : term.IsValue vocabulary sort) :
    model.eval [] term = .ok (model.valueOf term) := by
  obtain ⟨value, evaluated⟩ := Model.eval_ok_of_isMemoryLevel sorted term Bindings.respect_empty
    isValue.wellSorted isValue.memoryLevel
  rw [Model.valueOf_of_eval evaluated]
  exact evaluated

/-- A condition is true or false under every model that respects sorts. -/
theorem Term.IsValue.eval_truth {condition : Term}
    (isCondition : condition.IsValue vocabulary .bool) :
    model.eval [] condition = .ok (.bool (model.holds condition)) := by
  obtain ⟨truth, evaluated⟩ := Model.eval_bool_ok sorted Bindings.respect_empty
    isCondition.wellSorted isCondition.sorted ⟨_, isCondition.eval sorted⟩
  rw [Model.holds_of_eval evaluated]
  exact evaluated

end

theorem Term.IsValue.denotes {interpretation : Interpretation} {term : Term} {sort : ValueSort}
    (isValue : term.IsValue interpretation.vocabulary sort) :
    term.Denotes interpretation .closed sort (interpretation.model.valueOf term) :=
  ⟨isValue.wellSorted, isValue.sorted, isValue.eval interpretation.admissible.sorted⟩

/-- A reference that a memory can be asked for: null, an object, a reference
variable or a reference in input memory, or a choice between such. -/
abbrev Term.IsReference (vocabulary : Vocabulary) (term : Term) : Prop :=
  term.IsValue vocabulary .reference

/-- An address of a split reference. What is symbolic existed before execution. -/
def Address.Valid (vocabulary : Vocabulary) : Address → Prop
  | .null | .object _ => True
  | .symbolic reference =>
      reference.IsReference vocabulary ∧ reference.isConditional = false ∧
        Address.classify reference = .symbolic reference

namespace Term.IsReference

variable {interpretation : Interpretation} {term : Term}

/-- A choice between references asks a condition first. -/
theorem parts {vocabulary : Vocabulary} {condition consequent alternate : Term}
    (reference : (Term.conditional condition consequent alternate).IsReference vocabulary) :
    condition.IsValue vocabulary .bool ∧ consequent.IsReference vocabulary ∧
      alternate.IsReference vocabulary := by
  obtain ⟨wellSorted, sorted, memoryLevel⟩ := reference
  simp only [WellSorted, Term.sort, isMemoryLevel, Bool.and_eq_true] at wellSorted sorted memoryLevel
  obtain ⟨conditionSorted, consequentSorted, alternateSorted, conditionSort, sameSort⟩ := wellSorted
  exact ⟨⟨conditionSorted, conditionSort, memoryLevel.1.1⟩,
    ⟨consequentSorted, sorted, memoryLevel.1.2⟩,
    ⟨alternateSorted, sameSort.symm.trans sorted, memoryLevel.2⟩⟩

private theorem branches {condition consequent alternate : Term}
    (reference : (Term.conditional condition consequent alternate).IsReference
      interpretation.vocabulary) :
    condition.Denotes interpretation .closed .bool
        (.bool (interpretation.model.holds condition)) ∧
      consequent.IsReference interpretation.vocabulary ∧
      alternate.IsReference interpretation.vocabulary := by
  obtain ⟨isCondition, consequentReference, alternateReference⟩ := reference.parts
  exact ⟨isCondition.denotes.truth, consequentReference, alternateReference⟩

/-- A reference without conditionals is one address. -/
theorem classify_valid {vocabulary : Vocabulary} (reference : term.IsReference vocabulary)
    (flat : term.isConditional = false) :
    (Address.classify term).Valid vocabulary ∧ (Address.classify term).toTerm = term := by
  unfold Address.classify
  split
  · exact ⟨trivial, rfl⟩
  · exact ⟨trivial, rfl⟩
  · next notNull notHeap =>
      refine ⟨⟨reference, flat, ?_⟩, rfl⟩
      rw [Address.classify]
      · exact notNull
      · exact notHeap

/-- What is symbolic is no object that the run allocates. -/
theorem symbolic_not_heap (reference : term.IsReference interpretation.vocabulary)
    (flat : term.isConditional = false)
    (symbolic : Address.classify term = .symbolic term) :
    (interpretation.model.valueOf term).isHeap = false := by
  have evaluated := reference.denotes.eval
  obtain ⟨wellSorted, sorted, memoryLevel⟩ := reference
  cases term with
  | const value =>
      obtain ⟨same, _⟩ := Model.eval_const_eq_ok.1 evaluated
      rw [← same]
      cases value with
      | heap address => simp [Address.classify] at symbolic
      | _ => rfl
  | var name sort =>
      refine eval_isInputReference_not_heap interpretation.admissible ?_ wellSorted evaluated
      rw [Term.sort] at sorted
      rw [sorted]
      rfl
  | inputRead region key =>
      refine eval_isInputReference_not_heap interpretation.admissible ?_ wellSorted evaluated
      rw [Term.sort] at sorted
      rw [isInputReference, sorted]
      rfl
  | binary operator left right =>
      cases operator <;>
        simp_all [WellSorted, Term.sort, BinaryOp.resultSort, BinaryOp.Accepts,
          ValueSort.isInteger]
  | negation operand => simp [Term.sort] at sorted
  | subtype operand typeName => simp [Term.sort] at sorted
  | conditional => simp [isConditional] at flat
  | bound | arrayConst | constArray | selection | update | lambda =>
      simp [isMemoryLevel] at memoryLevel

end Term.IsReference

theorem Term.addressUnder_of_not_conditional {term : Term} (flat : term.isConditional = false)
    (model : Model) : term.addressUnder model = .classify term := by
  cases term with
  | conditional => simp [Term.isConditional] at flat
  | _ => rfl

/-- The value of a reference to a place. -/
def Place.constant : Place → Constant
  | .null => .null
  | .object address => .heap address
  | .input address => address

namespace Term.IsReference

variable {interpretation : Interpretation} {term : Term}

theorem addressUnder_valid (reference : term.IsReference interpretation.vocabulary) :
    (term.addressUnder interpretation.model).Valid interpretation.vocabulary := by
  induction term using branchInduction with
  | flat term isFlat =>
      rw [addressUnder_of_not_conditional isFlat]
      exact (reference.classify_valid isFlat).1
  | conditional condition consequent alternate consequentHypothesis alternateHypothesis =>
      obtain ⟨_, consequentReference, alternateReference⟩ := reference.branches
      rw [addressUnder]
      split
      · exact consequentHypothesis consequentReference
      · exact alternateHypothesis alternateReference

/-- The address that the conditions lead to has the value of the reference. -/
theorem eval_addressUnder {vocabulary : Vocabulary} {model : Model}
    (sorted : model.Sorted vocabulary) (reference : term.IsReference vocabulary) :
    model.eval [] (term.addressUnder model).toTerm = model.eval [] term := by
  induction term using branchInduction with
  | flat term isFlat =>
      rw [addressUnder_of_not_conditional isFlat, (reference.classify_valid isFlat).2]
  | conditional condition consequent alternate consequentHypothesis alternateHypothesis =>
      obtain ⟨isCondition, consequentReference, alternateReference⟩ := reference.parts
      rw [addressUnder, Model.eval, isCondition.eval_truth sorted]
      cases model.holds condition with
      | true => exact consequentHypothesis consequentReference
      | false => exact alternateHypothesis alternateReference

/-- A reference has the value that stands for its place. -/
theorem valueOf_eq (reference : term.IsReference interpretation.vocabulary) :
    interpretation.model.valueOf term = (term.place interpretation.model).constant := by
  have evaluated := reference.denotes.eval
  rw [show Environment.closed.bindings = [] from rfl,
    ← reference.eval_addressUnder interpretation.admissible.sorted] at evaluated
  rw [← Model.valueOf_of_eval evaluated, place]
  cases term.addressUnder interpretation.model <;> rfl

end Term.IsReference

/-! ## Splitting -/

private theorem splitReference_of_not_conditional {reference : Term}
    (flat : reference.isConditional = false)
    (guard : Term) :
    splitReference reference guard =
      if guard.asBool? = some false then [] else [⟨.classify reference, guard⟩] := by
  cases reference with
  | conditional => simp [Term.isConditional] at flat
  | _ => simp only [splitReference]

/-- Every leaf has a condition that is true or false. The condition of exactly
one leaf is true, that of the address that the reference is, or of none if the
guard is false. -/
theorem splitReference_decides {vocabulary : Vocabulary} {model : Model}
    (sorted : model.Sorted vocabulary)
    {reference guard : Term} {truth : Bool}
    (isReference : reference.IsReference vocabulary)
    (guardHolds : model.eval [] guard = .ok (.bool truth)) :
    (∀ leaf ∈ splitReference reference guard,
        model.eval [] leaf.guard = .ok (.bool (model.holds leaf.guard))) ∧
      ((splitReference reference guard).filter fun leaf => model.holds leaf.guard).map
          Leaf.address =
        if truth then [reference.addressUnder model] else [] := by
  induction reference using Term.branchInduction generalizing guard truth with
  | flat reference isFlat =>
      rw [splitReference_of_not_conditional isFlat,
        Term.addressUnder_of_not_conditional isFlat]
      split
      · next isFalse =>
          rw [Term.eq_const_of_asBool? isFalse] at guardHolds
          cases Term.eq_of_eval_ofBool guardHolds
          exact ⟨List.forall_mem_nil _, rfl⟩
      · rw [List.forall_mem_singleton, List.filter_singleton, Model.holds_of_eval guardHolds]
        refine ⟨guardHolds, ?_⟩
        cases truth <;> rfl
  | conditional condition consequent alternate consequentHypothesis alternateHypothesis =>
      obtain ⟨isCondition, consequentReference, alternateReference⟩ := isReference.parts
      have conditionHolds := isCondition.eval_truth sorted
      have bothHold : model.eval [] (guard.and condition) =
          .ok (.bool (truth && model.holds condition)) := by
        rw [Term.eval_and guardHolds, conditionHolds]
        cases truth <;> rfl
      have onlyGuardHolds : model.eval [] (guard.and condition.not) =
          .ok (.bool (truth && !model.holds condition)) := by
        rw [Term.eval_and guardHolds, Term.eval_not conditionHolds]
        cases truth <;> rfl
      obtain ⟨consequentDecided, consequentPicks⟩ :=
        consequentHypothesis consequentReference bothHold
      obtain ⟨alternateDecided, alternatePicks⟩ :=
        alternateHypothesis alternateReference onlyGuardHolds
      simp only [splitReference, Term.addressUnder]
      split
      · next isFalse =>
          rw [Term.eq_const_of_asBool? isFalse] at guardHolds
          cases Term.eq_of_eval_ofBool guardHolds
          exact ⟨List.forall_mem_nil _, rfl⟩
      · refine ⟨List.forall_mem_append.2 ⟨consequentDecided, alternateDecided⟩, ?_⟩
        rw [List.filter_append, List.map_append, consequentPicks, alternatePicks]
        cases truth <;> cases model.holds condition <;> rfl

section Splitting

variable {interpretation : Interpretation}

/-- Every leaf is an address under a condition with a truth value. -/
theorem splitReference_valid {reference guard : Term} {value : Constant}
    (isReference : reference.IsReference interpretation.vocabulary)
    (guardDenotes : guard.Denotes interpretation .closed .bool value) :
    ∀ leaf ∈ splitReference reference guard,
      leaf.address.Valid interpretation.vocabulary ∧
        leaf.guard.Denotes interpretation .closed .bool
          (.bool (interpretation.model.holds leaf.guard)) := by
  induction reference using Term.branchInduction generalizing guard value with
  | flat reference isFlat =>
      intro leaf member
      rw [splitReference_of_not_conditional isFlat] at member
      split at member
      · simp at member
      · rw [List.mem_singleton] at member
        subst member
        exact ⟨(isReference.classify_valid isFlat).1, guardDenotes.truth⟩
  | conditional condition consequent alternate consequentHypothesis alternateHypothesis =>
      intro leaf member
      obtain ⟨conditionDenotes, consequentReference, alternateReference⟩ := isReference.branches
      simp only [splitReference] at member
      split at member
      · simp at member
      · rcases List.mem_append.1 member with inConsequent | inAlternate
        · exact consequentHypothesis consequentReference
            (guardDenotes.truth.and conditionDenotes) leaf inConsequent
        · exact alternateHypothesis alternateReference
            (guardDenotes.truth.and conditionDenotes.not) leaf inAlternate

/-- Of all leaves exactly one has a condition that holds: the address that the
reference is. -/
theorem splitReference_picks {reference guard : Term} {truth : Bool}
    (isReference : reference.IsReference interpretation.vocabulary)
    (guardDenotes : guard.Denotes interpretation .closed .bool (.bool truth)) :
    ((splitReference reference guard).filter fun leaf =>
        interpretation.model.holds leaf.guard).map Leaf.address =
      if truth then [reference.addressUnder interpretation.model] else [] :=
  (splitReference_decides interpretation.admissible.sorted isReference guardDenotes.eval).2

/-! ## Choices between leaves -/

/-- What a choice between values comes to, given which of their conditions
hold. -/
def chooseLeaf (fallback : Constant) : List (Bool × Constant) → Constant
  | [] => fallback
  | [(_, value)] => value
  | (truth, value) :: rest => if truth then value else chooseLeaf fallback rest

private theorem joinLeaves_denotes {environment : Environment} {sort : ValueSort} {fallback : Term}
    {fallbackValue : Constant}
    (fallbackDenotes : fallback.Denotes interpretation environment sort fallbackValue)
    {values : List (Bool × Constant)}
    {choices : List (Term × Term)}
    (each : List.Forall₂ (fun value choice =>
      choice.1.Denotes interpretation environment .bool (.bool value.1) ∧
        choice.2.Denotes interpretation environment sort value.2) values choices) :
    (joinLeaves fallback choices).Denotes interpretation environment sort
      (chooseLeaf fallbackValue values) := by
  induction each with
  | nil => exact fallbackDenotes
  | cons first rest inductionHypothesis =>
      cases rest with
      | nil => exact first.2
      | cons second others =>
          simp only [joinLeaves, chooseLeaf]
          exact first.1.ite first.2 inductionHypothesis

/-- Where exactly one condition holds, its value is the choice. -/
private theorem chooseLeaf_of_filter {fallback value : Constant} {values : List (Bool × Constant)}
    (single : values.filter Prod.fst = [(true, value)]) : chooseLeaf fallback values = value := by
  induction values with
  | nil => simp at single
  | cons first rest inductionHypothesis =>
      obtain ⟨truth, firstValue⟩ := first
      cases truth with
      | true =>
          simp only [List.filter_cons, ↓reduceIte, List.cons.injEq, Prod.mk.injEq] at single
          cases rest <;> simp [chooseLeaf, single]
      | false =>
          simp only [List.filter_cons, Bool.false_eq_true, ↓reduceIte] at single
          cases rest with
          | nil => simp at single
          | cons second others =>
              simp only [chooseLeaf, Bool.false_eq_true, ↓reduceIte]
              exact inductionHypothesis single

/-- A choice between the values of all leaves comes to the value of the address
that the reference is. -/
private theorem chooseLeaf_splitReference {reference guard : Term}
    (isReference : reference.IsReference interpretation.vocabulary)
    (guardDenotes : guard.Denotes interpretation .closed .bool (.bool true))
    (fallback : Constant)
    (meaning : Address → Constant) :
    chooseLeaf fallback ((splitReference reference guard).map fun leaf =>
        (interpretation.model.holds leaf.guard, meaning leaf.address)) =
      meaning (reference.addressUnder interpretation.model) := by
  obtain ⟨leaf, single, isAddress⟩ :=
    List.map_eq_singleton_iff.1 (splitReference_picks isReference guardDenotes)
  have leafHolds : interpretation.model.holds leaf.guard = true := by
    have member : leaf ∈ [leaf] := List.mem_singleton.2 rfl
    rw [← single, List.mem_filter] at member
    exact member.2
  apply chooseLeaf_of_filter
  rw [List.filter_map]
  have sameFilter : (splitReference reference guard).filter
      (Prod.fst ∘ fun leaf => (interpretation.model.holds leaf.guard, meaning leaf.address)) =
        [leaf] := single
  rw [sameFilter, List.map_singleton, leafHolds, isAddress]

/-- A choice between terms for all leaves has the value for the address that the
reference is. -/
theorem joinLeaves_splitReference {environment : Environment} {sort : ValueSort}
    {reference guard fallback : Term}
    {fallbackValue : Constant}
    (isReference : reference.IsReference interpretation.vocabulary)
    (guardDenotes : guard.Denotes interpretation .closed .bool (.bool true))
    (fallbackDenotes : fallback.Denotes interpretation environment sort fallbackValue)
    (meaning : Address → Constant)
    {choices : List (Term × Term)}
    (each : List.Forall₂ (fun leaf choice =>
      choice.1.Denotes interpretation environment .bool
          (.bool (interpretation.model.holds leaf.guard)) ∧
        choice.2.Denotes interpretation environment sort (meaning leaf.address))
      (splitReference reference guard) choices) :
    (joinLeaves fallback choices).Denotes interpretation environment sort
      (meaning (reference.addressUnder interpretation.model)) := by
  rw [← chooseLeaf_splitReference isReference guardDenotes fallbackValue meaning]
  exact joinLeaves_denotes fallbackDenotes (List.forall₂_map_left_iff.2 each)

end Splitting

end SymbolicHeap
