import SymbolicHeap.Model.Eval

/-!
Contract: terms whose operands have the sorts that their operator asks for.

Symbols carry their sort with them, and one name may be declared with several
sorts, so well-sortedness is relative to a vocabulary of declared symbols. A
model is admissible for a vocabulary when what it assigns to a declared symbol
has the declared sort, and when nothing that existed before execution is an
object that the run allocates.

Owns:
- vocabularies, scopes of lambda parameters, well-sorted terms;
- sorted and admissible models, and bindings that respect a scope;
- terms without arrays, which are the values of a memory.
-/

namespace SymbolicHeap

/-! ## Values of a sort -/

/-- The value can stand where the sort is asked for. -/
def Constant.HasSort (value : Constant) (sort : ValueSort) : Prop :=
  value ≠ .bottom ∧ value.sort = sort

instance (value : Constant) (sort : ValueSort) : Decidable (value.HasSort sort) := by
  unfold Constant.HasSort
  infer_instance

/-- The values have the sorts of a list, one by one. -/
def Constant.HaveSorts : List Constant → List ValueSort → Prop
  | [], [] => True
  | value :: values, sort :: sorts => value.HasSort sort ∧ HaveSorts values sorts
  | _, _ => False

/-- The value is an object that the run allocates. -/
def Constant.isHeap : Constant → Bool
  | .heap _ => true
  | _ => false

namespace Constant.HasSort

theorem bool_cases {value : Constant} (hasSort : value.HasSort .bool) :
    ∃ truth, value = .bool truth := by
  cases value <;> simp_all [Constant.HasSort, Constant.sort]

theorem i32_cases {value : Constant} (hasSort : value.HasSort .i32) :
    ∃ number, value = .i32 number := by
  cases value <;> simp_all [Constant.HasSort, Constant.sort]

theorem i64_cases {value : Constant} (hasSort : value.HasSort .i64) :
    ∃ number, value = .i64 number := by
  cases value <;> simp_all [Constant.HasSort, Constant.sort]

end Constant.HasSort

theorem Constant.hasSort_of_default {sort : ValueSort} {value : Constant}
    (initial : Constant.default sort = .ok value) : value.HasSort sort := by
  cases sort <;> simp [Constant.default] at initial <;> subst initial <;> decide

theorem Constant.default_not_heap {sort : ValueSort} {value : Constant}
    (initial : Constant.default sort = .ok value) : value.isHeap = false := by
  cases sort <;> simp [Constant.default] at initial <;> subst initial <;> rfl

/-! ## Well-sorted terms -/

/-- The symbols of a run with the sorts they are declared with. Array symbols
are the arrays of variables, of uninterpreted arrays and of regions. -/
structure Vocabulary where
  scalar : String → ValueSort → Prop
  array : String → ValueSort → Prop

/-- The region's contents before execution are declared. -/
def Vocabulary.Declares (vocabulary : Vocabulary) (region : RegionId) : Prop :=
  vocabulary.array region.baseArrayName region.inputArraySort

/-- Sorts of lambda parameters, innermost first. -/
abbrev Scope := List (String × ValueSort)

/-- The scope inside a lambda; a later parameter hides an earlier one of its
name. -/
def bindScope : List Term → Scope → Scope
  | .bound name sort :: parameters, scope => bindScope parameters ((name, sort) :: scope)
  | _ :: parameters, scope => bindScope parameters scope
  | [], scope => scope

def Term.isBound : Term → Bool
  | .bound _ _ => true
  | _ => false

/-- The sorts of the operands that an operator takes. -/
def BinaryOp.Accepts (left right : ValueSort) : BinaryOp → Prop
  | .add | .sub | .lessThan | .lessOrEqual => left.isInteger = true ∧ left = right
  | .equals => left = right
  | .and | .or => left = .bool ∧ right = .bool

namespace Term

mutual

def WellSorted (vocabulary : Vocabulary) : Scope → Term → Prop
  | _, .const value => value ≠ .bottom
  | _, .var name sort =>
      if sort.isArray then vocabulary.array name sort else vocabulary.scalar name sort
  | scope, .bound name sort => scope.lookup name = some sort
  | scope, .binary operator left right =>
      left.WellSorted vocabulary scope ∧ right.WellSorted vocabulary scope ∧
        operator.Accepts left.sort right.sort
  | scope, .negation operand => operand.WellSorted vocabulary scope ∧ operand.sort = .bool
  | scope, .conditional condition consequent alternate =>
      condition.WellSorted vocabulary scope ∧ consequent.WellSorted vocabulary scope ∧
        alternate.WellSorted vocabulary scope ∧ condition.sort = .bool ∧
          consequent.sort = alternate.sort
  | scope, .subtype operand _ => operand.WellSorted vocabulary scope ∧ operand.sort = .reference
  | scope, .inputRead region key =>
      AllWellSorted vocabulary scope key ∧ sorts key = region.inputArraySort.domain ∧
        vocabulary.Declares region
  | _, .arrayConst name sort => sort.isArray = true ∧ vocabulary.array name sort
  | scope, .constArray value sort =>
      value.WellSorted vocabulary scope ∧ sort = .array sort.domain value.sort
  | scope, .selection array indices =>
      array.WellSorted vocabulary scope ∧ AllWellSorted vocabulary scope indices ∧
        array.sort = .array (sorts indices) array.sort.range
  | scope, .update array indices value =>
      array.WellSorted vocabulary scope ∧ AllWellSorted vocabulary scope indices ∧
        value.WellSorted vocabulary scope ∧ array.sort = .array (sorts indices) value.sort
  | scope, .lambda parameters body =>
      (∀ parameter ∈ parameters, parameter.isBound = true) ∧
        body.WellSorted vocabulary (bindScope parameters scope)

def AllWellSorted (vocabulary : Vocabulary) : Scope → List Term → Prop
  | _, [] => True
  | scope, head :: tail =>
      head.WellSorted vocabulary scope ∧ AllWellSorted vocabulary scope tail

end

end Term

/-! ## Values of a memory -/

/-- Neither the contents nor the keys of the region are arrays. -/
def RegionId.isScalar (region : RegionId) : Bool :=
  !region.valueSort.isArray && region.secondarySort.all fun sort => !sort.isArray

theorem RegionId.scalar_of_isScalar {region : RegionId} (isScalar : region.isScalar = true) :
    region.valueSort.isArray = false := by
  simp only [RegionId.isScalar, Bool.and_eq_true, Bool.not_eq_true'] at isScalar
  exact isScalar.1

namespace Term

mutual

/-- The term is built without arrays: a value that a memory can hold. -/
def isMemoryLevel : Term → Bool
  | .const _ => true
  | .var _ sort => !sort.isArray
  | .binary _ left right => left.isMemoryLevel && right.isMemoryLevel
  | .negation operand | .subtype operand _ => operand.isMemoryLevel
  | .conditional condition consequent alternate =>
      condition.isMemoryLevel && consequent.isMemoryLevel && alternate.isMemoryLevel
  | .inputRead region key => region.isScalar && areMemoryLevel key
  | .bound _ _ | .arrayConst _ _ | .constArray _ _ | .selection _ _ | .update _ _ _
  | .lambda _ _ => false

def areMemoryLevel : List Term → Bool
  | [] => true
  | head :: tail => head.isMemoryLevel && areMemoryLevel tail

end

/-! ## Wider scopes -/

theorem bindScope_append (parameters : List Term) (scope outer : Scope) :
    bindScope parameters (scope ++ outer) = bindScope parameters scope ++ outer := by
  induction parameters generalizing scope with
  | nil => rfl
  | cons parameter parameters inductionHypothesis =>
      cases parameter with
      | bound name sort =>
          simp only [bindScope]
          exact inductionHypothesis ((name, sort) :: scope)
      | _ =>
          simp only [bindScope]
          exact inductionHypothesis scope

mutual

/-- Parameters of further lambdas outside do not matter. -/
theorem WellSorted.widen {vocabulary : Vocabulary} :
    (term : Term) → {scope : Scope} → term.WellSorted vocabulary scope → (outer : Scope) →
      term.WellSorted vocabulary (scope ++ outer)
  | .const _, _, wellSorted, _ | .var _ _, _, wellSorted, _
  | .arrayConst _ _, _, wellSorted, _ => by
      simpa only [WellSorted] using wellSorted
  | .bound _ _, _, wellSorted, _ => by
      simp only [WellSorted] at wellSorted ⊢
      rw [List.lookup_append, wellSorted, Option.some_or]
  | .binary _ left right, _, wellSorted, outer => by
      simp only [WellSorted] at wellSorted ⊢
      exact ⟨wellSorted.1.widen left outer, wellSorted.2.1.widen right outer, wellSorted.2.2⟩
  | .negation operand, _, wellSorted, outer | .subtype operand _, _, wellSorted, outer
  | .constArray operand _, _, wellSorted, outer => by
      simp only [WellSorted] at wellSorted ⊢
      exact ⟨wellSorted.1.widen operand outer, wellSorted.2⟩
  | .conditional condition consequent alternate, _, wellSorted, outer => by
      simp only [WellSorted] at wellSorted ⊢
      exact ⟨wellSorted.1.widen condition outer, wellSorted.2.1.widen consequent outer,
        wellSorted.2.2.1.widen alternate outer, wellSorted.2.2.2⟩
  | .inputRead _ key, _, wellSorted, outer => by
      simp only [WellSorted] at wellSorted ⊢
      exact ⟨wellSorted.1.widen key outer, wellSorted.2⟩
  | .selection array indices, _, wellSorted, outer => by
      simp only [WellSorted] at wellSorted ⊢
      exact ⟨wellSorted.1.widen array outer, wellSorted.2.1.widen indices outer,
        wellSorted.2.2⟩
  | .update array indices value, _, wellSorted, outer => by
      simp only [WellSorted] at wellSorted ⊢
      exact ⟨wellSorted.1.widen array outer, wellSorted.2.1.widen indices outer,
        wellSorted.2.2.1.widen value outer, wellSorted.2.2.2⟩
  | .lambda parameters body, _, wellSorted, outer => by
      simp only [WellSorted] at wellSorted ⊢
      refine ⟨wellSorted.1, ?_⟩
      rw [bindScope_append]
      exact wellSorted.2.widen body outer

theorem AllWellSorted.widen {vocabulary : Vocabulary} :
    (terms : List Term) → {scope : Scope} → AllWellSorted vocabulary scope terms →
      (outer : Scope) → AllWellSorted vocabulary (scope ++ outer) terms
  | [], _, _, _ => by simp only [AllWellSorted]
  | head :: tail, _, wellSorted, outer => by
      simp only [AllWellSorted] at wellSorted ⊢
      exact ⟨wellSorted.1.widen head outer, wellSorted.2.widen tail outer⟩

end

end Term

/-! ## Admissible models -/

/-- The value is an entry of the array or its fallback. -/
def ArrayContents.Holds (contents : ArrayContents) (value : Constant) : Prop :=
  (∃ indices, contents.entries.find? indices = some value) ∨ contents.fallback = some value

/-- What the model assigns has the declared sort. -/
structure Model.Sorted (vocabulary : Vocabulary) (model : Model) : Prop where
  scalars : ∀ {name sort value}, vocabulary.scalar name sort →
    model.assignment.find? name = some value → value.HasSort sort
  arrays : ∀ {name sort value}, vocabulary.array name sort →
    (model.array name).Holds value → value.HasSort sort.range

/-- What the model assigns has the declared sort, and no reference into input
memory is an object that the run allocates. -/
structure Model.Admissible (vocabulary : Vocabulary) (model : Model) : Prop where
  scalars : ∀ {name sort value}, vocabulary.scalar name sort →
    model.assignment.find? name = some value → value.HasSort sort ∧ value.isHeap = false
  arrays : ∀ {name sort value}, vocabulary.array name sort →
    (model.array name).Holds value → value.HasSort sort.range
  inputs : ∀ {region value}, vocabulary.Declares region →
    (model.array region.baseArrayName).Holds value → value.isHeap = false

theorem Model.Admissible.sorted {vocabulary : Vocabulary} {model : Model}
    (admissible : model.Admissible vocabulary) : model.Sorted vocabulary :=
  ⟨fun declared assigned => (admissible.scalars declared assigned).1, admissible.arrays⟩

/-- A model that assigns nothing falls back on default values everywhere. -/
theorem Model.empty_admissible (vocabulary : Vocabulary) : Model.empty.Admissible vocabulary := by
  have holdsNothing : ∀ name value, ¬ (Model.empty.array name).Holds value := by
    intro name value holds
    rcases holds with ⟨indices, found⟩ | found
    · simp [Model.array, Model.empty] at found
    · simp [Model.array, Model.empty] at found
  refine ⟨?_, ?_, ?_⟩
  · intro name sort value _ assigned
    simp [Model.empty] at assigned
  · intro name sort value _ holds
    exact absurd holds (holdsNothing name value)
  · intro region value _ holds
    exact absurd holds (holdsNothing _ value)

private theorem Model.assigned_cases {model : Model} {name probe : String} {value found : Constant}
    (assigned : (model.assign name value).assignment.find? probe = some found) :
    probe = name ∧ found = value ∨ model.assignment.find? probe = some found := by
  rw [Model.assign, OrderedMap.find?_insert] at assigned
  split at assigned
  · next same =>
      cases assigned
      exact .inl ⟨same, rfl⟩
  · exact .inr assigned

theorem Model.Admissible.assign {vocabulary : Vocabulary} {model : Model}
    (admissible : model.Admissible vocabulary) {name : String} {value : Constant}
    (fits : ∀ sort, vocabulary.scalar name sort → value.HasSort sort ∧ value.isHeap = false) :
    (model.assign name value).Admissible vocabulary where
  scalars := by
    intro probe sort found declared assigned
    obtain ⟨rfl, rfl⟩ | assigned := Model.assigned_cases assigned
    · exact fits sort declared
    · exact admissible.scalars declared assigned
  arrays := admissible.arrays
  inputs := admissible.inputs

theorem Model.Sorted.assign {vocabulary : Vocabulary} {model : Model}
    (sorted : model.Sorted vocabulary) {name : String} {value : Constant}
    (fits : ∀ sort, vocabulary.scalar name sort → value.HasSort sort) :
    (model.assign name value).Sorted vocabulary where
  scalars := by
    intro probe sort found declared assigned
    obtain ⟨rfl, rfl⟩ | assigned := Model.assigned_cases assigned
    · exact fits sort declared
    · exact sorted.scalars declared assigned
  arrays := sorted.arrays

/-- Bound values have the sorts that the scope declares. -/
def Bindings.Respect (scope : Scope) (bindings : Bindings) : Prop :=
  ∀ name sort value, scope.lookup name = some sort → bindings.lookup name = some value →
    value.HasSort sort

namespace Bindings

theorem respect_empty : Respect [] [] := by
  intro name sort value declared
  simp at declared

theorem Respect.cons {scope : Scope} {bindings : Bindings} (respect : Respect scope bindings)
    (name : String) {sort : ValueSort} {value : Constant} (hasSort : value.HasSort sort) :
    Respect ((name, sort) :: scope) ((name, value) :: bindings) := by
  intro probe probeSort probeValue declared bound
  rw [List.lookup_cons] at declared bound
  by_cases same : probe = name
  · simp only [same, beq_self_eq_true, Option.some.injEq] at declared bound
    rw [← declared, ← bound]
    exact hasSort
  · simp only [beq_false_of_ne same] at declared bound
    exact respect probe probeSort probeValue declared bound

/-- Binding parameters to values of their sorts keeps what binding one name
keeps. -/
theorem bindParameters_induction {motive : Scope → Bindings → Prop}
    (step : ∀ {scope bindings sort value} name, motive scope bindings →
      Constant.HasSort value sort → motive ((name, sort) :: scope) ((name, value) :: bindings))
    {parameters : List Term} {scope : Scope} {bindings : Bindings} {values : List Constant}
    (start : motive scope bindings)
    (haveSorts : Constant.HaveSorts values (Term.sorts parameters)) :
    motive (bindScope parameters scope) (bindParameters parameters values bindings) := by
  induction parameters generalizing scope bindings values with
  | nil =>
      cases values with
      | nil => exact start
      | cons _ _ => simp [Term.sorts, Constant.HaveSorts] at haveSorts
  | cons parameter parameters inductionHypothesis =>
      cases values with
      | nil => simp [Term.sorts, Constant.HaveSorts] at haveSorts
      | cons value values =>
          simp only [Term.sorts, Constant.HaveSorts] at haveSorts
          cases parameter with
          | bound name sort =>
              simp only [bindScope, bindParameters]
              exact inductionHypothesis (step name start haveSorts.1) haveSorts.2
          | _ =>
              simp only [bindScope, bindParameters]
              exact inductionHypothesis start haveSorts.2

/-- Values of the parameters' sorts can be bound to the parameters. -/
theorem Respect.bindParameters {parameters : List Term} {scope : Scope} {bindings : Bindings}
    {values : List Constant}
    (respect : Respect scope bindings)
    (haveSorts : Constant.HaveSorts values (Term.sorts parameters)) :
    Respect (bindScope parameters scope) (bindParameters parameters values bindings) :=
  bindParameters_induction (fun name respect hasSort => respect.cons name hasSort) respect
    haveSorts

end Bindings

end SymbolicHeap
