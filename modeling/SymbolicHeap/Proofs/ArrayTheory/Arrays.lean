import SymbolicHeap.Proofs.ArrayTheory.Values
import SymbolicHeap.Proofs.Simplify.Denotation

/-!
Contract: array terms with known elements.

An array term has no value of its own; it denotes the function from indices to
elements. This module says once what each constructor of arrays does to that
function, so that proofs about encodings can compute with functions.

Owns:
- indices with known values, and the parameters of a lambda;
- the function that an array term denotes, constructor by constructor.
-/

namespace SymbolicHeap

/-! ## Environments -/

/-- The environment inside a lambda, once its parameters have values. -/
def Environment.bind (environment : Environment) (parameters : List Term)
    (values : List Constant)
    (haveSorts : Constant.HaveSorts values (Term.sorts parameters)) : Environment :=
  ⟨bindScope parameters environment.scope, bindParameters parameters values environment.bindings,
    environment.respect.bindParameters haveSorts⟩

namespace Term

/-! ## Indices -/

/-- The terms have the sorts and, in the environment, the values. -/
structure DenoteAll
    (interpretation : Interpretation)
    (environment : Environment)
    (terms : List Term)
    (sorts : List ValueSort)
    (values : List Constant) :
    Prop where
  wellSorted : AllWellSorted interpretation.vocabulary environment.scope terms
  sorted : Term.sorts terms = sorts
  eval : interpretation.model.evalAll environment.bindings terms = .ok values

variable {interpretation : Interpretation} {environment : Environment}

theorem Denotes.encoded {term : Term} {sort : ValueSort} {value : Constant}
    (denotes : term.Denotes interpretation environment sort value) :
    term.encoded.Denotes interpretation environment sort value := by
  have refines := encoded_refines term denotes.wellSorted
  exact ⟨refines.wellSorted, refines.sort.trans denotes.sorted,
    refines.eval interpretation.admissible environment.respect denotes.eval⟩

namespace DenoteAll

theorem nil : DenoteAll interpretation environment [] [] [] :=
  ⟨by rw [AllWellSorted]; trivial, rfl, by rw [Model.evalAll]⟩

theorem cons {head : Term} {sort : ValueSort} {value : Constant}
    {tail : List Term} {sorts : List ValueSort} {values : List Constant}
    (headDenotes : head.Denotes interpretation environment sort value)
    (tailDenote : DenoteAll interpretation environment tail sorts values) :
    DenoteAll interpretation environment (head :: tail) (sort :: sorts) (value :: values) where
  wellSorted := by
    rw [AllWellSorted]
    exact ⟨headDenotes.wellSorted, tailDenote.wellSorted⟩
  sorted := by rw [Term.sorts, headDenotes.sorted, tailDenote.sorted]
  eval := Model.evalAll_cons_eq_ok.2 ⟨value, values, headDenotes.eval, tailDenote.eval, rfl⟩

theorem haveSorts {terms : List Term} {sorts : List ValueSort} {values : List Constant}
    (denote : DenoteAll interpretation environment terms sorts values) :
    Constant.HaveSorts values sorts :=
  denote.sorted ▸ Model.evalAll_haveSorts interpretation.admissible.sorted terms environment.respect
    denote.wellSorted denote.eval

end DenoteAll

/-! ## Parameters -/

/-- A single parameter has the value that it is bound to. -/
theorem parameter_denotes (environment : Environment) {name : String} {sort : ValueSort}
    {values : List Constant}
    (haveSorts : Constant.HaveSorts values (Term.sorts [.bound name sort])) :
    ∃ value, values = [value] ∧
      (Term.bound name sort).Denotes interpretation
        (environment.bind [.bound name sort] values haveSorts) sort value := by
  rcases values with _ | ⟨value, _ | ⟨extra, values⟩⟩
  · simp [Term.sorts, Constant.HaveSorts] at haveSorts
  · refine ⟨value, rfl, .bound ?_ ?_⟩
    · exact List.lookup_cons_self
    · exact List.lookup_cons_self
  · simp [Term.sorts, Constant.HaveSorts] at haveSorts

/-- Two parameters have the values that they are bound to, if the second does
not hide the first. -/
theorem parameters_denote (environment : Environment) {first second : String}
    (apart : (first == second) = false) {firstSort secondSort : ValueSort}
    {values : List Constant}
    (haveSorts : Constant.HaveSorts values
      (Term.sorts [.bound first firstSort, .bound second secondSort])) :
    ∃ firstValue secondValue, values = [firstValue, secondValue] ∧
      (Term.bound first firstSort).Denotes interpretation
        (environment.bind [.bound first firstSort, .bound second secondSort] values haveSorts)
          firstSort firstValue ∧
      (Term.bound second secondSort).Denotes interpretation
        (environment.bind [.bound first firstSort, .bound second secondSort] values haveSorts)
          secondSort secondValue := by
  rcases values with _ | ⟨firstValue, _ | ⟨secondValue, _ | ⟨extra, values⟩⟩⟩
  · simp [Term.sorts, Constant.HaveSorts] at haveSorts
  · simp [Term.sorts, Constant.HaveSorts] at haveSorts
  · refine ⟨firstValue, secondValue, rfl, .bound ?_ ?_, .bound ?_ ?_⟩
    · show List.lookup first ((second, secondSort) :: (first, firstSort) :: _) = _
      rw [List.lookup_cons, apart]
      exact List.lookup_cons_self
    · show List.lookup first ((second, secondValue) :: (first, firstValue) :: _) = _
      rw [List.lookup_cons, apart]
      exact List.lookup_cons_self
    · exact List.lookup_cons_self
    · exact List.lookup_cons_self
  · simp [Term.sorts, Constant.HaveSorts] at haveSorts

/-! ## Arrays -/

/-- The term is an array and has these elements. -/
structure DenotesArray
    (interpretation : Interpretation)
    (environment : Environment)
    (term : Term)
    (domain : List ValueSort)
    (range : ValueSort)
    (elements : List Constant → Constant) :
    Prop where
  wellSorted : term.WellSorted interpretation.vocabulary environment.scope
  sorted : term.sort = .array domain range
  select : ∀ indices, Constant.HaveSorts indices domain →
    interpretation.model.evalSelection environment.bindings term indices =
      .ok (elements indices)

namespace DenotesArray

variable {array : Term} {domain : List ValueSort} {range : ValueSort}
  {elements : List Constant → Constant}

theorem hasSort (denotes : array.DenotesArray interpretation environment domain range elements)
    {indices : List Constant}
    (haveSorts : Constant.HaveSorts indices domain) : (elements indices).HasSort range := by
  have sorted := Model.evalSelection_hasSort interpretation.admissible.sorted array
    environment.respect denotes.wellSorted (by rw [denotes.sorted]; exact haveSorts)
    (denotes.select indices haveSorts)
  rw [denotes.sorted] at sorted
  exact sorted

/-- Elements count at well-sorted indices only. -/
theorem congr (denotes : array.DenotesArray interpretation environment domain range elements)
    {others : List Constant → Constant}
    (same : ∀ indices, Constant.HaveSorts indices domain → elements indices = others indices) :
    array.DenotesArray interpretation environment domain range others :=
  ⟨denotes.wellSorted, denotes.sorted, fun indices haveSorts => by
    rw [denotes.select indices haveSorts, same indices haveSorts]⟩

theorem unique (denotes : array.DenotesArray interpretation environment domain range elements)
    {otherDomain : List ValueSort} {otherRange : ValueSort} {others : List Constant → Constant}
    (again : array.DenotesArray interpretation environment otherDomain otherRange others) :
    otherDomain = domain ∧ otherRange = range ∧
      ∀ indices, Constant.HaveSorts indices domain → elements indices = others indices := by
  have sameSort := again.sorted.symm.trans denotes.sorted
  cases sameSort
  refine ⟨rfl, rfl, fun indices haveSorts => ?_⟩
  exact Except.ok.inj ((denotes.select indices haveSorts).symm.trans
    (again.select indices haveSorts))

/-- A closed array has the same elements inside lambdas. -/
theorem widen (denotes : array.DenotesArray interpretation .closed domain range elements)
    (environment : Environment) :
    array.DenotesArray interpretation environment domain range elements where
  wellSorted := denotes.wellSorted.widen array environment.scope
  sorted := denotes.sorted
  select := fun indices haveSorts =>
    Model.evalSelection_append array (denotes.select indices haveSorts) environment.bindings

theorem refine {other : Term}
    (denotes : array.DenotesArray interpretation environment domain range elements)
    (refines : Refines interpretation.vocabulary environment.scope array other) :
    other.DenotesArray interpretation environment domain range elements where
  wellSorted := refines.wellSorted
  sorted := refines.sort.trans denotes.sorted
  select := fun indices haveSorts =>
    refines.select interpretation.admissible environment.respect (denotes.select indices haveSorts)

/-! ## Constructors -/

theorem constArray {element : Term} {value : Constant}
    (denotes : element.Denotes interpretation environment range value) :
    (Term.constArray element (.array domain range)).DenotesArray interpretation environment domain
      range (fun _ => value) where
  wellSorted := by
    simp only [WellSorted, denotes.sorted]
    exact ⟨denotes.wellSorted, rfl⟩
  sorted := rfl
  select := by
    intro indices _
    rw [Model.evalSelection]
    exact denotes.eval

theorem store {indices : List Term} {values : List Constant} {element : Term} {value : Constant}
    (arrayDenotes : array.DenotesArray interpretation environment domain range elements)
    (indicesDenote : DenoteAll interpretation environment indices domain values)
    (elementDenotes : element.Denotes interpretation environment range value) :
    (array.store indices element).DenotesArray interpretation environment domain range
      fun places => if places = values then value else elements places := by
  have wellSorted : (Term.update array indices element).WellSorted interpretation.vocabulary
      environment.scope := by
    simp only [WellSorted, indicesDenote.sorted, elementDenotes.sorted]
    exact ⟨arrayDenotes.wellSorted, indicesDenote.wellSorted, elementDenotes.wellSorted,
      arrayDenotes.sorted⟩
  have updated : (Term.update array indices element).DenotesArray interpretation environment domain
      range fun places => if places = values then value else elements places := by
    refine ⟨wellSorted, arrayDenotes.sorted, fun places haveSorts => ?_⟩
    refine Model.evalSelection_update_eq_ok.2 ⟨values, indicesDenote.eval, ?_⟩
    by_cases same : values = places
    · rw [if_pos same, if_pos same.symm]
      exact elementDenotes.eval
    · rw [if_neg same, if_neg (Ne.symm same)]
      exact arrayDenotes.select places haveSorts
  exact updated.refine (refines_store wellSorted)

/-- The elements of a lambda are the values of its body. -/
theorem lambda {parameters : List Term} {body : Term}
    (areBound : ∀ parameter ∈ parameters, parameter.isBound = true)
    (bodySorted : body.WellSorted interpretation.vocabulary
      (bindScope parameters environment.scope))
    (bodySort : body.sort = range)
    (bodyDenotes : ∀ values (haveSorts : Constant.HaveSorts values (Term.sorts parameters)),
      body.Denotes interpretation (environment.bind parameters values haveSorts) range
        (elements values)) :
    (Term.lambda parameters body).DenotesArray interpretation environment (Term.sorts parameters)
      range elements where
  wellSorted := by
    simp only [WellSorted]
    exact ⟨areBound, bodySorted⟩
  sorted := by rw [Term.sort, bodySort]
  select := by
    intro values haveSorts
    rw [Model.evalSelection]
    exact (bodyDenotes values haveSorts).eval

end DenotesArray

/-- The element at known indices. -/
theorem DenotesArray.element {array : Term} {domain : List ValueSort} {range : ValueSort}
    {elements : List Constant → Constant} {indices : List Term} {values : List Constant}
    (arrayDenotes : array.DenotesArray interpretation environment domain range elements)
    (indicesDenote : DenoteAll interpretation environment indices domain values) :
    (array.select indices).Denotes interpretation environment range (elements values) := by
  have wellSorted : (Term.selection array indices).WellSorted interpretation.vocabulary
      environment.scope := by
    simp only [WellSorted, indicesDenote.sorted, arrayDenotes.sorted]
    exact ⟨arrayDenotes.wellSorted, indicesDenote.wellSorted, rfl⟩
  have haveSorts := indicesDenote.haveSorts
  have selected : (Term.selection array indices).Denotes interpretation environment range
      (elements values) := by
    refine ⟨wellSorted, by rw [Term.sort, arrayDenotes.sorted]; rfl, ?_⟩
    exact Model.eval_selection_eq_ok.2 ⟨(arrayDenotes.hasSort haveSorts).1, values,
      indicesDenote.eval, arrayDenotes.select values haveSorts⟩
  exact selected.refine (refines_select array indices wellSorted)

end Term

end SymbolicHeap
