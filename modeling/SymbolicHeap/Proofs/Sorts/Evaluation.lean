import SymbolicHeap.Proofs.Sorts.WellSorted

/-!
Contract: what it means that a term has a value.

Owns:
- for every shape of term, when it has a value and which one.
-/

namespace SymbolicHeap

namespace Model

variable {model : Model} {bindings : Bindings}

attribute [local simp] eval evalAll evalSelection

/-! ## Terms with a value -/

theorem bind_eq_ok {ε α β : Type} {first : Except ε α} {next : α → Except ε β} {result : β} :
    (first >>= next) = .ok result ↔ ∃ value, first = .ok value ∧ next value = .ok result := by
  cases first with
  | error cause => simp [bind, Except.bind]
  | ok value => simp [bind, Except.bind]

theorem pure_eq_ok {ε α : Type} {value result : α} :
    (pure value : Except ε α) = .ok result ↔ value = result := by
  simp [pure, Except.pure]

theorem orFault_eq_ok {α : Type} {outcome : Except Fault α} {value : α} :
    orFault outcome = .ok value ↔ outcome = .ok value := by
  cases outcome <;> simp [orFault]

private theorem truthValue_eq_ok {value : Constant} {truth : Bool} :
    truthValue value = .ok truth ↔ value = .bool truth := by
  cases value <;> simp [truthValue, Constant.asBool?]

theorem proper_eq_ok {value result : Constant} :
    proper value = .ok result ↔ value = result ∧ result ≠ .bottom := by
  cases value <;> cases result <;> simp [proper, Constant.isBottom]

theorem eval_const_eq_ok {value result : Constant} :
    model.eval bindings (.const value) = .ok result ↔ value = result ∧ result ≠ .bottom := by
  rw [eval, proper_eq_ok]

theorem eval_var_eq_ok {name : String} {sort : ValueSort} {result : Constant} :
    model.eval bindings (.var name sort) = .ok result ↔
      sort.isArray = false ∧ result ≠ .bottom ∧
        (model.assignment.find? name = some result ∨
          model.assignment.find? name = none ∧ Constant.default sort = .ok result) := by
  rw [eval]
  cases isArray : sort.isArray with
  | true => simp
  | false =>
      cases assigned : model.assignment.find? name with
      | none =>
          simp only [Bool.false_eq_true, ↓reduceIte, bind_eq_ok, orFault_eq_ok, proper_eq_ok,
            true_and, reduceCtorEq, false_or]
          constructor
          · rintro ⟨value, initial, rfl, proper⟩
            exact ⟨proper, initial⟩
          · rintro ⟨proper, initial⟩
            exact ⟨result, initial, rfl, proper⟩
      | some value =>
          simp only [Bool.false_eq_true, ↓reduceIte, proper_eq_ok, true_and, reduceCtorEq,
            false_and, or_false, Option.some.injEq]
          exact and_comm

theorem eval_bound_eq_ok {name : String} {sort : ValueSort} {result : Constant} :
    model.eval bindings (.bound name sort) = .ok result ↔
      bindings.lookup name = some result ∧ result ≠ .bottom := by
  rw [eval]
  cases bindings.lookup name <;> simp [proper_eq_ok]

theorem eval_strict_eq_ok
    {operator : BinaryOp}
    {operation : Constant → Constant → Constant}
    (strict : operator.onConstants? = some operation)
    {left right : Term}
    {result : Constant} :
    model.eval bindings (.binary operator left right) = .ok result ↔
      ∃ leftValue rightValue,
        model.eval bindings left = .ok leftValue ∧ model.eval bindings right = .ok rightValue ∧
          operation leftValue rightValue = result ∧ result ≠ .bottom := by
  rw [eval, strict]
  simp only [bind_eq_ok, proper_eq_ok, exists_and_left]

theorem eval_connective_eq_ok
    {operator : BinaryOp}
    (connective : operator.onConstants? = none)
    {left right : Term}
    {result : Constant} :
    model.eval bindings (.binary operator left right) = .ok result ↔
      ∃ truth, model.eval bindings left = .ok (.bool truth) ∧
        if truth = operator.absorbing then result = .bool truth
        else model.eval bindings right = .ok result := by
  rw [eval, connective]
  simp only [bind_eq_ok, truthValue_eq_ok]
  constructor
  · rintro ⟨_, leftHolds, truth, rfl, rest⟩
    refine ⟨truth, leftHolds, ?_⟩
    split at rest
    · next absorbed =>
        rw [if_pos absorbed, absorbed]
        exact (pure_eq_ok.1 rest).symm
    · next undecided =>
        rw [if_neg undecided]
        exact rest
  · rintro ⟨truth, leftHolds, rest⟩
    refine ⟨.bool truth, leftHolds, truth, rfl, ?_⟩
    split at rest
    · next absorbed =>
        rw [if_pos absorbed, rest, absorbed]
        rfl
    · next undecided =>
        rw [if_neg undecided]
        exact rest

theorem eval_and_eq_ok {left right : Term} {result : Constant} :
    model.eval bindings (.binary .and left right) = .ok result ↔
      ∃ truth, model.eval bindings left = .ok (.bool truth) ∧
        if truth then model.eval bindings right = .ok result else result = .bool false := by
  rw [eval_connective_eq_ok rfl]
  refine exists_congr fun truth => and_congr_right fun _ => ?_
  cases truth <;> simp [BinaryOp.absorbing]

theorem eval_or_eq_ok {left right : Term} {result : Constant} :
    model.eval bindings (.binary .or left right) = .ok result ↔
      ∃ truth, model.eval bindings left = .ok (.bool truth) ∧
        if truth then result = .bool true else model.eval bindings right = .ok result := by
  rw [eval_connective_eq_ok rfl]
  refine exists_congr fun truth => and_congr_right fun _ => ?_
  cases truth <;> simp [BinaryOp.absorbing]

theorem eval_negation_eq_ok {operand : Term} {result : Constant} :
    model.eval bindings (.negation operand) = .ok result ↔
      ∃ truth, model.eval bindings operand = .ok (.bool truth) ∧ result = .bool !truth := by
  rw [eval]
  simp only [bind_eq_ok, proper_eq_ok]
  constructor
  · rintro ⟨value, operandHolds, rfl, proper⟩
    cases value <;> simp [Constant.not] at proper
    next truth => exact ⟨truth, operandHolds, rfl⟩
  · rintro ⟨truth, operandHolds, rfl⟩
    exact ⟨.bool truth, operandHolds, rfl, by simp⟩

theorem eval_conditional_eq_ok {condition consequent alternate : Term} {result : Constant} :
    model.eval bindings (.conditional condition consequent alternate) = .ok result ↔
      ∃ truth, model.eval bindings condition = .ok (.bool truth) ∧
        model.eval bindings (if truth then consequent else alternate) = .ok result := by
  rw [eval]
  simp only [bind_eq_ok, truthValue_eq_ok]
  constructor
  · rintro ⟨_, conditionHolds, truth, rfl, rest⟩
    refine ⟨truth, conditionHolds, ?_⟩
    cases truth <;> simpa using rest
  · rintro ⟨truth, conditionHolds, rest⟩
    refine ⟨.bool truth, conditionHolds, truth, rfl, ?_⟩
    cases truth <;> simpa using rest

theorem eval_subtype_eq_ok {operand : Term} {typeName : String} {result : Constant} :
    model.eval bindings (.subtype operand typeName) = .ok result ↔
      ∃ address, model.eval bindings operand = .ok address ∧
        result = .bool (model.subtypes.contains (address, typeName)) := by
  rw [eval]
  simp only [bind_eq_ok, pure_eq_ok]
  refine exists_congr fun address => and_congr_right fun _ => ?_
  exact eq_comm

theorem eval_inputRead_eq_ok {region : RegionId} {key : List Term} {result : Constant} :
    model.eval bindings (.inputRead region key) = .ok result ↔
      result ≠ .bottom ∧ ∃ indices, model.evalAll bindings key = .ok indices ∧
        model.lookupArray region.baseArrayName indices region.valueSort = .ok result := by
  rw [eval]
  simp only [bind_eq_ok, orFault_eq_ok, proper_eq_ok]
  constructor
  · rintro ⟨indices, evaluated, _, found, rfl, proper⟩
    exact ⟨proper, indices, evaluated, found⟩
  · rintro ⟨proper, indices, evaluated, found⟩
    exact ⟨indices, evaluated, result, found, rfl, proper⟩

theorem eval_selection_eq_ok {array : Term} {indices : List Term} {result : Constant} :
    model.eval bindings (.selection array indices) = .ok result ↔
      result ≠ .bottom ∧ ∃ values, model.evalAll bindings indices = .ok values ∧
        model.evalSelection bindings array values = .ok result := by
  rw [eval]
  simp only [bind_eq_ok, proper_eq_ok]
  constructor
  · rintro ⟨values, evaluated, _, selected, rfl, proper⟩
    exact ⟨proper, values, evaluated, selected⟩
  · rintro ⟨proper, values, evaluated, selected⟩
    exact ⟨values, evaluated, result, selected, rfl, proper⟩

theorem evalAll_cons_eq_ok {head : Term} {tail : List Term} {results : List Constant} :
    model.evalAll bindings (head :: tail) = .ok results ↔
      ∃ value values, model.eval bindings head = .ok value ∧
        model.evalAll bindings tail = .ok values ∧ results = value :: values := by
  rw [evalAll]
  simp only [bind_eq_ok, pure_eq_ok, exists_and_left]
  refine exists_congr fun value => and_congr_right fun _ =>
    exists_congr fun values => and_congr_right fun _ => ?_
  exact eq_comm

theorem evalSelection_update_eq_ok
    {array value : Term}
    {stored : List Term}
    {indices : List Constant}
    {result : Constant} :
    model.evalSelection bindings (.update array stored value) indices = .ok result ↔
      ∃ places, model.evalAll bindings stored = .ok places ∧
        if places = indices then model.eval bindings value = .ok result
        else model.evalSelection bindings array indices = .ok result := by
  rw [evalSelection]
  simp only [bind_eq_ok]
  refine exists_congr fun places => and_congr_right fun _ => ?_
  split <;> rfl

theorem evalSelection_conditional_eq_ok
    {condition consequent alternate : Term}
    {indices : List Constant}
    {result : Constant} :
    model.evalSelection bindings (.conditional condition consequent alternate) indices =
        .ok result ↔
      ∃ truth, model.eval bindings condition = .ok (.bool truth) ∧
        model.evalSelection bindings (if truth then consequent else alternate) indices =
          .ok result := by
  rw [evalSelection]
  simp only [bind_eq_ok, truthValue_eq_ok]
  constructor
  · rintro ⟨_, conditionHolds, truth, rfl, rest⟩
    refine ⟨truth, conditionHolds, ?_⟩
    cases truth <;> simpa using rest
  · rintro ⟨truth, conditionHolds, rest⟩
    refine ⟨.bool truth, conditionHolds, truth, rfl, ?_⟩
    cases truth <;> simpa using rest

end Model

end SymbolicHeap
