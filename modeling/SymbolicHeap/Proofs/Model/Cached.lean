import SymbolicHeap.Model.Cached
import SymbolicHeap.Proofs.Sorts.Soundness

/-!
Contract: the cache does not show in the results of evaluation.

A cache entry was made outside every lambda. It may be used inside one, since
a value that needs no bindings is the value under any.

Owns:
- caches whose entries are right, and actions that keep them so;
- evaluation with a cache gives exactly the value without one;
- the caches that evaluations leave to later ones, and what they hold.
-/

namespace SymbolicHeap

namespace Model

variable {model : Model} {bindings : Bindings}

/-! ## Proper values -/

/-- A term never has the value that stands for the lack of one. -/
theorem eval_ne_bottom :
    (term : Term) → {value : Constant} → model.eval bindings term = .ok value → value ≠ .bottom
  | .const _, _, evaluated => (eval_const_eq_ok.1 evaluated).2
  | .var _ _, _, evaluated => (eval_var_eq_ok.1 evaluated).2.1
  | .bound _ _, _, evaluated => (eval_bound_eq_ok.1 evaluated).2
  | .binary operator left right, value, evaluated => by
      cases strict : operator.onConstants? with
      | some operation =>
          obtain ⟨_, _, _, _, _, proper⟩ := (eval_strict_eq_ok strict).1 evaluated
          exact proper
      | none =>
          obtain ⟨truth, _, rest⟩ := (eval_connective_eq_ok strict).1 evaluated
          split at rest
          · simp [rest]
          · exact eval_ne_bottom right rest
  | .negation _, _, evaluated => by
      obtain ⟨_, _, rfl⟩ := eval_negation_eq_ok.1 evaluated
      simp
  | .conditional _ consequent alternate, _, evaluated => by
      obtain ⟨truth, _, rest⟩ := eval_conditional_eq_ok.1 evaluated
      cases truth with
      | true => exact eval_ne_bottom consequent rest
      | false => exact eval_ne_bottom alternate rest
  | .subtype _ _, _, evaluated => by
      obtain ⟨_, _, rfl⟩ := eval_subtype_eq_ok.1 evaluated
      simp
  | .inputRead _ _, _, evaluated => (eval_inputRead_eq_ok.1 evaluated).1
  | .selection _ _, _, evaluated => (eval_selection_eq_ok.1 evaluated).1
  | .arrayConst _ _, _, evaluated | .constArray _ _, _, evaluated
  | .update _ _ _, _, evaluated | .lambda _ _, _, evaluated => by
      simp [eval] at evaluated

private theorem eval_bind_proper (term : Term) :
    (model.eval bindings term >>= proper) = model.eval bindings term := by
  cases evaluated : model.eval bindings term with
  | error _ => rfl
  | ok value => exact proper_eq_ok.2 ⟨rfl, eval_ne_bottom term evaluated⟩

/-! ## Sound caches -/

/-- Every cached value is the value of its term. -/
def SoundCache (model : Model) (cache : EvalCache) : Prop :=
  ∀ term value, term.lookup cache = some value → model.eval [] term = .ok value

private theorem soundCache_nil : SoundCache model [] := by
  intro term value cached
  simp [Term.lookup] at cached

theorem SoundCache.cons {cache : EvalCache} (sound : SoundCache model cache) {term : Term}
    {value : Constant} (evaluated : model.eval [] term = .ok value) :
    SoundCache model ((term, value) :: cache) := by
  intro other found cached
  rw [Term.lookup_eq_list_lookup, List.lookup_cons] at cached
  by_cases same : other = term
  · simp only [same, beq_self_eq_true, Option.some.injEq] at cached
    rw [same, ← cached]
    exact evaluated
  · simp only [beq_false_of_ne same] at cached
    rw [← Term.lookup_eq_list_lookup] at cached
    exact sound other found cached

/-- Started with a sound cache, the action has the given result and leaves the
cache sound. -/
def Agrees {α : Type} (model : Model) (action : CachedEval α) (result : Except Unevaluated α) :
    Prop :=
  ∀ cache, SoundCache model cache →
    (action.run.run cache).1 = result ∧ SoundCache model (action.run.run cache).2

section Agreement

variable {α β : Type}

private theorem agrees_pure (value : α) : Agrees model (pure value) (.ok value) :=
  fun _ sound => ⟨rfl, sound⟩

private theorem agrees_throw (cause : Unevaluated) :
    Agrees model (throw cause : CachedEval α) (.error cause) :=
  fun _ sound => ⟨rfl, sound⟩

private theorem agrees_lift (result : Except Unevaluated α) :
    Agrees model (liftM result : CachedEval α) result :=
  fun _ sound => ⟨rfl, sound⟩

theorem run_bind (first : CachedEval α) (next : α → CachedEval β) (cache : EvalCache) :
    (first >>= next).run.run cache =
      match first.run.run cache with
      | (.ok value, after) => (next value).run.run after
      | (.error cause, after) => (.error cause, after) := by
  simp only [ExceptT.run_bind, StateT.run_bind]
  rcases first.run.run cache with ⟨answer, after⟩
  cases answer <;> rfl

private theorem agrees_bind {first : CachedEval α} {next : α → CachedEval β}
    {firstResult : Except Unevaluated α} {nextResult : α → Except Unevaluated β}
    (firstAgrees : Agrees model first firstResult)
    (nextAgrees : ∀ value, Agrees model (next value) (nextResult value)) :
    Agrees model (first >>= next) (firstResult >>= nextResult) := by
  intro cache sound
  obtain ⟨firstSame, firstSound⟩ := firstAgrees cache sound
  rw [run_bind]
  rw [← firstSame]
  revert firstSound
  rcases first.run.run cache with ⟨answer, after⟩
  intro firstSound
  cases answer with
  | error cause => exact ⟨rfl, firstSound⟩
  | ok value => exact nextAgrees value after firstSound

end Agreement

private theorem run_remembered (bindings : Bindings) (term : Term) (compute : CachedEval Constant)
    (cache : EvalCache) :
    (remembered bindings term compute).run.run cache =
      match term.lookup cache with
      | some value => (.ok value, cache)
      | none =>
          match (compute >>= fun value => liftM (proper value)).run.run cache with
          | (.ok value, after) =>
              (.ok value, if bindings.isEmpty then (term, value) :: after else after)
          | (.error cause, after) => (.error cause, after) := by
  have entries : (get : CachedEval EvalCache).run.run cache = (.ok cache, cache) := rfl
  rw [remembered, run_bind, entries]
  cases cached : term.lookup cache with
  | some value =>
      simp only [cached]
      rfl
  | none =>
      simp only [cached]
      rw [← bind_assoc, run_bind]
      rcases (compute >>= fun value => liftM (proper value)).run.run cache with ⟨answer, after⟩
      cases answer with
      | error cause => rfl
      | ok value => cases bindings <;> rfl

private theorem agrees_remembered {term : Term} {compute : CachedEval Constant}
    {raw : Except Unevaluated Constant}
    (computed : Agrees model compute raw)
    (meaning : (raw >>= proper) = model.eval bindings term) :
    Agrees model (remembered bindings term compute) (model.eval bindings term) := by
  intro cache sound
  rw [run_remembered]
  cases cached : term.lookup cache with
  | some value =>
      have evaluated := eval_append term (sound term value cached) bindings
      rw [List.nil_append] at evaluated
      exact ⟨evaluated.symm, sound⟩
  | none =>
      have checked : Agrees model (compute >>= fun value => liftM (proper value))
          (model.eval bindings term) :=
        meaning ▸ agrees_bind computed fun value => agrees_lift (proper value)
      obtain ⟨same, kept⟩ := checked cache sound
      revert same kept
      rcases (compute >>= fun value => liftM (proper value)).run.run cache with ⟨answer, after⟩
      intro same kept
      cases answer with
      | error cause => exact ⟨same, kept⟩
      | ok value =>
          cases bindings with
          | nil => exact ⟨same, kept.cons same.symm⟩
          | cons _ _ => exact ⟨same, kept⟩

/-! ## Evaluation with a cache -/

mutual

private theorem agrees_cachedEval : (term : Term) → (bindings : Bindings) →
    Agrees model (model.cachedEval bindings term) (model.eval bindings term)
  | .const value, bindings => by
      rw [cachedEval]
      exact agrees_remembered (agrees_pure value) (by simp only [eval]; rfl)
  | .var name sort, bindings => by
      rw [cachedEval]
      cases isArray : sort.isArray with
      | true =>
          exact agrees_remembered (agrees_throw .undefined) (by simp only [eval, isArray]; rfl)
      | false =>
          cases assigned : model.assignment.find? name with
          | some value =>
              exact agrees_remembered (agrees_pure value)
                (by simp only [eval, isArray, assigned]; rfl)
          | none =>
              exact agrees_remembered (agrees_lift _)
                (by simp only [eval, isArray, assigned]; rfl)
  | .bound name sort, bindings => by
      rw [cachedEval]
      cases found : bindings.lookup name with
      | some value =>
          exact agrees_remembered (agrees_pure value) (by simp only [eval, found]; rfl)
      | none =>
          exact agrees_remembered (agrees_throw .undefined) (by simp only [eval, found]; rfl)
  | .binary operator left right, bindings => by
      rw [cachedEval]
      cases strict : operator.onConstants? with
      | some operation =>
          refine agrees_remembered (agrees_bind (agrees_cachedEval left bindings) fun leftValue =>
            agrees_bind (agrees_cachedEval right bindings) fun rightValue =>
              agrees_pure (operation leftValue rightValue)) ?_
          simp only [eval, strict, bind_assoc]
          rfl
      | none =>
          refine agrees_remembered ?_ (eval_bind_proper _)
          rw [eval, strict]
          refine agrees_bind (agrees_cachedEval left bindings) fun leftValue =>
            agrees_bind (agrees_lift _) fun truth => ?_
          split
          · exact agrees_pure _
          · exact agrees_cachedEval right bindings
  | .negation operand, bindings => by
      rw [cachedEval]
      refine agrees_remembered (agrees_bind (agrees_cachedEval operand bindings)
        fun value => agrees_pure value.not) ?_
      simp only [eval, bind_assoc]
      rfl
  | .conditional condition consequent alternate, bindings => by
      rw [cachedEval]
      refine agrees_remembered ?_ (eval_bind_proper _)
      rw [eval]
      refine agrees_bind (agrees_cachedEval condition bindings) fun value =>
        agrees_bind (agrees_lift _) fun truth => ?_
      cases truth with
      | true => exact agrees_cachedEval consequent bindings
      | false => exact agrees_cachedEval alternate bindings
  | .subtype operand typeName, bindings => by
      rw [cachedEval]
      refine agrees_remembered (agrees_bind (agrees_cachedEval operand bindings)
        fun address => agrees_pure (Constant.bool (model.subtypes.contains (address, typeName)))) ?_
      simp only [eval, bind_assoc]
      rfl
  | .inputRead region key, bindings => by
      rw [cachedEval]
      refine agrees_remembered (agrees_bind (agrees_cachedEvalAll key bindings)
        fun indices => agrees_lift _) ?_
      simp only [eval, bind_assoc]
  | .selection array indices, bindings => by
      rw [cachedEval]
      refine agrees_remembered (agrees_bind (agrees_cachedEvalAll indices bindings)
        fun values => agrees_cachedSelection array bindings values) ?_
      simp only [eval, bind_assoc]
  | .arrayConst _ _, _ | .constArray _ _, _ | .update _ _ _, _ | .lambda _ _, _ => by
      rw [cachedEval]
      exact agrees_remembered (agrees_throw .undefined) (by simp only [eval]; rfl)

private theorem agrees_cachedEvalAll : (terms : List Term) → (bindings : Bindings) →
    Agrees model (model.cachedEvalAll bindings terms) (model.evalAll bindings terms)
  | [], _ => by
      rw [cachedEvalAll, evalAll]
      exact agrees_pure []
  | head :: tail, bindings => by
      rw [cachedEvalAll, evalAll]
      exact agrees_bind (agrees_cachedEval head bindings) fun value =>
        agrees_bind (agrees_cachedEvalAll tail bindings) fun values => agrees_pure (value :: values)

private theorem agrees_cachedSelection :
    (array : Term) → (bindings : Bindings) → (indices : List Constant) →
      Agrees model (model.cachedSelection bindings array indices)
        (model.evalSelection bindings array indices)
  | .arrayConst name sort, _, indices => by
      rw [cachedSelection, evalSelection]
      exact agrees_lift _
  | .var name sort, _, indices => by
      rw [cachedSelection, evalSelection]
      split
      · exact agrees_lift _
      · exact agrees_throw .undefined
  | .constArray value _, bindings, _ => by
      rw [cachedSelection, evalSelection]
      exact agrees_cachedEval value bindings
  | .update array stored value, bindings, indices => by
      rw [cachedSelection, evalSelection]
      refine agrees_bind (agrees_cachedEvalAll stored bindings) fun places => ?_
      split
      · exact agrees_cachedEval value bindings
      · exact agrees_cachedSelection array bindings indices
  | .lambda parameters body, bindings, indices => by
      rw [cachedSelection, evalSelection]
      exact agrees_cachedEval body _
  | .conditional condition consequent alternate, bindings, indices => by
      rw [cachedSelection, evalSelection]
      refine agrees_bind (agrees_cachedEval condition bindings) fun value =>
        agrees_bind (agrees_lift _) fun truth => ?_
      cases truth with
      | true => exact agrees_cachedSelection consequent bindings indices
      | false => exact agrees_cachedSelection alternate bindings indices
  | .const _, _, _ | .bound _ _, _, _ | .binary _ _ _, _, _ | .negation _, _, _
  | .subtype _ _, _, _ | .inputRead _ _, _, _ | .selection _ _, _, _ => by
      simp only [cachedSelection, evalSelection]
      exact agrees_throw .undefined

end

/-- The value that an evaluation with an empty cache finds under some bindings. -/
def outcome (model : Model) (bindings : Bindings) (term : Term) : Except Unevaluated Constant :=
  ((model.cachedEval bindings term).run.run []).1

theorem outcome_eq_eval (model : Model) (bindings : Bindings) (term : Term) :
    model.outcome bindings term = model.eval bindings term :=
  (agrees_cachedEval term bindings [] soundCache_nil).1

theorem evaluate_eq (model : Model) (term : Term) :
    model.evaluate term =
      match model.eval [] term with
      | .ok value => .ok (some value)
      | .error .undefined => .ok none
      | .error (.fault cause) => .error cause := by
  rw [evaluate, pooled_eq, ← outcome_eq_eval]
  rfl

theorem evaluate_eq_some {term : Term} {value : Constant} :
    model.evaluate term = .ok (some value) ↔ model.eval [] term = .ok value := by
  rw [evaluate_eq]
  cases model.eval [] term with
  | ok other => simp
  | error cause => cases cause <;> simp

theorem evaluate_of_eval {term : Term} {value : Constant}
    (evaluated : model.eval [] term = .ok value) : model.evaluate term = .ok (some value) :=
  evaluate_eq_some.2 evaluated

/-! ## Evaluations that share a cache -/

/-- The cache that evaluations leave, each under bindings of its own, the last
one first. -/
def cacheAfter (model : Model) : List (Bindings × Term) → EvalCache
  | [] => []
  | (bindings, term) :: earlier =>
      ((model.cachedEval bindings term).run.run (cacheAfter model earlier)).2

private theorem soundCache_cacheAfter (model : Model) (requests : List (Bindings × Term)) :
    SoundCache model (model.cacheAfter requests) := by
  induction requests with
  | nil => exact soundCache_nil
  | cons request earlier inductionHypothesis =>
      exact (agrees_cachedEval request.2 request.1 _ inductionHypothesis).2

private theorem cachedEval_eq_remembered (model : Model) (bindings : Bindings) (term : Term) :
    ∃ compute, model.cachedEval bindings term = remembered bindings term compute := by
  cases term <;> exact ⟨_, by rw [cachedEval]⟩

/-- Outside every lambda, what is answered is in the cache from then on. -/
private theorem lookup_remembered {term : Term} {compute : CachedEval Constant} {cache : EvalCache}
    {value : Constant}
    (answered : ((remembered [] term compute).run.run cache).1 = .ok value) :
    term.lookup ((remembered [] term compute).run.run cache).2 = some value := by
  rw [run_remembered] at answered ⊢
  cases cached : term.lookup cache with
  | some found =>
      simp only [cached] at answered ⊢
      cases answered
      rfl
  | none =>
      simp only [cached] at answered ⊢
      revert answered
      rcases (compute >>= fun value => liftM (proper value)).run.run cache with ⟨answer, after⟩
      intro answered
      cases answer with
      | error cause => cases answered
      | ok found =>
          cases answered
          simp only [List.isEmpty_nil, if_true]
          rw [Term.lookup_eq_list_lookup, List.lookup_cons_self]

private theorem lookup_cacheAfter {model : Model} {earlier : List (Bindings × Term)} {term : Term}
    {value : Constant} :
    term.lookup (model.cacheAfter (([], term) :: earlier)) = some value ↔
      model.eval [] term = .ok value := by
  refine ⟨soundCache_cacheAfter model _ term value, fun evaluated => ?_⟩
  have answered := (agrees_cachedEval term [] _ (soundCache_cacheAfter model earlier)).1
  rw [evaluated] at answered
  obtain ⟨compute, isRemembered⟩ := cachedEval_eq_remembered model [] term
  rw [cacheAfter]
  rw [isRemembered] at answered ⊢
  exact lookup_remembered answered

/-- Whatever was evaluated before, and under whatever bindings, the cache does
not show in an answer. It holds the values that terms have without bindings,
and further bindings outside change no value. -/
theorem cache_transparent (model : Model) (earlier : List (Bindings × Term))
    (bindings : Bindings) (term : Term) :
    ((model.cachedEval bindings term).run.run (model.cacheAfter earlier)).1 =
        model.eval bindings term ∧
      (∀ value, term.lookup (model.cacheAfter (([], term) :: earlier)) = some value ↔
        model.eval [] term = .ok value) ∧
      ∀ value, model.eval bindings term = .ok value →
        ∀ outer, model.eval (bindings ++ outer) term = .ok value := by
  refine ⟨?_, fun _ => lookup_cacheAfter, fun _ evaluated => eval_append term evaluated⟩
  exact (agrees_cachedEval term bindings _ (soundCache_cacheAfter model earlier)).1

/-- A choice that reads the parameter in one branch only, which an unset flag
leaves out. -/
def unreadParameter : Term :=
  .conditional (.var "flag" .bool) (.bound "k" .i32) (.const (.i32 1))

/-- A selection whose lambda hides the parameter of the lambda around it. -/
def shadowedSelection : Term :=
  .selection
    (.lambda [.bound "k" .i32]
      (.binary .add unreadParameter
        (.selection
          (.lambda [.bound "k" .i32] (.binary .add unreadParameter (.bound "k" .i32)))
          [.binary .add (.bound "k" .i32) (.const (.i32 2))])))
    [.const (.i32 5)]

theorem cache_transparent_shadowedSelection :
    unreadParameter.lookup (Model.empty.cacheAfter [([], unreadParameter)]) = some (.i32 1) ∧
      ((Model.empty.cachedEval [] shadowedSelection).run.run
        (Model.empty.cacheAfter [([], unreadParameter)])).1 = .ok (.i32 9) ∧
      Model.empty.eval [("k", .i32 7), ("k", .i32 5)] unreadParameter = .ok (.i32 1) := by
  obtain ⟨_, kept, further⟩ := cache_transparent Model.empty [] [("k", .i32 7)] unreadParameter
  have same := (cache_transparent Model.empty [([], unreadParameter)] [] shadowedSelection).1
  exact ⟨(kept _).2 rfl, same.trans rfl, further _ rfl [("k", .i32 5)]⟩

end Model

end SymbolicHeap
