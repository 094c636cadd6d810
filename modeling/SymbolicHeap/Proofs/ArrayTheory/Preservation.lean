import SymbolicHeap.Proofs.ArrayTheory.Forms
import SymbolicHeap.Proofs.ArrayTheory.Placeholders

/-!
Contract: encoded terms mean the same, and stand for themselves.

A session answers from what it remembers of any earlier encodings. The answer is
still the encoding of the term, which has the values of the term. What is encoded
from the values of a memory needs neither the memory nor an environment: it reads
the base arrays in place of the contents before execution, and every parameter in
it belongs to a lambda around it.

Owns:
- the form of all terms, and the meaning of a term that is encoded in any session;
- the form of closed terms without placeholders;
- the regions made from values of a memory, whose encodings have this form.
-/

namespace SymbolicHeap

open Encoding

/-! ## Faithful sessions -/

private theorem Term.hereditary_true : Hereditary fun _ => True := by
  refine ⟨?_, by simp⟩
  constructor <;> simp

/-- Nothing is asked of a term. -/
def Form.any : Form where
  Context := Unit
  top := ()
  anything := ()
  raw := fun _ _ => True
  encoded := fun _ _ => True
  raw_anything := fun _ => trivial
  raw_storable := fun _ => ⟨Term.hereditary_true, fun _ => trivial⟩
  encoded_hereditary := fun _ => Term.hereditary_true
  encoded_of_raw := fun _ => trivial
  raw_widen := fun _ => trivial
  encoded_widen := fun _ => trivial
  baseArray := fun _ => trivial
  lambda := fun _ _ => ⟨(), fun _ _ => trivial, fun _ _ => trivial⟩

theorem Session.Reached.faithful {regions : List Region} {session : Session}
    (reached : session.Reached regions) : session.Faithful :=
  (reached.inForm .any fun _ _ _ _ => trivial).faithful

/-! ## The meaning of encoded terms -/

/-- In every session that earlier encodings can reach, a well-sorted term is
encoded to one of the same sort without placeholders. It has the values and the
elements of the term under every admissible model and all bindings that respect
the scope. A placeholder has the element of its base array; where the term has
placeholders, it might as well have had these selections, which give it the same
values and are encoded to the same result. -/
theorem Term.encode_preserves_meaning
    (vocabulary : Vocabulary)
    (scope : Scope)
    (term : Term)
    (wellSorted : term.WellSorted vocabulary scope)
    (regions : List Region)
    (session : Session)
    (reached : session.Reached regions) :
    ∃ result after, term.encode.run session = (result, after) ∧
      result.WellSorted vocabulary scope ∧ result.sort = term.sort ∧
        result.isInputFree = true ∧ (term.withSelections.encode.run session).1 = result ∧
        ∀ model : Model, model.Admissible vocabulary →
          ∀ bindings : Bindings, bindings.Respect scope →
            (∀ value, model.eval bindings term = .ok value →
              model.eval bindings result = .ok value) ∧
            (∀ indices value, Constant.HaveSorts indices term.sort.domain →
              model.evalSelection bindings term indices = .ok value →
                model.evalSelection bindings result indices = .ok value) ∧
            (∀ region key, model.eval bindings (.inputRead region key) =
              model.eval bindings (.selection region.baseArray key)) ∧
            model.eval bindings term.withSelections = model.eval bindings term ∧
            ∀ indices, model.evalSelection bindings term.withSelections indices =
              model.evalSelection bindings term indices := by
  obtain ⟨after, ran, _⟩ := returns_encode onValues_faithful term session reached.faithful
  obtain ⟨afterSelections, ranSelections, _⟩ :=
    returns_encode onValues_faithful term.withSelections session reached.faithful
  have refines := encoded_refines term wellSorted
  have resolved := encoded_resolved term (closed_of_wellSorted term wellSorted)
  refine ⟨term.encoded, after, ran, refines.wellSorted, refines.sort, resolved.1, ?_, ?_⟩
  · rw [ranSelections, encoded_withSelections]
  · intro model admissible bindings respect
    refine ⟨?_, ?_, ?_, ?_, ?_⟩
    · intro value evaluated
      exact refines.eval admissible respect evaluated
    · intro indices value haveSorts selected
      exact refines.select admissible respect haveSorts selected
    · intro region key
      exact model.eval_inputRead bindings region key
    · exact Model.eval_withSelections term bindings
    · intro indices
      exact Model.evalSelection_withSelections term bindings indices

/-- Adds its index to the length of an array of the input, except at one. -/
def lengthened : Term :=
  .update
    (.lambda [.bound "k" .i32]
      (.binary .add (.bound "k" .i32) (.inputRead (.arrayLength "Items") [.const (.input 3)])))
    [.const (.i32 1)] (.const (.i32 9))

/-- Encoded under a parameter, after its array was encoded by itself. The length
is selected from the base array of lengths. -/
theorem Term.encode_lengthened :
    ∃ result after, (Term.selection lengthened [.bound "k" .i32]).encode.run
        (lengthened.encode.run (.start Session.defaultUnrollLimit)).2 = (result, after) ∧
      result.isInputFree = true ∧
      ((Term.selection lengthened.withSelections [.bound "k" .i32]).encode.run
        (lengthened.encode.run (.start Session.defaultUnrollLimit)).2).1 = result ∧
      lengthened.withSelections =
        .update
          (.lambda [.bound "k" .i32]
            (.binary .add (.bound "k" .i32)
              (.selection (RegionId.arrayLength "Items").baseArray [.const (.input 3)])))
          [.const (.i32 1)] (.const (.i32 9)) ∧
      Model.empty.eval [("k", .i32 4)] result = .ok (.i32 4) := by
  let vocabulary : Vocabulary := ⟨fun _ _ => True, fun _ _ => True⟩
  have wellSorted : (Term.selection lengthened [.bound "k" .i32]).WellSorted vocabulary
      [("k", .i32)] := by
    simp [lengthened, Term.WellSorted, Term.AllWellSorted, Term.sort, Term.sorts, Constant.sort,
      bindScope, Term.isBound, BinaryOp.Accepts, BinaryOp.resultSort, RegionId.inputArraySort,
      RegionId.secondarySort, RegionId.valueSort, ValueSort.domain, ValueSort.range,
      ValueSort.isInteger, Vocabulary.Declares, vocabulary]
  have reached : Session.Reached [] (lengthened.encode.run
      (.start Session.defaultUnrollLimit)).2 := .encode (.start _) lengthened
  obtain ⟨result, after, ran, _, _, inputFree, sameResult, meaning⟩ :=
    Term.encode_preserves_meaning vocabulary [("k", .i32)] _ wellSorted [] _ reached
  have respect : Bindings.Respect [("k", .i32)] [("k", .i32 4)] :=
    Bindings.respect_empty.cons "k" (by decide)
  exact ⟨result, after, ran, inputFree, sameResult, rfl,
    (meaning Model.empty (Model.empty_admissible _) _ respect).1 _ rfl⟩

/-! ## The form of closed terms -/

private theorem bindScope_parameterTerms (parameters scope : Scope) :
    bindScope (RangedSource.parameterTerms parameters) scope = parameters.reverse ++ scope := by
  induction parameters generalizing scope with
  | nil => rfl
  | cons parameter parameters inductionHypothesis =>
      rw [List.reverse_cons, List.append_assoc, List.singleton_append, ← inductionHypothesis]
      rfl

private theorem lookup_of_mem {entries : Scope} (distinct : (entries.map Prod.fst).Nodup)
    {name : String}
    {sort : ValueSort} (member : (name, sort) ∈ entries) : entries.lookup name = some sort := by
  induction entries with
  | nil => cases member
  | cons entry rest inductionHypothesis =>
      rw [List.map_cons, List.nodup_cons] at distinct
      rw [List.lookup_cons]
      rcases List.mem_cons.1 member with rfl | later
      · simp
      · have different : name ≠ entry.1 := by
          rintro rfl
          exact distinct.1 (List.mem_map.2 ⟨_, later, rfl⟩)
        rw [beq_false_of_ne different]
        exact inductionHypothesis distinct.2 later

/-- Closed terms, by the scope that they are closed in. Encoding resolves their
placeholders. -/
def Form.closed : Form where
  Context := Option Scope
  top := some []
  anything := none
  raw := fun context term => ∀ scope ∈ context, term.isClosed scope = true
  encoded := fun context term => ∀ scope ∈ context, term.Resolved scope
  raw_anything := by simp
  raw_storable := by
    intro context
    cases context with
    | none => simpa using ⟨Term.hereditary_true, fun _ => trivial⟩
    | some scope => simpa using Term.closed_storable scope
  encoded_hereditary := by
    intro context
    cases context with
    | none => simpa using Term.hereditary_true
    | some scope => simpa using Term.resolved_hereditary scope
  encoded_of_raw := fun closed scope inContext => Term.encoded_resolved _ (closed scope inContext)
  raw_widen := fun closed scope _ => Term.isClosed_widen _ (closed [] rfl) scope
  encoded_widen := by
    intro context term resolved scope _
    obtain ⟨inputFree, closed⟩ := resolved [] rfl
    exact ⟨inputFree, Term.isClosed_widen term closed scope⟩
  baseArray := by
    intro region scope _
    rw [RegionId.baseArray, Term.Resolved, Term.isInputFree, Term.isClosed]
    exact ⟨rfl, rfl⟩
  lambda := by
    intro parameters distinct
    have areBound : (RangedSource.parameterTerms parameters).all Term.isBound = true := by
      rw [List.all_eq_true, RangedSource.parameterTerms, List.forall_mem_map]
      intro parameter _
      rfl
    refine ⟨some parameters.reverse, ?_, ?_⟩
    · rintro ⟨name, sort⟩ member _ ⟨⟩
      rw [Term.isClosed, decide_eq_true_eq]
      apply lookup_of_mem
      · rw [List.map_reverse, List.Nodup, List.pairwise_reverse]
        exact distinct.imp Ne.symm
      · exact List.mem_reverse.2 member
    · rintro body bodyResolved _ ⟨⟩
      obtain ⟨inputFree, closed⟩ := bodyResolved _ rfl
      have inside := bindScope_parameterTerms parameters []
      rw [List.append_nil] at inside
      refine ⟨?_, ?_⟩
      · rw [Term.isInputFree, Bool.and_eq_true]
        exact ⟨Term.areInputFree_of_areBound areBound, inputFree⟩
      · rw [Term.isClosed, Bool.and_eq_true]
        refine ⟨areBound, ?_⟩
        change body.isClosed (bindScope (RangedSource.parameterTerms parameters) []) = true
        rw [inside]
        exact closed

/-! ## Regions made from values of a memory -/

/-- The regions that updates and merges make from values of a memory. Any
identities may be handed out on the way. -/
inductive Region.Made : Region → Prop where
  | empty (id : RegionId) (owner : Owner) : Made (empty id owner)
  | withOwner {region : Region} (made : Made region) (owner : Owner) : Made { region with owner }
  | write {region : Region} {key : Key} {value guard : Term}
      (made : Made region)
      (areValues : ∀ term ∈ key.components ++ [value, guard], term.isMemoryLevel = true)
      (supply : Supply) : Made ((region.write key value guard).run supply).1
  | copyRange {region source result : Region} {range : CopyRange} {guard : Term}
      {supply after : Supply}
      (made : Made region)
      (sourceMade : Made source)
      (areValues : ∀ term ∈ range.terms ++ [guard], term.isMemoryLevel = true)
      (succeeds : (region.copyRange source range guard).run.run supply = (.ok result, after)) :
      Made result
  | overlay {region source members result : Region} {ends : OverlayEnds} {guard : Term}
      {supply after : Supply}
      (made : Made region)
      (sourceMade : Made source)
      (membersMade : Made members)
      (areValues : ∀ term ∈ ends.terms ++ [guard], term.isMemoryLevel = true)
      (succeeds : (region.overlay source members ends guard).run.run supply =
        (.ok result, after)) :
      Made result
  | merge {left right merged : Region} {guard : Term} {owner : Owner} {supply after : Supply}
      (leftMade : Made left)
      (rightMade : Made right)
      (isValue : guard.isMemoryLevel = true)
      (succeeds : (left.merge right guard owner).run.run supply = (.ok merged, after)) :
      Made merged

theorem Region.Made.closed {region : Region} (made : region.Made) :
    ∀ term ∈ region.terms, term.isClosed [] = true := by
  have hereditary := Term.closed_hereditary []
  have closed : ∀ term : Term, term.isMemoryLevel = true → term.isClosed [] = true :=
    fun term => Term.closed_of_isMemoryLevel term
  induction made with
  | empty id owner => simp [Region.empty, Region.terms, objectsTerms, logTerms]
  | withOwner made owner inductionHypothesis => exact withOwner_holds inductionHypothesis owner
  | write made areValues supply inductionHypothesis =>
      rw [List.forall_mem_append, List.forall_mem_cons, List.forall_mem_singleton] at areValues
      obtain ⟨areKey, isValue, isGuard⟩ := areValues
      exact write_holds hereditary inductionHypothesis
        (fun term member => closed term (areKey term member)) (closed _ isValue)
        (closed _ isGuard) supply
  | copyRange made sourceMade areValues succeeds inductionHypothesis sourceHypothesis =>
      rw [List.forall_mem_append, List.forall_mem_singleton] at areValues
      exact copyRange_holds hereditary inductionHypothesis sourceHypothesis
        (fun term member => closed term (areValues.1 term member)) (closed _ areValues.2) succeeds
  | overlay made sourceMade membersMade areValues succeeds inductionHypothesis sourceHypothesis
      membersHypothesis =>
      rw [List.forall_mem_append, List.forall_mem_singleton] at areValues
      exact overlay_holds hereditary inductionHypothesis sourceHypothesis membersHypothesis
        (fun term member => closed term (areValues.1 term member)) (closed _ areValues.2) succeeds
  | merge leftMade rightMade isValue succeeds leftHypothesis rightHypothesis =>
      exact merge_holds hereditary leftHypothesis rightHypothesis (closed _ isValue) succeeds

/-- In every session that encodings of some regions made from values of a memory
can reach, values of a memory, the arrays of the regions and their reads at such
values are encoded to closed terms without placeholders. -/
theorem encodings_resolve_placeholders
    (regions : List Region)
    (made : ∀ region ∈ regions, region.Made)
    (session : Session)
    (reached : session.Reached regions) :
    (∀ term : Term, term.isMemoryLevel = true → (term.encode.run session).1.Resolved []) ∧
      ∀ region ∈ regions,
        (∀ result, (region.encodeInput.run.run session).1 = .ok result → result.Resolved []) ∧
        (∀ address result, ((region.encodeAllocated address).run.run session).1 = .ok result →
          result.Resolved []) ∧
        ∀ key : Key, (∀ term ∈ key.components, term.isMemoryLevel = true) →
          ∀ result, ((region.encodeRead key).run.run session).1 = .ok result →
            result.Resolved [] := by
  have regionsRaw : ∀ region ∈ regions, ∀ term ∈ region.terms,
      Form.closed.raw Form.closed.top term := by
    rintro region member term held _ ⟨⟩
    exact (made region member).closed term held
  have inForm := reached.inForm .closed regionsRaw
  have valueRaw : ∀ term : Term, term.isMemoryLevel = true →
      Form.closed.raw Form.closed.top term := by
    rintro term isValue _ ⟨⟩
    exact Term.closed_of_isMemoryLevel term isValue
  refine ⟨?_, ?_⟩
  · intro term isValue
    obtain ⟨after, ran, _⟩ := returns_encode onValues_inForm term session inForm
    rw [ran]
    exact Term.encoded_resolved term (Term.closed_of_isMemoryLevel term isValue)
  · intro region member
    refine ⟨?_, ?_, ?_⟩
    · intro result isResult
      exact (Region.ensures_encodeInput (regionsRaw region member) session inForm).2 result
        isResult [] rfl
    · intro address result isResult
      exact (Region.ensures_encodeAllocated (regionsRaw region member) address session inForm).2
        result isResult [] rfl
    · intro key areValues result isResult
      exact (Region.ensures_encodeRead region (regionsRaw region member) Form.closed.top key
        (fun term held => valueRaw term (areValues term held)) session inForm).2 result isResult
        [] rfl

/-- The length of an array of the input is written to its first element, unless
`skip` holds. -/
def lengthWritten : Fresh Region :=
  (Region.empty (.arrayElement "Items" .i32) ⟨0⟩).write ⟨.const (.input 3), some (.const (.i32 0))⟩
    (.inputRead (.arrayLength "Items") [.const (.input 3)]) (.negation (.var "skip" .bool))

/-- The first elements of one array of the input, as many as `count` says, go to
another one. -/
def countedRange : CopyRange where
  sourceAddress := .const (.input 3)
  sourceFrom := .const (.i32 0)
  destinationAddress := .const (.input 5)
  destinationFrom := .const (.i32 0)
  destinationTo := .var "count" .i32

/-- The elements of the input, with the length selected from its own base array
and stored at the first one, unless `skip` holds. -/
def storedLength : Term :=
  .update (RegionId.arrayElement "Items" .i32).baseArray [.const (.input 3), .const (.i32 0)]
    (.conditional (.var "skip" .bool)
      (.selection (RegionId.arrayElement "Items" .i32).baseArray
        [.const (.input 3), .const (.i32 0)])
      (.selection (RegionId.arrayLength "Items").baseArray [.const (.input 3)]))

/-- The same elements after the copy, whose length is not known. -/
def copiedLength : Term :=
  .lambda [.bound "a!1" .reference, .bound "k!1" .i32]
    (.conditional
      (.binary .and
        (.binary .and (.binary .equals (.const (.input 5)) (.bound "a!1" .reference))
          (.binary .lessOrEqual (.const (.i32 0)) (.bound "k!1" .i32)))
        (.binary .lessThan (.bound "k!1" .i32) (.var "count" .i32)))
      (.selection storedLength [.const (.input 3), .bound "k!1" .i32])
      (.selection storedLength [.bound "a!1" .reference, .bound "k!1" .i32]))

/-- The number of copied elements is not known, so the read goes through a
lambda, with the placeholder of the length in a store below it. -/
theorem encodings_resolve_lengthCopied :
    ∃ written copied result, (lengthWritten.run Supply.initial).1 = written ∧
      ((written.copyRange written countedRange (.const (.bool true))).run.run
        Supply.initial).1 = .ok copied ∧
      ((copied.encodeRead ⟨.var "chosen" .reference, some (.var "index" .i32)⟩).run.run
        (copied.encodeInput.run.run (.start Session.defaultUnrollLimit)).2).1 = .ok result ∧
      result = .selection copiedLength [.var "chosen" .reference, .var "index" .i32] ∧
      result.Resolved [] := by
  have written : (lengthWritten.run Supply.initial).1.Made :=
    .write (.empty _ _) (by decide) Supply.initial
  have made : ∀ copied, (((lengthWritten.run Supply.initial).1.copyRange
      (lengthWritten.run Supply.initial).1 countedRange (.const (.bool true))).run.run
        Supply.initial).1 = .ok copied → copied.Made := by
    intro copied isCopied
    exact .copyRange written written (by decide) (Prod.ext isCopied rfl)
  refine ⟨_, _, _, rfl, rfl, rfl, by decide +kernel, ?_⟩
  have resolved := encodings_resolve_placeholders [_] (List.forall_mem_singleton.2 (made _ rfl)) _
    (.encodeInput (.start Session.defaultUnrollLimit) List.mem_cons_self)
  exact (resolved.2 _ List.mem_cons_self).2.2
    ⟨.var "chosen" .reference, some (.var "index" .i32)⟩ (by decide) _ rfl

end SymbolicHeap
