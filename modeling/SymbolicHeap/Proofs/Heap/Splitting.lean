import SymbolicHeap.Proofs.Heap.Reference

/-!
Contract: splitting a reference partitions its guard, and joining undoes it.

Under a model that respects sorts, the conditions of the leaves are true at one
place only. A choice between values for the leaves passes over the values
before that place and stops there; the last value is not tested, and need not
be, since it is only reached where all conditions before it are false.

Owns:
- the value of a choice with one true condition, for values of any kind;
- the partition of a guard by the leaves of a split reference.
-/

namespace SymbolicHeap

/-! ## Joining -/

private theorem joinLeaves_cons (fallback : Term) (choice : Term × Term) {rest : List (Term × Term)}
    (more : rest ≠ []) :
    joinLeaves fallback (choice :: rest) = choice.1.ite choice.2 (joinLeaves fallback rest) := by
  cases rest with
  | nil => exact absurd rfl more
  | cons next others => rfl

/-- A choice comes to the first value whose condition is true. Conditions after
it and the fallback do not matter. -/
private theorem eval_joinLeaves {model : Model} {bindings : Bindings} {fallback : Term}
    {before after : List (Term × Term)} {chosen : Term × Term}
    (passed : ∀ choice ∈ before, model.eval bindings choice.1 = .ok (.bool false))
    (holds : model.eval bindings chosen.1 = .ok (.bool true)) :
    model.eval bindings (joinLeaves fallback (before ++ chosen :: after)) =
      model.eval bindings chosen.2 := by
  induction before with
  | nil =>
      cases after with
      | nil => rfl
      | cons next others =>
          rw [List.nil_append, joinLeaves_cons fallback chosen (List.cons_ne_nil _ _),
            Term.eval_ite holds]
          rfl
  | cons choice rest inductionHypothesis =>
      rw [List.forall_mem_cons] at passed
      rw [List.cons_append, joinLeaves_cons fallback choice (by simp), Term.eval_ite passed.1]
      exact inductionHypothesis passed.2

/-! ## Splitting -/

/-- The condition of one leaf is true, and those of all others are false. -/
structure Leaf.IsPicked (model : Model) (before : List Leaf) (leaf : Leaf) (after : List Leaf) :
    Prop where
  before : ∀ other ∈ before, model.eval [] other.guard = .ok (.bool false)
  holds : model.eval [] leaf.guard = .ok (.bool true)
  after : ∀ other ∈ after, model.eval [] other.guard = .ok (.bool false)

section Picked

variable {vocabulary : Vocabulary} {model : Model} {reference guard : Term}

private theorem splitReference_of_false (sorted : model.Sorted vocabulary)
    (isReference : reference.IsReference vocabulary)
    (guardFails : model.eval [] guard = .ok (.bool false)) :
    ∀ leaf ∈ splitReference reference guard, model.eval [] leaf.guard = .ok (.bool false) := by
  obtain ⟨decided, picks⟩ := splitReference_decides sorted isReference guardFails
  intro leaf member
  have fails : ¬ model.holds leaf.guard = true :=
    List.filter_eq_nil_iff.1 (List.map_eq_nil_iff.1 picks) leaf member
  rw [decided leaf member, Bool.eq_false_iff.2 fails]

private theorem splitReference_of_true (sorted : model.Sorted vocabulary)
    (isReference : reference.IsReference vocabulary)
    (guardHolds : model.eval [] guard = .ok (.bool true)) :
    ∃ before leaf after, splitReference reference guard = before ++ leaf :: after ∧
      leaf.IsPicked model before after ∧ leaf.address = reference.addressUnder model := by
  obtain ⟨decided, picks⟩ := splitReference_decides sorted isReference guardHolds
  obtain ⟨leaf, single, isAddress⟩ := List.map_eq_singleton_iff.1 picks
  obtain ⟨before, after, isSplit, passed, holds, none⟩ := List.filter_eq_cons_iff.1 single
  rw [isSplit, List.forall_mem_append, List.forall_mem_cons] at decided
  obtain ⟨beforeDecided, leafDecided, afterDecided⟩ := decided
  refine ⟨before, leaf, after, isSplit, ⟨?_, ?_, ?_⟩, isAddress⟩
  · intro other member
    rw [beforeDecided other member, Bool.eq_false_iff.2 (passed other member)]
  · rw [leafDecided, holds]
  · intro other member
    rw [afterDecided other member,
      Bool.eq_false_iff.2 (List.filter_eq_nil_iff.1 none other member)]

end Picked

namespace Leaf.IsPicked

variable {model : Model} {before after : List Leaf} {leaf : Leaf}

/-- Conditions tell the place of the picked leaf. -/
private theorem eval_guard (picked : leaf.IsPicked model before after)
    (position : Fin (before ++ leaf :: after).length) :
    model.eval [] (before ++ leaf :: after)[position].guard =
      .ok (.bool (position.val = before.length)) := by
  rcases Nat.lt_trichotomy position.val before.length with early | here | late
  · have member : (before ++ leaf :: after)[position] ∈ before := by
      rw [Fin.getElem_fin, List.getElem_append_left early]
      exact List.getElem_mem _
    rw [picked.before _ member, decide_eq_false (Nat.ne_of_lt early)]
  · have isLeaf : (before ++ leaf :: after)[position] = leaf := by
      rw [Fin.getElem_fin, List.getElem_append_right (Nat.le_of_eq here.symm)]
      simp [here]
    rw [isLeaf, picked.holds, decide_eq_true here]
  · have member : (before ++ leaf :: after)[position] ∈ after := by
      obtain ⟨skip, isSkip⟩ := Nat.exists_eq_add_of_lt late
      rw [Fin.getElem_fin, List.getElem_append_right (Nat.le_of_lt late)]
      simp [isSkip, Nat.add_assoc]
    rw [picked.after _ member, decide_eq_false (Nat.ne_of_gt late)]

/-- A choice between values for the leaves has the value for the picked leaf. -/
private theorem eval_join (picked : leaf.IsPicked model before after)
    {early late : List Term} (paired : before.length = early.length) (value fallback : Term) :
    model.eval [] (joinLeaves fallback
        (((before ++ leaf :: after).map Leaf.guard).zip (early ++ value :: late))) =
      model.eval [] value := by
  rw [List.map_append, List.map_cons, List.zip_append (by rw [List.length_map, paired]),
    List.zip_cons_cons]
  refine eval_joinLeaves ?_ picked.holds
  intro choice member
  obtain ⟨other, inBefore, isGuard⟩ := List.mem_map.1 (List.of_mem_zip member).1
  rw [← isGuard]
  exact picked.before other inBefore

/-- The place of the picked leaf in the list of all leaves. -/
private theorem exists_chosen (picked : leaf.IsPicked model before after) {leaves : List Leaf}
    (isSplit : leaves = before ++ leaf :: after) :
    ∃ chosen : Fin leaves.length, leaves[chosen] = leaf ∧
      (∀ position : Fin leaves.length,
        model.eval [] leaves[position].guard = .ok (.bool (position = chosen))) ∧
      ∀ (values : List Term) (paired : values.length = leaves.length) (fallback : Term),
        model.eval [] (joinLeaves fallback ((leaves.map Leaf.guard).zip values)) =
          model.eval [] (values.get (chosen.cast paired.symm)) := by
  subst isSplit
  refine ⟨⟨before.length, by simp⟩, by simp, ?_, ?_⟩
  · intro position
    simp only [picked.eval_guard position, Fin.ext_iff]
  · intro values paired fallback
    have inside : before.length < values.length := by simp [paired]
    have early : before.length = (values.take before.length).length := by
      rw [List.length_take, Nat.min_eq_left (Nat.le_of_lt inside)]
    have atPlace : values = values.take before.length ++
        values[before.length] :: values.drop (before.length + 1) := by
      rw [← List.drop_eq_getElem_cons inside, List.take_append_drop]
    calc model.eval [] (joinLeaves fallback
          (((before ++ leaf :: after).map Leaf.guard).zip values))
        = model.eval [] (joinLeaves fallback
            (((before ++ leaf :: after).map Leaf.guard).zip (values.take before.length ++
              values[before.length] :: values.drop (before.length + 1)))) := by rw [← atPlace]
      _ = model.eval [] values[before.length] := picked.eval_join early _ fallback

end Leaf.IsPicked

/-- Terms that mean the same evaluate to the same. -/
private theorem Model.evaluate_congr {model : Model} {term other : Term}
    (same : model.eval [] term = model.eval [] other) :
    model.evaluate term = model.evaluate other := by
  rw [evaluate_eq, evaluate_eq, same]

/-- Splitting a reference partitions its guard, and joining inverts it. The guard
is true or false. Where it is false, the conditions of all leaves are; where it
is true, the condition of exactly one leaf is, and the address of this leaf is
what the reference is. Values paired with the leaves are then joined to a term
that evaluates like the value for this leaf, with or without a result. -/
theorem splitReference_partitions_guard
    (vocabulary : Vocabulary)
    (model : Model)
    (sorted : model.Sorted vocabulary)
    (reference guard : Term)
    (isReference : reference.IsReference vocabulary)
    (isCondition : guard.IsValue vocabulary .bool) :
    (∃ truth, model.evaluate guard = .ok (some (.bool truth))) ∧
      (model.evaluate guard = .ok (some (.bool false)) →
        ∀ leaf ∈ splitReference reference guard,
          model.evaluate leaf.guard = .ok (some (.bool false))) ∧
      (model.evaluate guard = .ok (some (.bool true)) →
        ∃ (chosen : Fin (splitReference reference guard).length) (address : Constant),
          (∀ position : Fin (splitReference reference guard).length,
            model.evaluate (splitReference reference guard)[position].guard =
              .ok (some (.bool (position = chosen)))) ∧
            model.evaluate (splitReference reference guard)[chosen].address.toTerm =
              .ok (some address) ∧
            model.evaluate reference = .ok (some address) ∧
            ∀ (values : List Term)
              (paired : values.length = (splitReference reference guard).length)
              (fallback : Term),
              model.evaluate (joinLeaves fallback
                  (((splitReference reference guard).map Leaf.guard).zip values)) =
                model.evaluate (values.get (chosen.cast paired.symm))) := by
  refine ⟨⟨_, Model.evaluate_of_eval (isCondition.eval_truth sorted)⟩, ?_, ?_⟩
  · intro guardFails leaf member
    exact Model.evaluate_of_eval (splitReference_of_false sorted isReference
      (Model.evaluate_eq_some.1 guardFails) leaf member)
  · intro guardHolds
    obtain ⟨before, leaf, after, isSplit, picked, isAddress⟩ :=
      splitReference_of_true sorted isReference (Model.evaluate_eq_some.1 guardHolds)
    have referenceValue := isReference.eval sorted
    have addressValue : model.eval [] leaf.address.toTerm = .ok (model.valueOf reference) := by
      rw [isAddress, isReference.eval_addressUnder sorted, referenceValue]
    obtain ⟨chosen, isLeaf, decides, joins⟩ := picked.exists_chosen isSplit
    refine ⟨chosen, model.valueOf reference, ?_, ?_, Model.evaluate_of_eval referenceValue, ?_⟩
    · exact fun position => Model.evaluate_of_eval (decides position)
    · rw [isLeaf]
      exact Model.evaluate_of_eval addressValue
    · exact fun values paired fallback => Model.evaluate_congr (joins values paired fallback)

/-- Two conditions and two references. -/
def choiceVocabulary : Vocabulary where
  scalar := fun name sort =>
    sort = if name = "a" ∨ name = "b" then .bool else .reference
  array := fun _ _ => False

/-- A choice that asks one of its conditions twice. -/
def repeatedChoice : Term :=
  .conditional (.var "a" .bool)
    (.conditional (.var "a" .bool) (.const (.heap 1)) (.var "p" .reference))
    (.conditional (.var "b" .bool) (.var "q" .reference) .null)

/-- The second reference is meant, and is an object of the run. -/
def choiceModel : Model := (Model.empty.assign "b" (.bool true)).assign "q" (.heap 7)

private theorem choiceModel_sorted : choiceModel.Sorted choiceVocabulary := by
  have empty := (Model.empty_admissible choiceVocabulary).sorted
  refine (empty.assign ?_).assign ?_
  · rintro sort rfl
    decide
  · rintro sort rfl
    decide

theorem splitReference_repeatedChoice :
    (splitReference repeatedChoice (.ofBool true)).length = 3 ∧
      ∃ chosen : Fin (splitReference repeatedChoice (.ofBool true)).length,
        choiceModel.evaluate
            (splitReference repeatedChoice (.ofBool true))[chosen].address.toTerm =
          .ok (some (.heap 7)) ∧
        choiceModel.evaluate (joinLeaves .null
            (((splitReference repeatedChoice (.ofBool true)).map Leaf.guard).zip
              [.var "p" .reference, .const (.input 2), .const .bottom])) =
          choiceModel.evaluate
            ([.var "p" .reference, .const (.input 2), .const .bottom].get chosen) := by
  have isReference : repeatedChoice.IsReference choiceVocabulary := by
    refine ⟨?_, rfl, rfl⟩
    simp [repeatedChoice, Term.WellSorted, choiceVocabulary, ValueSort.isArray, Term.sort,
      Term.null, Constant.sort]
  have isCondition : (Term.ofBool true).IsValue choiceVocabulary .bool :=
    Term.isValue_const (by decide)
  obtain ⟨_, _, holds⟩ := splitReference_partitions_guard choiceVocabulary choiceModel
    choiceModel_sorted repeatedChoice (.ofBool true) isReference isCondition
  obtain ⟨chosen, address, _, isAddress, isValue, joins⟩ := holds rfl
  have isObject : address = .heap 7 := by
    cases isValue.symm.trans (show choiceModel.evaluate repeatedChoice = _ from rfl)
    rfl
  exact ⟨rfl, chosen, isObject ▸ isAddress, joins _ rfl .null⟩

end SymbolicHeap
