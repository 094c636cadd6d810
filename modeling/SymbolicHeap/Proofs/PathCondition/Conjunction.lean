import SymbolicHeap.Proofs.PathCondition.Equations
import SymbolicHeap.Proofs.PathCondition.Truth

/-!
Contract: a path condition says what was added to it, no more and no less.

While no contradiction is found, adding a literal adds it to what is recorded,
whatever valuation tells the truth of conditions. A contradiction consists of
recorded literals and the added one. Under a model it is never true as a whole,
so the single condition `false` loses nothing either.

Owns:
- what adding one literal can do, and the contradictions that it can find;
- exactness of a condition that is free of contradiction, for every valuation;
- exactness of every condition, and denial of every recorded contradiction, for
  models.
-/

namespace SymbolicHeap

namespace PathCondition

/-! ## Recorded literals -/

private theorem part_setPart (condition : PathCondition) (kind other : ConstraintKind)
    (literals : LiteralSet) :
    (condition.setPart kind literals).part other =
      if other = kind then literals else condition.part other := by
  cases kind <;> cases other <;> rfl

theorem part_empty (kind : ConstraintKind) : empty.part kind = .empty := by
  cases kind <;> rfl

theorem part_contradict (condition : PathCondition) (core : List Term) (kind : ConstraintKind) :
    (condition.contradict core).part kind = condition.part kind := by
  cases kind <;> rfl

theorem checkEqualities_part (condition : PathCondition) (kind : ConstraintKind) :
    condition.checkEqualities.part kind = condition.part kind := by
  rw [checkEqualities]
  split
  · exact part_contradict condition _ kind
  · rfl

private theorem core?_setPart (condition : PathCondition) (kind : ConstraintKind)
    (literals : LiteralSet) :
    (condition.setPart kind literals).core? = condition.core? := by
  cases kind <;> rfl

private theorem core?_insert (condition : PathCondition) (literal : Term) :
    (condition.insert literal).core? = condition.core? :=
  core?_setPart condition _ _

theorem isFalse_insert (condition : PathCondition) (literal : Term) :
    (condition.insert literal).isFalse = condition.isFalse := by
  rw [isFalse, core?_insert, isFalse]

theorem part_insert (condition : PathCondition) (literal : Term) (kind : ConstraintKind) :
    (condition.insert literal).part kind =
      if kind = literal.kind then (condition.part kind).insert literal
      else condition.part kind := by
  rw [insert, part_setPart]
  split
  · next sameKind => rw [sameKind]
  · rfl

theorem mem_part_insert {condition : PathCondition} {literal member : Term}
    {kind : ConstraintKind} :
    member ∈ (condition.insert literal).part kind ↔
      member ∈ condition.part kind ∨ kind = literal.kind ∧ member = literal := by
  rw [part_insert]
  split
  · next sameKind => rw [LiteralSet.mem_insert, and_iff_right sameKind]
  · next otherKind => simp [otherKind]

theorem mem_constraints {condition : PathCondition} (feasible : condition.isFalse = false)
    {literal : Term} :
    literal ∈ condition.constraints ↔ ∃ kind, literal ∈ condition.part kind := by
  rw [constraints, if_neg (by simp [feasible])]
  simp only [parts, List.mem_flatMap, List.mem_cons, List.not_mem_nil, or_false,
    LiteralSet.mem_ordered]
  constructor
  · rintro ⟨_, rfl | rfl | rfl | rfl, recorded⟩
    · exact ⟨.logical, recorded⟩
    · exact ⟨.numeric, recorded⟩
    · exact ⟨.equality, recorded⟩
    · exact ⟨.typing, recorded⟩
  · rintro ⟨kind, recorded⟩
    refine ⟨condition.part kind, ?_, recorded⟩
    cases kind <;> simp [part]

theorem mem_constraints_insert {condition : PathCondition} (feasible : condition.isFalse = false)
    {literal member : Term} :
    member ∈ (condition.insert literal).constraints ↔
      member ∈ condition.constraints ∨ member = literal := by
  rw [mem_constraints (by rw [isFalse_insert, feasible]), mem_constraints feasible]
  simp only [mem_part_insert, exists_or]
  simp

/-! ## Adding a literal -/

/-- A contradiction that a literal makes with what is recorded. -/
inductive Conflict (condition : PathCondition) (literal : Term) : List Term → Prop where
  | known (isFalse : literal = .ofBool false) : Conflict condition literal [literal]
  | negated (recorded : literal.not ∈ condition.part literal.kind) :
      Conflict condition literal [literal.not, literal]
  | equations {core : List Term}
      (found : Equation.contradiction? (condition.insert literal).equality.ordered = some core) :
      Conflict condition literal core

/-- A condition without contradiction takes a literal that is not known to
hold, or records the conflict with it. -/
theorem addLiteral_cases {condition : PathCondition} (feasible : condition.isFalse = false)
    (literal : Term) :
    literal = .ofBool true ∧ condition.addLiteral literal = condition ∨
      (∃ core, Conflict condition literal core ∧
        (condition.addLiteral literal).core? = some core) ∨
      condition.addLiteral literal = condition.insert literal := by
  rw [addLiteral, if_neg (by simp [feasible])]
  split
  · next known => exact .inl ⟨Term.eq_const_of_asBool? known, rfl⟩
  · next known => exact .inr (.inl ⟨_, .known (Term.eq_const_of_asBool? known), rfl⟩)
  · split
    · next recorded => exact .inr (.inl ⟨_, .negated recorded, rfl⟩)
    · simp only
      split
      · rw [checkEqualities]
        split
        · next core found => exact .inr (.inl ⟨core, .equations found, rfl⟩)
        · exact .inr (.inr rfl)
      · exact .inr (.inr rfl)

/-- A literal leaves the parts as they are, unless it is open, its negation is
not recorded and it is inserted. -/
theorem part_addLiteral_cases (condition : PathCondition) (literal : Term) :
    (∀ kind, (condition.addLiteral literal).part kind = condition.part kind) ∨
      literal.asBool? = none ∧ literal.not ∉ condition.part literal.kind ∧
        ∀ kind, (condition.addLiteral literal).part kind =
          (condition.insert literal).part kind := by
  rw [addLiteral]
  split
  · exact .inl fun _ => rfl
  · split
    · exact .inl fun _ => rfl
    · exact .inl (part_contradict condition _)
    · next isOpen =>
        split
        · exact .inl (part_contradict condition _)
        · next unopposed =>
            refine .inr ⟨isOpen, unopposed, ?_⟩
            dsimp only
            split
            · exact checkEqualities_part _
            · exact fun _ => rfl

theorem foldl_add_eq (condition : PathCondition) (constraints : List Term) :
    constraints.foldl add condition =
      (constraints.flatMap Term.literals).foldl addLiteral condition := by
  induction constraints generalizing condition with
  | nil => rfl
  | cons constraint rest inductionHypothesis =>
      rw [List.foldl_cons, List.flatMap_cons, List.foldl_append, inductionHypothesis, add_eq_foldl]

/-- What has found no contradiction had found none before. -/
theorem feasible_of_foldl {condition : PathCondition} {literals : List Term}
    (feasible : (literals.foldl addLiteral condition).isFalse = false) :
    condition.isFalse = false := by
  cases before : condition.isFalse with
  | false => rfl
  | true => rw [foldl_addLiteral_of_isFalse before, before] at feasible; exact feasible

end PathCondition

open PathCondition

/-! ## Exactness for valuations -/

namespace Valuation

variable (valuation : Valuation)

private theorem all_flatMap_literals {constraints : List Term} :
    valuation.All (constraints.flatMap Term.literals) ↔ valuation.All constraints := by
  induction constraints with
  | nil => rfl
  | cons constraint rest inductionHypothesis =>
      rw [List.flatMap_cons, all_append, all_literals, inductionHypothesis, all_cons]

theorem not_all_of_isFalse {condition : PathCondition} (isFalse : condition.isFalse = true) :
    ¬ valuation.All condition.constraints := by
  rw [constraints, if_pos isFalse, all_singleton, assigns_ofBool]
  exact Bool.false_ne_true

private theorem all_insert {condition : PathCondition} (feasible : condition.isFalse = false)
    {literal : Term} :
    valuation.All (condition.insert literal).constraints ↔
      valuation.All condition.constraints ∧ valuation.assigns literal true := by
  simp only [All, mem_constraints_insert feasible, or_imp, forall_and, forall_eq]

/-- As long as no contradiction is found, a literal adds what it says. -/
private theorem all_addLiteral {condition : PathCondition} {literal : Term}
    (feasible : (condition.addLiteral literal).isFalse = false) :
    valuation.All (condition.addLiteral literal).constraints ↔
      valuation.All condition.constraints ∧ valuation.assigns literal true := by
  have feasibleBefore := @feasible_of_foldl condition [literal] feasible
  rcases addLiteral_cases feasibleBefore literal with ⟨known, unchanged⟩ | ⟨core, _, recorded⟩ |
    inserted
  · rw [unchanged, known, assigns_ofBool]
    exact (and_iff_left rfl).symm
  · rw [PathCondition.isFalse, recorded] at feasible
    cases feasible
  · rw [inserted]
    exact valuation.all_insert feasibleBefore

private theorem all_foldl_addLiteral {condition : PathCondition} {literals : List Term}
    (feasible : (literals.foldl addLiteral condition).isFalse = false) :
    valuation.All (literals.foldl addLiteral condition).constraints ↔
      valuation.All condition.constraints ∧ valuation.All literals := by
  induction literals generalizing condition with
  | nil => simp [All]
  | cons literal rest inductionHypothesis =>
      rw [List.foldl_cons] at feasible ⊢
      rw [inductionHypothesis feasible, valuation.all_addLiteral (feasible_of_foldl feasible),
        all_cons, and_assoc]

theorem all_add {condition : PathCondition} {constraint : Term}
    (feasible : (condition.add constraint).isFalse = false) :
    valuation.All (condition.add constraint).constraints ↔
      valuation.All condition.constraints ∧ valuation.assigns constraint true := by
  rw [add_eq_foldl] at feasible ⊢
  rw [valuation.all_foldl_addLiteral feasible, all_literals]

/-- A condition that is free of contradiction is true exactly where all of
what was added is. -/
theorem all_foldl_add {condition : PathCondition} {constraints : List Term}
    (feasible : (constraints.foldl add condition).isFalse = false) :
    valuation.All (constraints.foldl add condition).constraints ↔
      valuation.All condition.constraints ∧ valuation.All constraints := by
  rw [foldl_add_eq] at feasible ⊢
  rw [valuation.all_foldl_addLiteral feasible, all_flatMap_literals]

/-! ## Contradictions -/

/-- No contradiction among equations of some kind is true as a whole. -/
def DeniesContradictions (among : Term → Prop) : Prop :=
  ∀ {literals core : List Term}, (∀ literal ∈ literals, among literal) →
    Equation.contradiction? literals = some core → ¬ valuation.All core

/-- A contradiction is made of what is recorded and the literal at hand. -/
private theorem all_of_conflict {condition : PathCondition} (feasible : condition.isFalse = false)
    {literal : Term} {core : List Term}
    (conflict : Conflict condition literal core)
    (recordedHold : valuation.All condition.constraints)
    (literalHolds : valuation.assigns literal true) : valuation.All core := by
  cases conflict with
  | known isFalse => exact valuation.all_singleton.2 literalHolds
  | negated recorded =>
      have negationHolds := recordedHold _ ((mem_constraints feasible).2 ⟨_, recorded⟩)
      rw [all_cons, all_singleton]
      exact ⟨negationHolds, literalHolds⟩
  | equations found =>
      have insertedHold := (valuation.all_insert feasible).2 ⟨recordedHold, literalHolds⟩
      intro member inCore
      apply insertedHold
      rw [mem_constraints (by rw [isFalse_insert, feasible])]
      exact ⟨.equality, LiteralSet.mem_ordered.1 (Equation.subset_of_contradiction? found inCore)⟩

section Denial

variable {among : Term → Prop} {condition : PathCondition}

private theorem among_insert (recorded : ∀ member ∈ condition.equality, among member)
    {literal : Term}
    (added : among literal) : ∀ member ∈ (condition.insert literal).equality, among member := by
  intro member inserted
  have cases : member ∈ (condition.insert literal).part .equality := inserted
  rcases mem_part_insert.1 cases with earlier | ⟨_, rfl⟩
  · exact recorded member earlier
  · exact added

/-- A literal that finds no contradiction is recorded, or known to hold. -/
private theorem among_addLiteral (recorded : ∀ member ∈ condition.equality, among member)
    {literal : Term} (added : among literal)
    (feasible : (condition.addLiteral literal).isFalse = false) :
    ∀ member ∈ (condition.addLiteral literal).equality, among member := by
  have feasibleBefore := @feasible_of_foldl condition [literal] feasible
  rcases addLiteral_cases feasibleBefore literal with ⟨_, unchanged⟩ | ⟨core, _, found⟩ | inserted
  · rw [unchanged]
    exact recorded
  · rw [PathCondition.isFalse, found] at feasible
    cases feasible
  · rw [inserted]
    exact among_insert recorded added

variable (denies : valuation.DeniesContradictions among)

include denies

private theorem not_all_of_conflict (recorded : ∀ member ∈ condition.equality, among member)
    {literal : Term} {core : List Term}
    (added : among literal)
    (conflict : Conflict condition literal core) : ¬ valuation.All core := by
  cases conflict with
  | known isFalse =>
      rw [isFalse, all_singleton, assigns_ofBool]
      exact Bool.false_ne_true
  | negated recorded =>
      rw [all_cons, all_singleton, assigns_not]
      exact fun ⟨literalFails, literalHolds⟩ => valuation.unique literalHolds literalFails
  | equations found =>
      refine denies (fun member inserted => ?_) found
      exact among_insert recorded added member (LiteralSet.mem_ordered.1 inserted)

/-- A step that finds a contradiction records one that is not true as a whole,
and that follows from what is recorded and the literal. -/
private theorem denied_of_addLiteral (feasible : condition.isFalse = false)
    (recorded : ∀ member ∈ condition.equality, among member)
    {literal : Term} {core : List Term}
    (added : among literal)
    (contradicts : (condition.addLiteral literal).core? = some core) :
    ¬ valuation.All core ∧
      ¬ (valuation.All condition.constraints ∧ valuation.assigns literal true) := by
  have without : condition.core? = none := by
    simpa [PathCondition.isFalse] using feasible
  rcases addLiteral_cases feasible literal with ⟨_, unchanged⟩ | ⟨found, conflict, isFound⟩ |
    inserted
  · rw [unchanged, without] at contradicts
    cases contradicts
  · rw [isFound, Option.some.injEq] at contradicts
    subst contradicts
    have coreDenied := valuation.not_all_of_conflict denies recorded added conflict
    refine ⟨coreDenied, ?_⟩
    rintro ⟨recordedHold, literalHolds⟩
    exact coreDenied (valuation.all_of_conflict feasible conflict recordedHold literalHolds)
  · rw [inserted, core?_insert, without] at contradicts
    cases contradicts

private theorem denied_of_foldl_addLiteral (feasible : condition.isFalse = false)
    (recorded : ∀ member ∈ condition.equality, among member)
    {literals core : List Term}
    (added : ∀ literal ∈ literals, among literal)
    (contradicts : (literals.foldl addLiteral condition).core? = some core) :
    ¬ valuation.All core ∧
      ¬ (valuation.All condition.constraints ∧ valuation.All literals) := by
  induction literals generalizing condition with
  | nil =>
      rw [List.foldl_nil] at contradicts
      rw [PathCondition.isFalse, contradicts] at feasible
      cases feasible
  | cons literal rest inductionHypothesis =>
      rw [List.forall_mem_cons] at added
      rw [List.foldl_cons] at contradicts
      rw [all_cons, ← and_assoc]
      -- The first contradiction stays; before it, the recorded literals say the same.
      cases found : (condition.addLiteral literal).isFalse with
      | true =>
          rw [foldl_addLiteral_of_isFalse found] at contradicts
          obtain ⟨coreDenied, stepDenied⟩ :=
            valuation.denied_of_addLiteral denies feasible recorded added.1 contradicts
          exact ⟨coreDenied, fun all => stepDenied all.1⟩
      | false =>
          rw [← valuation.all_addLiteral found]
          exact inductionHypothesis found (among_addLiteral recorded added.1 found) added.2
            contradicts

/-- A constraint adds what it says, contradicting or not. -/
theorem all_add_of_denies
    (recorded : condition.isFalse = false → ∀ member ∈ condition.equality, among member)
    {constraint : Term} (added : ∀ literal ∈ constraint.literals, among literal) :
    valuation.All (condition.add constraint).constraints ↔
      valuation.All condition.constraints ∧ valuation.assigns constraint true := by
  cases found : (condition.add constraint).isFalse with
  | false => exact valuation.all_add found
  | true =>
      refine iff_of_false (valuation.not_all_of_isFalse found) ?_
      cases before : condition.isFalse with
      | true => exact fun all => valuation.not_all_of_isFalse before all.1
      | false =>
          rw [add_eq_foldl] at found
          obtain ⟨core, contradicts⟩ := Option.isSome_iff_exists.1 found
          rw [← all_literals]
          exact (valuation.denied_of_foldl_addLiteral denies before (recorded before) added
            contradicts).2

end Denial

end Valuation

/-! ## Models -/

theorem Model.deniesContradictions (model : Model) :
    model.valuation.DeniesContradictions fun _ => True := by
  intro literals core _ found allTrue
  apply Equation.not_hold_of_contradiction? model.reading found
  intro literal inCore
  exact Model.reading_holds (allTrue literal inCore)

theorem Model.all_satisfied_iff {model : Model} {conditions : List Term} :
    (∀ condition ∈ conditions, model.Satisfies condition) ↔ model.valuation.All conditions := by
  simp only [Model.satisfies_iff, Valuation.All]

namespace PathCondition

/-- What is built by additions is true exactly where all of what was added is
true, contradicting or not. -/
theorem all_built {valuation : Valuation}
    (denies : valuation.DeniesContradictions fun _ => True)
    (constraints : List Term) :
    valuation.All (constraints.foldl add empty).constraints ↔ valuation.All constraints := by
  have folded : ∀ (constraints : List Term) (condition : PathCondition),
      valuation.All (constraints.foldl add condition).constraints ↔
        valuation.All condition.constraints ∧ valuation.All constraints := by
    intro constraints
    induction constraints with
    | nil => simp [Valuation.All]
    | cons constraint rest inductionHypothesis =>
        intro condition
        rw [List.foldl_cons, inductionHypothesis,
          valuation.all_add_of_denies denies (fun _ _ _ => trivial) (fun _ _ => trivial),
          Valuation.all_cons, and_assoc]
  have startHolds : valuation.All empty.constraints := by
    simp [Valuation.All]
  rw [folded, and_iff_right startHolds]

/-- A path condition is the conjunction of what was added to it. Where it finds
a contradiction no model satisfies all of that, nor the contradiction that it
records. -/
theorem built_is_conjunction (constraints : List Term) :
    (∀ model : Model,
      (∀ literal ∈ (constraints.foldl add empty).constraints, model.Satisfies literal) ↔
        ∀ constraint ∈ constraints, model.Satisfies constraint) ∧
    ((constraints.foldl add empty).isFalse = true →
      ∀ model : Model, ¬ ∀ constraint ∈ constraints, model.Satisfies constraint) ∧
    ∀ core, (constraints.foldl add empty).core? = some core →
      ∀ model : Model, ¬ ∀ literal ∈ core, model.Satisfies literal := by
  simp only [Model.all_satisfied_iff]
  have exact (model : Model) := all_built model.deniesContradictions constraints
  refine ⟨exact, ?_, ?_⟩
  · intro found model
    rw [← exact model]
    exact model.valuation.not_all_of_isFalse found
  · intro core recorded model
    rw [foldl_add_eq] at recorded
    exact (model.valuation.denied_of_foldl_addLiteral model.deniesContradictions rfl
      (fun _ _ => trivial) (fun _ _ => trivial) recorded).1

/-- Two names of one object, one of them known as an allocation and the other
one as another allocation. -/
def sharedAllocation : List Term :=
  [.binary .equals (.var "left" .reference) (.const (.heap 1)),
    .binary .and (.binary .equals (.var "left" .reference) (.var "right" .reference))
      (.binary .equals (.var "right" .reference) (.const (.heap 2)))]

theorem sharedAllocation_unsatisfied :
    (sharedAllocation.foldl add empty).isFalse = true ∧
      (sharedAllocation.foldl add empty).core? = some (sharedAllocation.flatMap Term.literals) ∧
      ∀ model : Model, (¬ ∀ constraint ∈ sharedAllocation, model.Satisfies constraint) ∧
        ¬ ∀ literal ∈ sharedAllocation.flatMap Term.literals, model.Satisfies literal := by
  have found : (sharedAllocation.foldl add empty).core? =
      some (sharedAllocation.flatMap Term.literals) := by decide +kernel
  have isFalse : (sharedAllocation.foldl add empty).isFalse = true := by decide +kernel
  obtain ⟨_, infeasible, coreDenied⟩ := built_is_conjunction sharedAllocation
  exact ⟨isFalse, found, fun model => ⟨infeasible isFalse model, coreDenied _ found model⟩⟩

end PathCondition

end SymbolicHeap
