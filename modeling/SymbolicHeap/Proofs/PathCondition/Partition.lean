import SymbolicHeap.Proofs.PathCondition.Atoms
import SymbolicHeap.Proofs.PathCondition.Conditions
import SymbolicHeap.Proofs.Simplify.Negations
import SymbolicHeap.Proofs.Simplify.Symmetry

/-!
Contract: the parts of a path condition can be searched one at a time.

A literal and its negation are of one kind, so whoever looks for the negation of
a literal finds it in the literal's own part or nowhere. This needs terms
without idle negation signs, which the simplifying constructors build and which
remain when conditions are split, and when a merge joins what its sides
recorded.

Owns:
- literals, and the kind of a literal and of its negation;
- a literal beside its negation is noticed, whatever is added in between;
- what additions and merges of built terms record.
-/

namespace SymbolicHeap

namespace Term

/-! ## Literals -/

/-- Conditions that are split before they are recorded. -/
def isCompound : Term → Bool
  | .binary .and _ _ => true
  | .negation (.binary .or _ _) => true
  | _ => false

def isConnective : Term → Bool
  | .binary .and _ _ => true
  | .binary .or _ _ => true
  | _ => false

private theorem isCompound_of_atom {literal : Term} (plain : literal.atom.isConnective = false) :
    literal.isCompound = false := by
  unfold isCompound
  split
  · simp [atom, isConnective] at plain
  · simp [atom, isConnective] at plain
  · rfl

private theorem literals_of_not_compound {condition : Term}
    (simple : condition.isCompound = false) :
    condition.literals = [condition] := by
  unfold literals
  split
  · simp [isCompound] at simple
  · simp [isCompound] at simple
  · rfl

private theorem literals_and_negatedLiterals_not_compound :
    (∀ condition : Term, ∀ literal ∈ condition.literals, literal.isCompound = false) ∧
    (∀ condition : Term, ∀ literal ∈ condition.negatedLiterals, literal.isCompound = false) := by
  apply Term.literals.mutual_induct
  · intro left right leftSplit rightSplit
    rw [Term.literals, List.forall_mem_append]
    exact ⟨leftSplit, rightSplit⟩
  · intro left right leftSplit rightSplit
    rw [Term.literals, List.forall_mem_append]
    exact ⟨leftSplit, rightSplit⟩
  · intro condition notAnd notNegatedOr
    rw [Term.literals, List.forall_mem_singleton, isCompound] <;> assumption
  · intro operand split
    rw [Term.negatedLiterals]
    exact split
  · intro left right leftSplit rightSplit
    rw [Term.negatedLiterals, List.forall_mem_append]
    exact ⟨leftSplit, rightSplit⟩
  · intro condition notNegation notOr
    rw [Term.negatedLiterals, List.forall_mem_singleton]
    · rcases not_cases condition with ⟨_, _, result⟩ | ⟨inner, isNegation, _⟩ | result
      · rw [result]
        rfl
      · exact absurd isNegation (notNegation inner)
      · rw [result]
        cases condition with
        | binary operator left right =>
            cases operator with
            | or => exact absurd rfl (notOr left right)
            | _ => rfl
        | _ => rfl
    · assumption
    · assumption

private theorem Inherited.closedUnderConnectives {property : Term → Prop}
    (inherited : Inherited property) :
    ClosedUnderConnectives property where
  ofBool := inherited.ofBool
  not := inherited.not
  and := inherited.and
  or := inherited.or
  operand := inherited.operand
  operands _ := inherited.binary.1

private theorem atom_of_unsigned {literal : Term} (unsigned : literal.isNegation = false) :
    literal.atom = literal := by
  cases literal with
  | negation => simp [isNegation] at unsigned
  | _ => rfl

private theorem Reduced.asBool?_not {literal : Term} (reduced : literal.Reduced)
    (isOpen : literal.asBool? = none) : literal.not.asBool? = none := by
  rcases reduced.not_cases with ⟨truth, rfl, _⟩ | ⟨_, _, result⟩ | ⟨inner, _, result, unknown, _, _⟩
  · cases isOpen
  · rw [result]
    rfl
  · rw [result, unknown]

private theorem Reduced.atom_not {literal : Term} (reduced : literal.Reduced)
    (isOpen : literal.asBool? = none) : literal.not.atom = literal.atom := by
  rcases reduced.not_cases with ⟨truth, rfl, _⟩ | ⟨_, unsigned, result⟩ |
    ⟨inner, rfl, result, _, unsigned, _⟩
  · cases isOpen
  · rw [result, atom_of_unsigned unsigned, atom]
  · rw [result, atom_of_unsigned unsigned, atom]

/-- A literal and its negation belong to one part. -/
private theorem Reduced.kind_not {literal : Term} (reduced : literal.Reduced) :
    literal.not.kind = literal.kind := by
  cases known : literal.asBool? with
  | none => rw [kind, kind, reduced.atom_not known]
  | some truth =>
      rw [eq_const_of_asBool? known]
      rfl

private theorem Reduced.not_not_compound {literal : Term} (reduced : literal.Reduced)
    (plain : literal.atom.isConnective = false) : literal.not.isCompound = false := by
  cases known : literal.asBool? with
  | none =>
      rw [← reduced.atom_not known] at plain
      exact isCompound_of_atom plain
  | some truth =>
      rw [eq_const_of_asBool? known]
      rfl

end Term

namespace PathCondition

/-! ## A literal beside its negation -/

private theorem mem_part_addLiteral {condition : PathCondition} {kind : ConstraintKind}
    {member : Term}
    (recorded : member ∈ condition.part kind) (literal : Term) :
    member ∈ (condition.addLiteral literal).part kind := by
  rcases part_addLiteral_cases condition literal with unchanged | ⟨_, _, inserted⟩
  · rw [unchanged]
    exact recorded
  · rw [inserted]
    exact mem_part_insert.2 (.inl recorded)

private theorem isFalse_addLiteral_false (condition : PathCondition) :
    (condition.addLiteral (.ofBool false)).isFalse = true := by
  rw [addLiteral]
  split
  · assumption
  · rfl

/-- A literal that is added is known to hold, or contradicts what is recorded, or
is open and recorded. -/
private theorem addLiteral_records (condition : PathCondition) (literal : Term) :
    literal = .ofBool true ∨ (condition.addLiteral literal).isFalse = true ∨
      literal.asBool? = none ∧
        literal ∈ (condition.addLiteral literal).part literal.kind := by
  cases found : condition.isFalse with
  | true =>
      rw [addLiteral_of_isFalse found]
      exact .inr (.inl found)
  | false =>
      cases known : literal.asBool? with
      | some truth =>
          rw [Term.eq_const_of_asBool? known]
          cases truth with
          | true => exact .inl rfl
          | false => exact .inr (.inl (isFalse_addLiteral_false condition))
      | none =>
          rcases addLiteral_cases found literal with ⟨isTrue, _⟩ | ⟨core, _, conflict⟩ | inserted
          · exact .inl isTrue
          · exact .inr (.inl (by rw [isFalse, conflict]; rfl))
          · rw [inserted]
            exact .inr (.inr ⟨rfl, mem_part_insert.2 (.inr ⟨rfl, rfl⟩)⟩)

/-- What conflicts with a literal and is never given up makes every run that adds
the literal contradict itself. -/
private theorem isFalse_foldl_of_conflict (conflict : PathCondition → Prop) {literal : Term}
    (persists : ∀ condition other, conflict condition → conflict (condition.addLiteral other))
    (conflicts : ∀ condition, conflict condition → (condition.addLiteral literal).isFalse = true)
    {literals : List Term} (member : literal ∈ literals)
    {condition : PathCondition} (start : conflict condition) :
    (literals.foldl addLiteral condition).isFalse = true := by
  induction literals generalizing condition with
  | nil => cases member
  | cons other rest inductionHypothesis =>
      rw [List.foldl_cons]
      rcases List.mem_cons.1 member with rfl | later
      · rw [foldl_addLiteral_of_isFalse (conflicts condition start)]
        exact conflicts condition start
      · exact inductionHypothesis later (persists condition other start)

private theorem isFalse_addLiteral_of_not_mem {condition : PathCondition} {literal : Term}
    (isOpen : literal.asBool? = none)
    (opposed : literal.not ∈ condition.part literal.kind) :
    (condition.addLiteral literal).isFalse = true := by
  rw [addLiteral]
  split
  · assumption
  · rw [isOpen]
    rfl

private theorem isFalse_foldl_of_not_mem {literal : Term} (reduced : literal.Reduced)
    (condition : PathCondition) {literals : List Term} (member : literal.not ∈ literals) :
    (literals.foldl addLiteral (condition.addLiteral literal)).isFalse = true := by
  rcases addLiteral_records condition literal with rfl | isFalse | ⟨isOpen, recorded⟩
  · exact isFalse_foldl_of_conflict (fun _ => True) (fun _ _ => id)
      (fun condition _ => isFalse_addLiteral_false condition) member trivial
  · rw [foldl_addLiteral_of_isFalse isFalse, isFalse]
  · refine isFalse_foldl_of_conflict
      (fun condition => literal ∈ condition.part literal.kind) ?_ ?_ member recorded
    · exact fun _ other recorded => mem_part_addLiteral recorded other
    · intro condition recorded
      apply isFalse_addLiteral_of_not_mem (reduced.asBool?_not isOpen)
      rw [reduced.not_not, reduced.kind_not]
      exact recorded

/-- A literal and its negation are never recorded together, in whatever order
they come and whatever comes in between. -/
private theorem isFalse_foldl_of_complement {literal : Term} (reduced : literal.Reduced)
    {literals : List Term} (member : literal ∈ literals) (opposed : literal.not ∈ literals)
    (condition : PathCondition) : (literals.foldl addLiteral condition).isFalse = true := by
  induction literals generalizing condition with
  | nil => cases member
  | cons other rest inductionHypothesis =>
      rw [List.foldl_cons]
      rcases List.mem_cons.1 member with rfl | memberLater
      · have opposedLater := (List.mem_cons.1 opposed).resolve_left (Term.not_ne_self literal)
        exact isFalse_foldl_of_not_mem reduced condition opposedLater
      · rcases List.mem_cons.1 opposed with rfl | opposedLater
        · rw [← reduced.not_not] at memberLater
          exact isFalse_foldl_of_not_mem reduced.not condition memberLater
        · exact inductionHypothesis memberLater opposedLater _

private theorem mem_flatMap_literals {constraints : List Term} {literal : Term}
    (simple : literal.isCompound = false) (member : literal ∈ constraints) :
    literal ∈ constraints.flatMap Term.literals := by
  refine List.mem_flatMap.2 ⟨literal, member, ?_⟩
  rw [Term.literals_of_not_compound simple]
  exact List.mem_singleton_self literal

/-- An equality that is no connective and the negation of its mirror image are a
literal and its negation, whatever order the operands are put in. -/
private theorem isFalse_foldl_add_of_mirrored {before : Term → Term → Bool}
    (orients : Term.Orients before)
    {left right : Term} (sameSort : left.sort = right.sort) (leftBuilt : left.Built)
    (rightBuilt : right.Built) (plain : (left.equalsBy before right).atom.isConnective = false)
    (condition : PathCondition) {constraints : List Term}
    (equated : left.equalsBy before right ∈ constraints)
    (toldApart : (right.equalsBy before left).not ∈ constraints) :
    (constraints.foldl add condition).isFalse = true := by
  rw [← orients.equalsBy_comm sameSort] at toldApart
  have reduced : (left.equalsBy before right).Reduced :=
    Term.inherited_reduced.equalsBy before leftBuilt.reduced rightBuilt.reduced
  rw [foldl_add_eq]
  apply isFalse_foldl_of_complement reduced
  · exact mem_flatMap_literals (Term.isCompound_of_atom plain) equated
  · exact mem_flatMap_literals (reduced.not_not_compound plain) toldApart

/-- An equality is the same term whichever operand comes first. Where it is no
connective, a condition to which it and the negation of its mirror image are
added contradicts itself. Both are so for every order of operands in which of
two distinct terms exactly one comes first. -/
theorem equality_excludes_mirrored_disequality {left right : Term}
    (sameSort : left.sort = right.sort) :
    left.equals right = right.equals left ∧ left.notEquals right = right.notEquals left ∧
      (left.Built → right.Built → (left.equals right).atom.isConnective = false →
        ∀ (condition : PathCondition) (constraints : List Term),
          left.equals right ∈ constraints → right.notEquals left ∈ constraints →
            (constraints.foldl add condition).isFalse = true) ∧
      ∀ before, Term.Orients before →
        left.equalsBy before right = right.equalsBy before left ∧
        (left.Built → right.Built → (left.equalsBy before right).atom.isConnective = false →
          ∀ (condition : PathCondition) (constraints : List Term),
            left.equalsBy before right ∈ constraints →
              (right.equalsBy before left).not ∈ constraints →
                (constraints.foldl add condition).isFalse = true) := by
  refine ⟨Term.equals_comm sameSort, Term.notEquals_comm sameSort, ?_, ?_⟩
  · intro leftBuilt rightBuilt plain condition constraints
    exact isFalse_foldl_add_of_mirrored Term.orients_precedes sameSort leftBuilt rightBuilt plain
      condition
  · intro before orients
    refine ⟨orients.equalsBy_comm sameSort, ?_⟩
    intro leftBuilt rightBuilt plain condition constraints
    exact isFalse_foldl_add_of_mirrored orients sameSort leftBuilt rightBuilt plain condition

/-- One of two counters, chosen by a flag. -/
def chosenCounter : Term :=
  (Term.var "flag" .bool).ite (.var "first" .i32) (.var "second" .i32)

/-- The equality of a chosen counter with a number is pushed into both branches,
from whichever side it is asked for. In the opposite order its operands change
places. -/
theorem chosenCounter_excludes_mirrored_disequality :
    chosenCounter.equals (.const (.i32 5)) =
      (Term.var "flag" .bool).conditional
        (.binary .equals (.const (.i32 5)) (.var "first" .i32))
        (.binary .equals (.const (.i32 5)) (.var "second" .i32)) ∧
    ([chosenCounter.equals (.const (.i32 5)), .var "ready" .bool,
      (Term.const (.i32 5)).notEquals chosenCounter].foldl add empty).isFalse = true ∧
    chosenCounter.equalsBy (fun left right => right.precedes left) (.const (.i32 5)) =
      (Term.var "flag" .bool).conditional
        (.binary .equals (.var "first" .i32) (.const (.i32 5)))
        (.binary .equals (.var "second" .i32) (.const (.i32 5))) ∧
    chosenCounter.equalsBy (fun left right => right.precedes left) (.const (.i32 5)) =
      (Term.const (.i32 5)).equalsBy (fun left right => right.precedes left) chosenCounter := by
  have pushed : chosenCounter.equals (.const (.i32 5)) =
      (Term.var "flag" .bool).conditional
        (.binary .equals (.const (.i32 5)) (.var "first" .i32))
        (.binary .equals (.const (.i32 5)) (.var "second" .i32)) := by
    decide +kernel
  have built : chosenCounter.Built := by
    apply Term.Built.construct (.ite (.var "flag" .bool) (.var "first" .i32) (.var "second" .i32))
    simp only [Construction.operands, List.forall_mem_cons, List.not_mem_nil, false_imp_iff,
      implies_true, and_true]
    exact ⟨.var _ _, .var _ _, .var _ _⟩
  have sameSort : chosenCounter.sort = (Term.const (.i32 5)).sort := by decide +kernel
  obtain ⟨_, _, contradicts, mirrored⟩ := equality_excludes_mirrored_disequality sameSort
  refine ⟨pushed, ?_, by decide +kernel, ?_⟩
  · exact contradicts built (.const _) (by rw [pushed]; rfl) empty _ (by simp) (by simp)
  · exact (mirrored _ Term.orients_precedes.opposite).1

/-! ## What is recorded -/

/-- Recorded literals are filed by their kind, once, and each of them is an open
literal without idle negation signs. As long as no contradiction is found, none
is recorded beside its negation. -/
structure Partitioned (condition : PathCondition) : Prop where
  filed : condition.Filed
  nodup : ∀ kind, (condition.part kind).ordered.Nodup
  literals : ∀ kind, ∀ literal ∈ condition.part kind,
    literal.asBool? = none ∧ literal.isCompound = false ∧ literal.Reduced
  unopposed : condition.isFalse = false → ∀ kind, ∀ literal ∈ condition.part kind,
    ∀ other, literal.not ∉ condition.part other

namespace Partitioned

variable {condition : PathCondition}

theorem empty : PathCondition.empty.Partitioned := by
  have nothing : ∀ {kind : ConstraintKind} {literal : Term},
      literal ∉ PathCondition.empty.part kind := by
    intro kind literal recorded
    rw [part_empty] at recorded
    cases recorded
  refine ⟨?_, ?_, ?_, ?_⟩
  · exact fun _ _ recorded => absurd recorded nothing
  · intro kind
    rw [part_empty]
    exact List.nodup_nil
  · exact fun _ _ recorded => absurd recorded nothing
  · exact fun _ _ _ recorded => absurd recorded nothing

private theorem of_parts {next : PathCondition} (partitioned : condition.Partitioned)
    (sameParts : ∀ kind, next.part kind = condition.part kind)
    (feasible : next.isFalse = false → condition.isFalse = false) : next.Partitioned := by
  constructor <;> simp only [Filed, sameParts]
  · exact partitioned.filed
  · exact partitioned.nodup
  · exact partitioned.literals
  · exact fun nextFeasible => partitioned.unopposed (feasible nextFeasible)

/-- The negation of a recorded literal can only be in the part that a new
literal is compared with. -/
theorem insert (partitioned : condition.Partitioned) {literal : Term}
    (isOpen : literal.asBool? = none) (simple : literal.isCompound = false)
    (reduced : literal.Reduced) (unopposed : literal.not ∉ condition.part literal.kind) :
    (condition.insert literal).Partitioned := by
  constructor
  · exact partitioned.filed.insert literal
  · exact fun kind => nodup_part_insert (partitioned.nodup kind) literal
  · intro kind member recorded
    rcases mem_part_insert.1 recorded with earlier | ⟨_, rfl⟩
    · exact partitioned.literals kind member earlier
    · exact ⟨isOpen, simple, reduced⟩
  · intro feasible kind member recorded other opposed
    rw [isFalse_insert] at feasible
    rcases mem_part_insert.1 recorded with earlier | ⟨_, rfl⟩
    · have memberReduced := (partitioned.literals kind member earlier).2.2
      rcases mem_part_insert.1 opposed with opposedEarlier | ⟨_, rfl⟩
      · exact partitioned.unopposed feasible kind member earlier other opposedEarlier
      · apply unopposed
        rw [memberReduced.not_not, memberReduced.kind_not, partitioned.filed kind member earlier]
        exact earlier
    · rcases mem_part_insert.1 opposed with opposedEarlier | ⟨_, same⟩
      · apply unopposed
        rw [← reduced.kind_not, partitioned.filed other _ opposedEarlier]
        exact opposedEarlier
      · exact Term.not_ne_self member same

theorem addLiteral (partitioned : condition.Partitioned) {literal : Term}
    (simple : literal.isCompound = false) (reduced : literal.Reduced) :
    (condition.addLiteral literal).Partitioned := by
  have feasible : (condition.addLiteral literal).isFalse = false → condition.isFalse = false :=
    @feasible_of_foldl condition [literal]
  rcases part_addLiteral_cases condition literal with unchanged | ⟨isOpen, unopposed, inserted⟩
  · exact partitioned.of_parts unchanged feasible
  · apply (partitioned.insert isOpen simple reduced unopposed).of_parts inserted
    rw [isFalse_insert]
    exact feasible

private theorem foldl_addLiteral (partitioned : condition.Partitioned) {literals : List Term}
    (simple : ∀ literal ∈ literals, literal.isCompound = false)
    (reduced : ∀ literal ∈ literals, literal.Reduced) :
    (literals.foldl PathCondition.addLiteral condition).Partitioned := by
  induction literals generalizing condition with
  | nil => exact partitioned
  | cons literal rest inductionHypothesis =>
      rw [List.forall_mem_cons] at simple reduced
      exact inductionHypothesis (partitioned.addLiteral simple.1 reduced.1) simple.2 reduced.2

theorem add (partitioned : condition.Partitioned) {constraint : Term}
    (reduced : constraint.Reduced) : (condition.add constraint).Partitioned := by
  rw [add_eq_foldl]
  apply partitioned.foldl_addLiteral
  · exact Term.literals_and_negatedLiterals_not_compound.1 constraint
  · exact Term.inherited_reduced.closedUnderConnectives.literals_and_negatedLiterals.1
      constraint reduced

theorem foldl_add (partitioned : condition.Partitioned) {constraints : List Term}
    (reduced : ∀ constraint ∈ constraints, constraint.Reduced) :
    (constraints.foldl PathCondition.add condition).Partitioned := by
  induction constraints generalizing condition with
  | nil => exact partitioned
  | cons constraint rest inductionHypothesis =>
      rw [List.forall_mem_cons] at reduced
      exact inductionHypothesis (partitioned.add reduced.1) reduced.2

theorem reduced (partitioned : condition.Partitioned) (kind : ConstraintKind) :
    ∀ literal ∈ condition.part kind, literal.Reduced :=
  fun literal recorded => (partitioned.literals kind literal recorded).2.2

theorem merge {left right merged : PathCondition} {guard : Term} {sides : MergeGuard}
    (leftPartitioned : left.Partitioned)
    (rightPartitioned : right.Partitioned)
    (guardReduced : guard.Reduced)
    (succeeds : left.merge right guard = .ok (merged, sides)) : merged.Partitioned := by
  obtain ⟨_, _, _, rfl, rfl⟩ := merge_eq_ok.1 succeeds
  exact empty.foldl_add (Term.inherited_reduced.closedUnderConnectives.mergedConstraints
    leftPartitioned.reduced rightPartitioned.reduced guardReduced)

end Partitioned

/-- The condition is reached from the empty one by additions and merges, where
constraints and guards are taken from some terms. -/
inductive BuiltFrom (admits : Term → Prop) : PathCondition → Prop where
  | empty : BuiltFrom admits empty
  | add {condition : PathCondition} {constraint : Term}
      (built : BuiltFrom admits condition) (admitted : admits constraint) :
      BuiltFrom admits (condition.add constraint)
  | merge {left right merged : PathCondition} {guard : Term} {sides : MergeGuard}
      (leftBuilt : BuiltFrom admits left) (rightBuilt : BuiltFrom admits right)
      (admitted : admits guard)
      (succeeds : left.merge right guard = .ok (merged, sides)) : BuiltFrom admits merged

private theorem BuiltFrom.partitioned {condition : PathCondition}
    (built : BuiltFrom Term.Built condition) : condition.Partitioned := by
  induction built with
  | empty => exact .empty
  | add built admitted inductionHypothesis => exact inductionHypothesis.add admitted.reduced
  | merge leftBuilt rightBuilt admitted succeeds leftHypothesis rightHypothesis =>
      exact leftHypothesis.merge rightHypothesis admitted.reduced succeeds

/-- Of the conditions that additions and merges of built terms reach: a recorded
literal is in the part of its kind and in no other; it is no truth value, no
conjunction and no negated disjunction. The set and the list of a part have the
same literals, and the list has none twice, so that two parts are compared by
their members. No literal is recorded beside its negation unless a contradiction
is found. -/
theorem parts_partition {condition : PathCondition} (built : BuiltFrom Term.Built condition) :
    (∀ kind, ∀ literal ∈ condition.part kind,
      (∀ other, literal ∈ condition.part other ↔ other = literal.kind) ∧
      (∀ truth, literal ≠ .ofBool truth) ∧
      ∀ left right, literal ≠ .binary .and left right ∧
        literal ≠ .negation (.binary .or left right)) ∧
    (∀ kind, (∀ literal, literal ∈ (condition.part kind).members ↔
        literal ∈ (condition.part kind).ordered) ∧
      (condition.part kind).ordered.Nodup) ∧
    (∀ other, BuiltFrom Term.Built other → ∀ kind,
      ((condition.part kind).sameMembers (other.part kind) = true ↔
        ∀ literal, literal ∈ condition.part kind ↔ literal ∈ other.part kind)) ∧
    (condition.isFalse = false →
      ∀ literal ∈ condition.constraints, literal.not ∉ condition.constraints) := by
  have partitioned := built.partitioned
  refine ⟨?_, fun kind => ⟨(condition.part kind).inStep, partitioned.nodup kind⟩, ?_, ?_⟩
  · intro kind literal recorded
    obtain ⟨isOpen, simple, _⟩ := partitioned.literals kind literal recorded
    refine ⟨fun other => ⟨fun elsewhere => ?_, ?_⟩, ?_, fun left right => ⟨?_, ?_⟩⟩
    · exact (partitioned.filed other literal elsewhere).symm
    · rintro rfl
      rw [partitioned.filed kind literal recorded]
      exact recorded
    · rintro truth rfl
      cases isOpen
    · rintro rfl
      cases simple
    · rintro rfl
      cases simple
  · intro other otherBuilt kind
    exact LiteralSet.sameMembers_iff (partitioned.nodup kind) (otherBuilt.partitioned.nodup kind)
  · intro feasible literal recorded opposed
    obtain ⟨kind, inPart⟩ := (mem_constraints feasible).1 recorded
    obtain ⟨other, opposedInPart⟩ := (mem_constraints feasible).1 opposed
    exact partitioned.unopposed feasible kind literal inPart other opposedInPart

theorem parts_partition_bounded :
    ∃ merged sides, bounded.merge unbounded (.var "first" .bool) = .ok (merged, sides) ∧
      BuiltFrom Term.Built merged ∧ merged.isFalse = false ∧
      merged.logical.ordered = [sides.this.or sides.other] ∧
      (∀ kind, (∀ literal, literal ∈ (merged.part kind).members ↔
          literal ∈ (merged.part kind).ordered) ∧ (merged.part kind).ordered.Nodup) ∧
      ∀ literal ∈ merged.constraints, literal.not ∉ merged.constraints := by
  have compared : Term.Built (.binary .lessThan (.var "count" .i32) (.const (.i32 5))) := by
    apply Term.Built.construct (.lessThan (.var "count" .i32) (.const (.i32 5)))
    simp only [Construction.operands, List.forall_mem_cons, List.not_mem_nil, false_imp_iff,
      implies_true, and_true]
    exact ⟨.var _ _, .const _⟩
  have leftBuilt : BuiltFrom Term.Built bounded := .add .empty compared
  have rightBuilt : BuiltFrom Term.Built unbounded := .add .empty (.var _ _)
  refine ⟨_, _, rfl, .merge leftBuilt rightBuilt (.var _ _) rfl, rfl, by decide +kernel, ?_⟩
  obtain ⟨_, inStep, _, unopposed⟩ :=
    parts_partition (.merge leftBuilt rightBuilt (.var "first" .bool) rfl)
  exact ⟨inStep, unopposed rfl⟩

end PathCondition

end SymbolicHeap
