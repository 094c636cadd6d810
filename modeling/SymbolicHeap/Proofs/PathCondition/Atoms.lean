import SymbolicHeap.Proofs.PathCondition.Conjunction

/-!
Contract: equalities of opaque references are decided.

The representatives of linked classes interpret what recorded equations
compare: equal sides share one, sides told apart do not, and a constant stands
for itself because no constant is ever linked away. A representative is where
following the links from a term ends, because only representatives are linked.
So a condition that has found no contradiction has none to find among its
equations, and a contradiction that is found leaves no interpretation at all.

Owns:
- interpretations of the sides of equations by elements;
- links made by joining classes, and the chase along them;
- representatives as an interpretation of equations without contradiction;
- what a path condition records among its equalities, and that it is consistent;
- soundness and completeness of contradictions among equalities.
-/

namespace SymbolicHeap

namespace Equation

/-! ## Interpretations -/

/-- The terms that a literal equates or tells apart. -/
def sides : Term → List Term
  | .binary .equals left right => [left, right]
  | .negation (.binary .equals left right) => [left, right]
  | _ => []

/-- Elements for the sides of equations, whatever terms these are: every
equation is true, and different constants among the sides are different
elements. -/
structure Interprets {α : Type} (element : Term → α) (literals : List Term) : Prop where
  equal : ∀ {left right}, .binary .equals left right ∈ literals → element left = element right
  different : ∀ {left right}, .negation (.binary .equals left right) ∈ literals →
    element left ≠ element right
  distinct : ∀ {left right}, .const left ∈ literals.flatMap sides →
    .const right ∈ literals.flatMap sides → element (.const left) = element (.const right) →
      left = right

/-- An interpretation gives values to the sides of its equations only. -/
def Interprets.reading {α : Type} {element : Term → α} {literals : List Term}
    (interprets : Interprets element literals) : Reading α where
  denotes := fun term value => term ∈ literals.flatMap sides ∧ element term = value
  unique := by
    rintro term value other ⟨_, rfl⟩ ⟨_, rfl⟩
    rfl
  distinct := by
    rintro left right value ⟨leftOccurs, rfl⟩ ⟨rightOccurs, same⟩
    exact interprets.distinct leftOccurs rightOccurs same.symm

theorem Interprets.holds {α : Type} {element : Term → α} {literals : List Term}
    (interprets : Interprets element literals) {literal : Term} (member : literal ∈ literals) :
    interprets.reading.Holds literal := by
  have occurs : ∀ side ∈ sides literal, side ∈ literals.flatMap sides :=
    fun side isSide => List.mem_flatMap.2 ⟨literal, member, isSide⟩
  unfold Reading.Holds
  split
  · next left right =>
      refine ⟨element right, ⟨occurs left ?_, interprets.equal member⟩, occurs right ?_, rfl⟩
      · exact List.mem_cons_self
      · exact List.mem_cons_of_mem left List.mem_cons_self
  · next left right =>
      refine ⟨element left, element right, ⟨occurs left ?_, rfl⟩, ⟨occurs right ?_, rfl⟩,
        interprets.different member⟩
      · exact List.mem_cons_self
      · exact List.mem_cons_of_mem left List.mem_cons_self
  · trivial

/-- What contradicts itself has no interpretation. -/
private theorem not_interprets_of_contradiction? {literals core : List Term}
    (found : contradiction? literals = some core) {α : Type} (element : Term → α) :
    ¬ Interprets element core := by
  intro interprets
  exact not_hold_of_contradiction? interprets.reading found fun _ => interprets.holds

/-! ## Representatives -/

private theorem representative_append (links : Links) (former next term : Term) :
    representative (links ++ [(former, next)]) term =
      if representative links term = former then next else representative links term := by
  rw [representative, List.foldl_append]
  rfl

/-- Links made by joining classes. A link leads from the representative of one
class, which is no constant, to that of another one. -/
inductive Joined : Links → Prop where
  | empty : Joined []
  | append {links : Links} {former next : Term} (joined : Joined links)
      (formerUnlinked : links.lookup former = none) (nextUnlinked : links.lookup next = none)
      (different : former ≠ next) (isOpen : former.isConstant = false) :
      Joined (links ++ [(former, next)])

/-- Constants are never linked away. -/
private theorem Joined.representative_const {links : Links} (joined : Joined links)
    (value : Constant) :
    representative links (.const value) = .const value := by
  induction joined with
  | empty => rfl
  | append joined formerUnlinked nextUnlinked different isOpen inductionHypothesis =>
      rw [representative_append, inductionHypothesis, if_neg]
      rintro rfl
      cases isOpen

/-- Links are followed from a term, one after the other, until a term has none. -/
inductive Chases (links : Links) : Term → Term → Prop where
  | stop {term : Term} (unlinked : links.lookup term = none) : Chases links term term
  | follow {term next final : Term} (linked : links.lookup term = some next)
      (chased : Chases links next final) : Chases links term final

private theorem Chases.unlinked {links : Links} {term final : Term}
    (chased : Chases links term final) :
    links.lookup final = none := by
  induction chased with
  | stop unlinked => exact unlinked
  | follow linked chased inductionHypothesis => exact inductionHypothesis

theorem Chases.unique {links : Links} {term final other : Term}
    (chased : Chases links term final) (otherChased : Chases links term other) :
    final = other := by
  induction chased with
  | stop unlinked =>
      cases otherChased with
      | stop => rfl
      | follow linked => simp [unlinked] at linked
  | follow linked chased inductionHypothesis =>
      cases otherChased with
      | stop unlinked => simp [linked] at unlinked
      | follow otherLinked otherChased =>
          cases linked.symm.trans otherLinked
          exact inductionHypothesis otherChased

/-- A link between representatives prolongs the chases that ended where it
starts, and no others. -/
theorem Chases.append {links : Links} {term final former next : Term}
    (chased : Chases links term final) (formerUnlinked : links.lookup former = none)
    (nextUnlinked : links.lookup next = none) (different : former ≠ next) :
    Chases (links ++ [(former, next)]) term (if final = former then next else final) := by
  have elsewhere {other : Term} (apart : other ≠ former) :
      (links ++ [(former, next)]).lookup other = links.lookup other := by
    simp [List.lookup_append, List.lookup_cons, beq_false_of_ne apart]
  induction chased with
  | @stop term unlinked =>
      by_cases isFormer : term = former
      · rw [if_pos isFormer, isFormer]
        have linked : (links ++ [(former, next)]).lookup former = some next := by
          simp [List.lookup_append, formerUnlinked]
        exact .follow linked (.stop ((elsewhere different.symm).trans nextUnlinked))
      · rw [if_neg isFormer]
        exact .stop ((elsewhere isFormer).trans unlinked)
  | @follow term _ _ linked chased inductionHypothesis =>
      have apart : term ≠ former := by
        rintro rfl
        simp [linked] at formerUnlinked
      exact .follow ((elsewhere apart).trans linked) inductionHypothesis

/-- The chase ends from every term, at its representative. -/
private theorem Joined.chases {links : Links} (joined : Joined links) (term : Term) :
    Chases links term (representative links term) := by
  induction joined with
  | empty => exact .stop rfl
  | append joined formerUnlinked nextUnlinked different isOpen inductionHypothesis =>
      rw [representative_append]
      exact inductionHypothesis.append formerUnlinked nextUnlinked different

private theorem Joined.chases_iff {links : Links} (joined : Joined links) {term final : Term} :
    Chases links term final ↔ final = representative links term := by
  constructor
  · intro chased
    exact chased.unique (joined.chases term)
  · rintro rfl
    exact joined.chases term

private theorem Joined.unlinked {links : Links} (joined : Joined links) (term : Term) :
    links.lookup (representative links term) = none :=
  (joined.chases term).unlinked

theorem Joined.link {links : Links} (joined : Joined links) {left right : Term}
    (different : representative links left ≠ representative links right)
    (isOpen : (representative links left).isConstant = false) :
    Joined (links ++ [(representative links left, representative links right)]) :=
  .append joined (joined.unlinked left) (joined.unlinked right) different isOpen

/-- Classes only grow. -/
def Coarsens (links extended : Links) : Prop :=
  ∀ left right, representative links left = representative links right →
    representative extended left = representative extended right

private theorem coarsens_append (links : Links) (former next : Term) :
    Coarsens links (links ++ [(former, next)]) := by
  intro left right same
  rw [representative_append, representative_append, same]

/-- One equation joins the classes of its sides. -/
private theorem connect_cons_eq_ok {links extended : Links} {seen : List Term} {equation : Equation}
    {rest : List Equation}
    (connected : connect links seen (equation :: rest) = .ok extended)
    (joined : Joined links) :
    ∃ longer, connect longer (seen ++ [equation.literal]) rest = .ok extended ∧
      Joined longer ∧ Coarsens links longer ∧
      representative longer equation.left = representative longer equation.right := by
  rw [connect] at connected
  split at connected
  · next same => exact ⟨links, connected, joined, fun _ _ => id, same⟩
  · next different =>
      split at connected
      · split at connected
        · cases connected
        · next rightOpen =>
            refine ⟨_, connected, joined.link (Ne.symm different) (by simpa using rightOpen),
              coarsens_append links _ _, ?_⟩
            rw [representative_append, representative_append, if_neg different, if_pos rfl]
      · next leftOpen =>
          refine ⟨_, connected, joined.link different (by simpa using leftOpen),
            coarsens_append links _ _, ?_⟩
          rw [representative_append, representative_append, if_pos rfl,
            if_neg (Ne.symm different)]

private theorem connect_eq_ok {links extended : Links} {seen : List Term}
    {equations : List Equation}
    (connected : connect links seen equations = .ok extended)
    (joined : Joined links) :
    Joined extended ∧ Coarsens links extended ∧
      ∀ equation ∈ equations,
        representative extended equation.left = representative extended equation.right := by
  induction equations generalizing links seen with
  | nil =>
      cases connected
      exact ⟨joined, fun _ _ => id, by simp⟩
  | cons equation rest inductionHypothesis =>
      obtain ⟨longer, restConnected, longerJoined, coarsens, same⟩ :=
        connect_cons_eq_ok connected joined
      obtain ⟨extendedJoined, coarsensRest, restSame⟩ :=
        inductionHypothesis restConnected longerJoined
      refine ⟨extendedJoined, fun left right sameClass => ?_, ?_⟩
      · exact coarsensRest left right (coarsens left right sameClass)
      · exact List.forall_mem_cons.2 ⟨coarsensRest _ _ same, restSame⟩

/-- Where no contradiction is found, representatives are an interpretation. -/
private theorem interprets_of_contradiction?_eq_none {literals : List Term}
    (consistent : contradiction? literals = none) :
    ∃ links, Interprets (representative links) literals := by
  rw [contradiction?] at consistent
  split at consistent
  · cases consistent
  · next links connected =>
      rw [Option.map_eq_none_iff, List.find?_eq_none] at consistent
      obtain ⟨joined, _, same⟩ := connect_eq_ok connected .empty
      refine ⟨links, ⟨?_, ?_, ?_⟩⟩
      · intro left right member
        exact same ⟨_, left, right⟩ (List.mem_filterMap.2 ⟨_, member, rfl⟩)
      · intro left right member
        simpa using consistent ⟨_, left, right⟩ (List.mem_filterMap.2 ⟨_, member, rfl⟩)
      · intro left right _ _ sameClass
        rw [joined.representative_const, joined.representative_const] at sameClass
        exact Term.const.inj sameClass

end Equation

/-! ## What path conditions record -/

namespace PathCondition

/-- What is recorded in a part belongs there. -/
def Filed (condition : PathCondition) : Prop :=
  ∀ kind, ∀ literal ∈ condition.part kind, literal.kind = kind

/-- What has not found a contradiction has none among its equalities. -/
def Consistent (condition : PathCondition) : Prop :=
  condition.isFalse = false → Equation.contradiction? condition.equality.ordered = none

theorem Filed.insert {condition : PathCondition} (filed : condition.Filed) (literal : Term) :
    (condition.insert literal).Filed := by
  intro kind member isMember
  rcases mem_part_insert.1 isMember with recorded | ⟨rfl, rfl⟩
  · exact filed kind member recorded
  · rfl

private theorem equality_insert_of_kind_ne {condition : PathCondition} {literal : Term}
    (otherKind : literal.kind ≠ .equality) :
    (condition.insert literal).equality = condition.equality := by
  have untouched := part_insert condition literal .equality
  rw [if_neg (Ne.symm otherKind)] at untouched
  exact untouched

private theorem checkEqualities_consistent (condition : PathCondition) :
    condition.checkEqualities.Consistent := by
  rw [checkEqualities]
  split
  · intro feasible
    cases feasible
  · next none => exact fun _ => none

private theorem addLiteral_filed_and_consistent {condition : PathCondition}
    (filed : condition.Filed)
    (consistent : condition.Consistent) (literal : Term) :
    (condition.addLiteral literal).Filed ∧ (condition.addLiteral literal).Consistent := by
  have contradicted : ∀ core, (condition.contradict core).Filed ∧
      (condition.contradict core).Consistent := by
    intro core
    refine ⟨fun kind => ?_, fun feasible => by cases feasible⟩
    rw [part_contradict]
    exact filed kind
  rw [addLiteral]
  split
  · exact ⟨filed, consistent⟩
  · next feasible =>
      split
      · exact ⟨filed, consistent⟩
      · exact contradicted _
      · split
        · exact contradicted _
        · dsimp only
          split
          · refine ⟨fun kind => ?_, checkEqualities_consistent _⟩
            rw [checkEqualities_part]
            exact filed.insert literal kind
          -- A literal of another kind leaves the equalities as they were.
          · next otherKind =>
              refine ⟨filed.insert literal, fun _ => ?_⟩
              rw [equality_insert_of_kind_ne otherKind]
              exact consistent (by simpa using feasible)

private theorem foldl_addLiteral_filed_and_consistent {condition : PathCondition}
    (filed : condition.Filed) (consistent : condition.Consistent) (literals : List Term) :
    (literals.foldl addLiteral condition).Filed ∧
      (literals.foldl addLiteral condition).Consistent := by
  induction literals generalizing condition with
  | nil => exact ⟨filed, consistent⟩
  | cons literal rest inductionHypothesis =>
      obtain ⟨nextFiled, nextConsistent⟩ :=
        addLiteral_filed_and_consistent filed consistent literal
      exact inductionHypothesis nextFiled nextConsistent

private theorem foldl_add_filed_and_consistent (constraints : List Term) :
    (constraints.foldl add empty).Filed ∧ (constraints.foldl add empty).Consistent := by
  rw [foldl_add_eq]
  apply foldl_addLiteral_filed_and_consistent
  · intro kind literal recorded
    rw [part_empty] at recorded
    cases recorded
  · exact fun _ => rfl

/-- An equality literal equates references or tells them apart. -/
private theorem sides_of_kind_eq_equality {literal : Term} (isEquality : literal.kind = .equality) :
    ∃ left right, left.sort = .reference ∧
      (literal = .binary .equals left right ∨
        literal = .negation (.binary .equals left right)) := by
  rw [Term.kind] at isEquality
  split at isEquality
  · next left right isAtom =>
      refine ⟨left, right, ?_, ?_⟩
      · cases sort : left.sort <;>
          simp [sort, ValueSort.isReference, ValueSort.isInteger] at isEquality
        rfl
      · unfold Term.atom at isAtom
        split at isAtom
        · exact .inr (congrArg Term.negation isAtom)
        · exact .inl isAtom
  all_goals cases isEquality

/-- Reasoning about reference equalities is sound and complete for opaque
references. Every literal that additions record among the equalities equates
references or tells them apart. If no contradiction was found, some elements
interpret all of them; a contradiction that is found among them consists of
recorded literals, and no elements interpret it. At each point of the way through
the recorded literals, following the links from a term ends, and it ends at the
term's representative, which has no link. -/
theorem equalities_sound_and_complete (constraints : List Term) :
    let condition := constraints.foldl add empty
    (∀ literal ∈ condition.equality.ordered, ∃ left right, left.sort = .reference ∧
      (literal = .binary .equals left right ∨
        literal = .negation (.binary .equals left right))) ∧
    (condition.isFalse = false →
      ∃ (α : Type) (element : Term → α), Equation.Interprets element condition.equality.ordered) ∧
    (∀ core, Equation.contradiction? condition.equality.ordered = some core →
      core ⊆ condition.equality.ordered ∧
        ∀ (α : Type) (element : Term → α), ¬ Equation.Interprets element core) ∧
    ∀ considered links, considered <+: condition.equality.ordered →
      Equation.connect [] [] (considered.filterMap Equation.ofEquality?) = .ok links →
        ∀ term, links.lookup (Equation.representative links term) = none ∧
          ∀ final, Equation.Chases links term final ↔
            final = Equation.representative links term := by
  obtain ⟨filed, consistent⟩ := foldl_add_filed_and_consistent constraints
  refine ⟨fun literal recorded => ?_, fun feasible => ?_, fun core found => ⟨?_, ?_⟩, ?_⟩
  · exact sides_of_kind_eq_equality (filed .equality literal (LiteralSet.mem_ordered.1 recorded))
  · obtain ⟨links, interprets⟩ :=
      Equation.interprets_of_contradiction?_eq_none (consistent feasible)
    exact ⟨Term, Equation.representative links, interprets⟩
  · exact Equation.subset_of_contradiction? found
  · exact fun α element => Equation.not_interprets_of_contradiction? found element
  · intro considered links _ connected term
    obtain ⟨joined, _, _⟩ := Equation.connect_eq_ok connected .empty
    exact ⟨joined.unlinked term, fun final => joined.chases_iff⟩

/-- Two names of one object, told apart from null and from an allocation. -/
def freshAlias : List Term :=
  [.binary .equals (.var "left" .reference) (.var "right" .reference),
    .binary .and (.negation (.binary .equals (.var "right" .reference) .null))
      (.negation (.binary .equals (.var "left" .reference) (.const (.heap 1))))]

theorem equalities_freshAlias_and_sharedAllocation :
    ((freshAlias.foldl add empty).isFalse = false ∧
      (freshAlias.foldl add empty).equality.ordered = freshAlias.flatMap Term.literals ∧
      ∃ (α : Type) (element : Term → α),
        Equation.Interprets element (freshAlias.foldl add empty).equality.ordered) ∧
    Equation.connect [] []
        ((freshAlias.foldl add empty).equality.ordered.filterMap Equation.ofEquality?) =
      .ok [(.var "left" .reference, .var "right" .reference)] ∧
    Equation.Chases [(.var "left" .reference, .var "right" .reference)] (.var "left" .reference)
      (.var "right" .reference) ∧
    Equation.contradiction? (sharedAllocation.foldl add empty).equality.ordered =
      some (sharedAllocation.flatMap Term.literals) ∧
    ∀ (α : Type) (element : Term → α),
      ¬ Equation.Interprets element (sharedAllocation.flatMap Term.literals) := by
  have feasible : (freshAlias.foldl add empty).isFalse = false := by decide +kernel
  have recorded : (freshAlias.foldl add empty).equality.ordered =
      freshAlias.flatMap Term.literals := by decide +kernel
  have found : Equation.contradiction? (sharedAllocation.foldl add empty).equality.ordered =
      some (sharedAllocation.flatMap Term.literals) := by decide +kernel
  have connected : Equation.connect [] []
        ((freshAlias.foldl add empty).equality.ordered.filterMap Equation.ofEquality?) =
      .ok [(.var "left" .reference, .var "right" .reference)] := by
    rw [recorded]
    rfl
  obtain ⟨_, interpreted, _, chased⟩ := equalities_sound_and_complete freshAlias
  obtain ⟨_, _, contradicted, _⟩ := equalities_sound_and_complete sharedAllocation
  refine ⟨⟨feasible, recorded, interpreted feasible⟩, connected, ?_, found,
    (contradicted _ found).2⟩
  exact ((chased _ _ (List.prefix_refl _) connected _).2 _).2 (by decide +kernel)

end PathCondition

end SymbolicHeap
