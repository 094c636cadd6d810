import SymbolicHeap.Region.Basic

/-!
Contract: what two versions of a log share.

Logs are walked down together until both are at the same node. The walk only
compares identities and the lengths that the nodes have. It is exact for logs
that are chained: a node heads the same log wherever it occurs, and has the
length of that log. Two such logs end in one log from their newest common node
on, and above it they have no node in common.

Owns:
- the steps of the walk, as an induction principle;
- chained logs, and the sizes that they tell;
- the nodes passed on the way and the log at its end.
-/

namespace SymbolicHeap

namespace Log

def hasNode (log : Log) (id : NodeId) : Bool := log.any fun node => node.id = id

private theorem hasNode_iff {log : Log} {id : NodeId} :
    log.hasNode id = true ↔ ∃ node ∈ log, node.id = id := by
  simp [hasNode]

private theorem ne_of_mem {log : Log} {id : NodeId} {node : Node} (absent : log.hasNode id = false)
    (member : node ∈ log) : node.id ≠ id := fun same =>
  Bool.false_ne_true (absent.symm.trans (hasNode_iff.2 ⟨node, member, same⟩))

private theorem hasNode_cons_eq_false {node : Node} {log : Log} {id : NodeId} :
    hasNode (node :: log) id = false ↔ id ≠ node.id ∧ log.hasNode id = false := by
  rw [hasNode, List.any_cons, Bool.or_eq_false_iff, decide_eq_false_iff_not, ne_comm]
  rfl

/-- The newest node that both logs have. -/
def Ancestry.common? (split : Ancestry) : Option Node := split.shared.head?

/-! ## Steps of the walk -/

/-- The walk ends with one of the logs or where both are at one node. Otherwise
it passes the node of the longer log, or both nodes. -/
private theorem ancestry_induction {motive : Log → Log → Ancestry → Prop}
    (leftEnds : ∀ right, motive [] right ⟨[], right, []⟩)
    (rightEnds : ∀ node older, motive (node :: older) [] ⟨node :: older, [], []⟩)
    (meets : ∀ {node older other rest}, node.id = other.id →
      motive (node :: older) (other :: rest) ⟨[], [], node :: older⟩)
    (leftLonger : ∀ {node older other rest}, node.id ≠ other.id → other.length < node.length →
      motive older (other :: rest) (ancestry older (other :: rest)) →
        motive (node :: older) (other :: rest)
          ((ancestry older (other :: rest)).passLeft node))
    (rightLonger : ∀ {node older other rest}, node.id ≠ other.id → node.length < other.length →
      motive (node :: older) rest (ancestry (node :: older) rest) →
        motive (node :: older) (other :: rest)
          ((ancestry (node :: older) rest).passRight other))
    (sameLength : ∀ {node older other rest}, node.id ≠ other.id → node.length = other.length →
      motive older rest (ancestry older rest) →
        motive (node :: older) (other :: rest)
          (((ancestry older rest).passRight other).passLeft node))
    (left right : Log) : motive left right (ancestry left right) := by
  induction left generalizing right with
  | nil => exact leftEnds right
  | cons node older leftHypothesis =>
      rw [ancestry]
      induction right with
      | nil => exact rightEnds node older
      | cons other rest rightHypothesis =>
          rw [ancestryFrom]
          split
          · next same => exact meets same
          · next different =>
              split
              · next longer => exact leftLonger different longer (leftHypothesis _)
              · split
                · next longer => exact rightLonger different longer rightHypothesis
                · exact sameLength different (by omega) (leftHypothesis rest)

/-- Nothing of the left log is lost. -/
theorem ancestry_left (left right : Log) :
    (ancestry left right).onlyLeft ++ (ancestry left right).shared = left := by
  refine ancestry_induction (motive := fun left _ split => split.onlyLeft ++ split.shared = left)
    ?_ ?_ ?_ ?_ ?_ ?_ left right
  · exact fun _ => rfl
  · exact fun node older => List.append_nil _
  · exact fun _ => rfl
  · exact fun _ _ rest => congrArg (List.cons _) rest
  · exact fun _ _ rest => rest
  · exact fun _ _ rest => congrArg (List.cons _) rest

theorem onlyLeft_subset (left right : Log) : (ancestry left right).onlyLeft ⊆ left :=
  fun _ member => ancestry_left left right ▸ List.mem_append_left _ member

theorem shared_suffix (left right : Log) : (ancestry left right).shared <:+ left :=
  ⟨_, ancestry_left left right⟩

theorem onlyRight_subset (left right : Log) : (ancestry left right).onlyRight ⊆ right := by
  refine ancestry_induction (motive := fun _ right split => split.onlyRight ⊆ right)
    ?_ ?_ ?_ ?_ ?_ ?_ left right
  · exact fun right => List.Subset.refl right
  · exact fun _ _ => List.nil_subset _
  · exact fun _ => List.nil_subset _
  · exact fun _ _ rest => rest
  · exact fun _ _ rest => List.cons_subset_cons _ rest
  · exact fun _ _ rest => List.cons_subset_cons _ rest

/-! ## Chained logs -/

/-- Every node of the log heads the log that is kept for its identity, and has
the length of that log. -/
def Chained (heads : NodeId → Log) : Log → Prop
  | [] => True
  | node :: older =>
      heads node.id = node :: older ∧ node.length = older.length + 1 ∧ Chained heads older

namespace Chained

variable {heads : NodeId → Log} {log : Log}

theorem size (chained : log.Chained heads) : log.size = log.length := by
  cases log with
  | nil => rfl
  | cons node older => exact chained.2.1

theorem of_suffix {shorter : Log} (chained : log.Chained heads) (suffix : shorter <:+ log) :
    shorter.Chained heads := by
  induction log with
  | nil =>
      rw [List.suffix_nil.1 suffix]
      exact chained
  | cons node older inductionHypothesis =>
      rcases List.suffix_cons_iff.1 suffix with rfl | inOlder
      · exact chained
      · exact inductionHypothesis chained.2.2 inOlder

theorem congr {others : NodeId → Log} (chained : log.Chained heads)
    (same : ∀ node ∈ log, others node.id = heads node.id) : log.Chained others := by
  induction log with
  | nil => trivial
  | cons node older inductionHypothesis =>
      rw [List.forall_mem_cons] at same
      exact ⟨same.1.trans chained.1, chained.2.1, inductionHypothesis chained.2.2 same.2⟩

/-- A log that has a node has the whole log that the node heads. -/
private theorem suffix_of_mem {node : Node} (chained : log.Chained heads) (member : node ∈ log) :
    heads node.id <:+ log := by
  induction log with
  | nil => simp at member
  | cons newest older inductionHypothesis =>
      obtain ⟨isLog, _, olderChained⟩ := chained
      rcases List.mem_cons.1 member with rfl | inOlder
      · exact isLog ▸ List.suffix_rfl
      · exact (inductionHypothesis olderChained inOlder).trans (List.suffix_cons newest older)

/-- Logs with one newest node are one log. -/
theorem eq_of_sameVersion {left right : Log} (leftChained : left.Chained heads)
    (rightChained : right.Chained heads) (same : left.sameVersion right = true) :
    left = right := by
  cases left with
  | nil =>
      cases right with
      | nil => rfl
      | cons node older => simp [sameVersion, version] at same
  | cons leftNode leftOlder =>
      cases right with
      | nil => simp [sameVersion, version] at same
      | cons rightNode rightOlder =>
          have sameId : leftNode.id = rightNode.id := by
            simpa [sameVersion, version] using same
          rw [← leftChained.1, sameId]
          exact rightChained.1

/-- A node that is not the newest one of a log no longer than its own is not in
that log at all. -/
private theorem not_hasNode {node other : Node} {older rest : Log}
    (chained : Chained heads (node :: older))
    (otherChained : Chained heads (other :: rest))
    (different : node.id ≠ other.id)
    (noLonger : other.length ≤ node.length) :
    hasNode (other :: rest) node.id = false := by
  rw [Bool.eq_false_iff]
  intro has
  obtain ⟨found, member, sameId⟩ := hasNode_iff.1 has
  have within : node :: older <:+ other :: rest := by
    rw [← chained.1, ← sameId]
    exact otherChained.suffix_of_mem member
  have long : (other :: rest).length ≤ (node :: older).length := by
    rw [List.length_cons, List.length_cons, ← chained.2.1, ← otherChained.2.1]
    exact noLonger
  exact different (congrArg Node.id (List.cons.inj (within.eq_of_length_le long)).1)

end Chained

/-! ## The end of the walk -/

section Ancestry

variable {heads : NodeId → Log} {left right : Log}

/-- Nothing of the right log is lost, too: the logs end in one log. -/
theorem Chained.ancestry_right (leftChained : left.Chained heads)
    (rightChained : right.Chained heads) :
    (ancestry left right).onlyRight ++ (ancestry left right).shared = right := by
  revert leftChained rightChained
  refine ancestry_induction (motive := fun left right split =>
    left.Chained heads → right.Chained heads → split.onlyRight ++ split.shared = right)
    ?_ ?_ ?_ ?_ ?_ ?_ left right
  · exact fun right _ _ => List.append_nil right
  · exact fun _ _ _ _ => rfl
  · intro node older other rest same leftChained rightChained
    show node :: older = other :: rest
    rw [← leftChained.1, same]
    exact rightChained.1
  · exact fun _ _ inductionHypothesis leftChained rightChained =>
      inductionHypothesis leftChained.2.2 rightChained
  · exact fun _ _ inductionHypothesis leftChained rightChained =>
      congrArg (List.cons _) (inductionHypothesis leftChained rightChained.2.2)
  · exact fun _ _ inductionHypothesis leftChained rightChained =>
      congrArg (List.cons _) (inductionHypothesis leftChained.2.2 rightChained.2.2)

/-- The walk passes only nodes that the other log has not. -/
structure Ancestry.Apart (left right : Log) (split : Ancestry) : Prop where
  onlyLeft : ∀ node ∈ split.onlyLeft, right.hasNode node.id = false
  onlyRight : ∀ node ∈ split.onlyRight, left.hasNode node.id = false

theorem Chained.apart (leftChained : left.Chained heads) (rightChained : right.Chained heads) :
    (ancestry left right).Apart left right := by
  revert leftChained rightChained
  refine ancestry_induction (motive := fun left right split =>
    left.Chained heads → right.Chained heads → split.Apart left right) ?_ ?_ ?_ ?_ ?_ ?_ left right
  · exact fun right _ _ => ⟨List.forall_mem_nil _, fun _ _ => rfl⟩
  · exact fun node older _ _ => ⟨fun _ _ => rfl, List.forall_mem_nil _⟩
  · exact fun _ _ _ => ⟨List.forall_mem_nil _, List.forall_mem_nil _⟩
  · intro node older other rest different longer inductionHypothesis leftChained rightChained
    have absent := leftChained.not_hasNode rightChained different (Nat.le_of_lt longer)
    obtain ⟨onlyLeft, onlyRight⟩ := inductionHypothesis leftChained.2.2 rightChained
    refine ⟨List.forall_mem_cons.2 ⟨absent, onlyLeft⟩, fun passed member => ?_⟩
    have inRight := onlyRight_subset older (other :: rest) member
    exact hasNode_cons_eq_false.2 ⟨ne_of_mem absent inRight, onlyRight passed member⟩
  · intro node older other rest different longer inductionHypothesis leftChained rightChained
    have absent := rightChained.not_hasNode leftChained different.symm (Nat.le_of_lt longer)
    obtain ⟨onlyLeft, onlyRight⟩ := inductionHypothesis leftChained rightChained.2.2
    refine ⟨fun passed member => ?_, List.forall_mem_cons.2 ⟨absent, onlyRight⟩⟩
    have inLeft := onlyLeft_subset (node :: older) rest member
    exact hasNode_cons_eq_false.2 ⟨ne_of_mem absent inLeft, onlyLeft passed member⟩
  · intro node older other rest different same inductionHypothesis leftChained rightChained
    have leftAbsent := leftChained.not_hasNode rightChained different (Nat.le_of_eq same.symm)
    have rightAbsent := rightChained.not_hasNode leftChained different.symm (Nat.le_of_eq same)
    obtain ⟨onlyLeft, onlyRight⟩ := inductionHypothesis leftChained.2.2 rightChained.2.2
    refine ⟨List.forall_mem_cons.2 ⟨leftAbsent, fun passed member => ?_⟩,
      List.forall_mem_cons.2 ⟨rightAbsent, fun passed member => ?_⟩⟩
    · have inLeft := List.mem_cons_of_mem node (onlyLeft_subset older rest member)
      exact hasNode_cons_eq_false.2 ⟨ne_of_mem rightAbsent inLeft, onlyLeft passed member⟩
    · have inRight := List.mem_cons_of_mem other (onlyRight_subset older rest member)
      exact hasNode_cons_eq_false.2 ⟨ne_of_mem leftAbsent inRight, onlyRight passed member⟩

/-- Below nodes that another log has not, a log is headed by its newest node that
the other one has. -/
theorem find?_hasNode {passed shared log other : Log}
    (split : passed ++ shared = log)
    (absent : ∀ node ∈ passed, other.hasNode node.id = false)
    (within : shared ⊆ other) :
    (log.find? fun node => other.hasNode node.id) = shared.head? := by
  have notPassed : (passed.find? fun node => other.hasNode node.id) = none :=
    List.find?_eq_none.2 fun node member => Bool.eq_false_iff.1 (absent node member)
  rw [← split, List.find?_append, notPassed, Option.none_or]
  cases shared with
  | nil => rfl
  | cons node older =>
      have has : other.hasNode node.id = true :=
        hasNode_iff.2 ⟨node, within List.mem_cons_self, rfl⟩
      simp only [List.find?_cons, has, List.head?_cons]

end Ancestry

end Log

end SymbolicHeap
