import SymbolicHeap.Proofs.ArrayTheory.Arrays
import SymbolicHeap.Proofs.Heap.History

/-!
Contract: what a session remembers is right.

A session remembers encoded terms, and arrays for the node of a log on top of a
base array. The first is a function of the term. The second is right for the
log that the node heads in the history of the run, whatever region asked for
it: the elements of the remembered array are what the log leaves on top of the
elements of the base.

Owns:
- the array that a log stands for, by what the log belongs to;
- faithful and sound sessions;
- computations that succeed in every sound session and leave it sound.
-/

namespace SymbolicHeap

/-! ## Logs as arrays -/

namespace LogTarget

/-- The address of the location at some indices of the array of a log. -/
def address (target : LogTarget) (indices : List Constant) : Constant :=
  match target with
  | none => indices.headD .null
  | some number => .heap number

/-- The slot of the location at some indices of the array of a log. -/
def slot (target : LogTarget) (indices : List Constant) : Option Constant :=
  match target with
  | none => indices.tail.head?
  | some _ => indices.head?

/-- What a log with entries at an address belongs to. -/
def of (address : Term) : LogTarget :=
  match Address.classify address with
  | .object number => some number
  | _ => none

theorem of_eq {vocabulary : Vocabulary} {target : LogTarget} {address : Term}
    (admits : target.Admits vocabulary address) : LogTarget.of address = target := by
  cases target with
  | none =>
      rw [of, admits.2.2]
  | some number =>
      rw [show address = .const (.heap number) from admits]
      rfl

end LogTarget

/-- The address that the entry writes to. -/
def Entry.destination : Entry → Term
  | .write key _ _ => key.address
  | .copy _ range _ => range.destinationAddress
  | .overlay _ _ ends _ => ends.destinationAddress

theorem Entry.WellKeyed.destination {interpretation : Interpretation} {region : RegionId}
    {target : LogTarget} {entry : Entry}
    (wellKeyed : entry.WellKeyed interpretation region target) :
    target.Admits interpretation.vocabulary entry.destination := by
  cases entry <;> rw [Entry.WellKeyed] at wellKeyed <;> exact wellKeyed.1

/-- The objects that a log belongs to. -/
def Log.target : Log → LogTarget
  | [] => none
  | node :: _ => .of node.entry.destination

/-- The elements that a log leaves on top of some others. -/
def logElements (model : Model) (log : Log) (target : LogTarget)
    (elements : List Constant → Constant) (indices : List Constant) : Constant :=
  logContents model log (target.address indices) (target.slot indices) (elements indices)

/-! ## Sound sessions -/

/-- The array is right for the log of a node on top of a base array. -/
def LogEncoded
    (interpretation : Interpretation)
    (history : History)
    (node : NodeId)
    (base result : Term) :
    Prop :=
  ∃ domain range elements, base.DenotesArray interpretation .closed domain range elements ∧
    result.DenotesArray interpretation .closed domain range
      (logElements interpretation.model (history.log node) (Log.target (history.log node))
        elements)

/-- The encoded terms that the session remembers are right. -/
def Session.Faithful (session : Session) : Prop :=
  ∀ term result, session.values.lookup term = some result → result = term.encoded

structure Session.Sound
    (interpretation : Interpretation)
    (history : History)
    (session : Session) :
    Prop where
  values : ∀ term result, session.values.lookup term = some result → result = term.encoded
  logs : ∀ node base result, session.logs.lookup (node, base) = some result →
    LogEncoded interpretation history node base result

namespace Session

variable {interpretation : Interpretation} {history : History}

theorem start_faithful (limit : Nat) : (start limit).Faithful := by
  simp [Faithful, start]

theorem Faithful.addValue {session : Session} (faithful : session.Faithful) (term : Term) :
    ({ session with values := (term, term.encoded) :: session.values } : Session).Faithful := by
  intro probe result found
  rw [List.lookup_cons] at found
  by_cases same : probe = term
  · simp only [same, beq_self_eq_true, Option.some.injEq] at found
    rw [← found, same]
  · simp only [beq_false_of_ne same] at found
    exact faithful probe result found

theorem start_sound (limit : Nat) : (start limit).Sound interpretation history :=
  ⟨start_faithful limit, by simp [start]⟩

private theorem Sound.addLog {session : Session} (sound : session.Sound interpretation history)
    {node : NodeId}
    {base result : Term}
    (encoded : LogEncoded interpretation history node base result) :
    ({ session with logs := ((node, base), result) :: session.logs } : Session).Sound
      interpretation history := by
  refine ⟨sound.values, ?_⟩
  intro otherNode otherBase other found
  rw [List.lookup_cons] at found
  by_cases same : (otherNode, otherBase) = (node, base)
  · simp only [same, beq_self_eq_true, Option.some.injEq] at found
    cases same
    rw [← found]
    exact encoded
  · simp only [beq_false_of_ne same] at found
    exact sound.logs otherNode otherBase other found

private theorem Sound.countLambda {session : Session} (sound : session.Sound interpretation history)
    (lambdas : Nat) : ({ session with lambdas } : Session).Sound interpretation history :=
  ⟨sound.values, sound.logs⟩

end Session

/-! ## Computations in sound sessions -/

namespace Encoding

variable {interpretation : Interpretation} {history : History} {α β : Type}

/-- The computation leaves a sound session sound. -/
def Keeps (interpretation : Interpretation) (history : History) (action : PartialEncoding α) :
    Prop :=
  ∀ session, session.Sound interpretation history →
    (action.run.run session).2.Sound interpretation history

/-- The computation succeeds, its result has the property, and it leaves a
sound session sound. -/
def Yields (interpretation : Interpretation) (history : History) (action : PartialEncoding α)
    (property : α → Prop) : Prop :=
  ∀ session, session.Sound interpretation history →
    ∃ value after, action.run.run session = (.ok value, after) ∧
      after.Sound interpretation history ∧ property value

theorem Yields.keeps {action : PartialEncoding α} {property : α → Prop}
    (yields : Yields interpretation history action property) :
    Keeps interpretation history action := by
  intro session sound
  obtain ⟨value, after, ran, afterSound, _⟩ := yields session sound
  rw [ran]
  exact afterSound

theorem yields_pure {property : α → Prop} {value : α} (holds : property value) :
    Yields interpretation history (pure value) property :=
  fun session sound => ⟨value, session, rfl, sound, holds⟩

theorem keeps_pure (value : α) : Keeps interpretation history (pure value) :=
  fun _ sound => sound

theorem Yields.bind {first : PartialEncoding α} {next : α → PartialEncoding β}
    {between : α → Prop} {property : β → Prop}
    (firstYields : Yields interpretation history first between)
    (nextYields : ∀ value, between value →
      Yields interpretation history (next value) property) :
    Yields interpretation history (first >>= next) property := by
  intro session sound
  obtain ⟨value, middle, ran, middleSound, holds⟩ := firstYields session sound
  obtain ⟨result, after, nextRan, afterSound, nextHolds⟩ :=
    nextYields value holds middle middleSound
  refine ⟨result, after, ?_, afterSound, nextHolds⟩
  rw [ExceptT.run_bind, StateT.run_bind, ran]
  exact nextRan

theorem Keeps.bind {first : PartialEncoding α} {next : α → PartialEncoding β}
    (firstKeeps : Keeps interpretation history first)
    (nextKeeps : ∀ value, Keeps interpretation history (next value)) :
    Keeps interpretation history (first >>= next) := by
  intro session sound
  have middleSound := firstKeeps session sound
  rw [ExceptT.run_bind, StateT.run_bind]
  cases ran : first.run.run session with
  | mk outcome middle =>
      rw [ran] at middleSound
      cases outcome with
      | ok value => exact nextKeeps value middle middleSound
      | error fault => exact middleSound

theorem keeps_check (check : Except Fault α) :
    Keeps interpretation history (liftM check : PartialEncoding α) := by
  intro session sound
  cases check <;> exact sound

theorem yields_lift {check : Except Fault α} {value : α} {property : α → Prop}
    (passes : check = .ok value) (holds : property value) :
    Yields interpretation history (liftM check) property := by
  subst passes
  exact yields_pure holds

/-- A check that is known to pass. -/
theorem yields_check {check : Except Fault α} {value : α} (passes : check = .ok value)
    {next : α → PartialEncoding β}
    {property : β → Prop}
    (nextYields : Yields interpretation history (next value) property) :
    Yields interpretation history (liftM check >>= next) property := by
  subst passes
  exact nextYields

theorem yields_get {next : Session → PartialEncoding α} {property : α → Prop}
    (nextYields : ∀ session, session.Sound interpretation history →
      Yields interpretation history (next session) property) :
    Yields interpretation history (get >>= next) property :=
  fun session sound => nextYields session sound session sound

private theorem yields_modify {change : Session → Session}
    (kept : ∀ session, session.Sound interpretation history →
      (change session).Sound interpretation history) :
    Yields interpretation history (modify change) fun _ => True :=
  fun session sound => ⟨_, change session, rfl, kept session sound, trivial⟩

/-- A result that is right for each of several purposes is right for all. -/
theorem Yields.all {ι : Type} [Nonempty ι] {action : PartialEncoding α} {property : ι → α → Prop}
    (each : ∀ index, Yields interpretation history action (property index)) :
    Yields interpretation history action fun value => ∀ index, property index value := by
  intro session sound
  obtain ⟨value, after, ran, afterSound, _⟩ := each (Classical.arbitrary ι) session sound
  refine ⟨value, after, ran, afterSound, fun index => ?_⟩
  obtain ⟨other, _, otherRan, _, holds⟩ := each index session sound
  rw [ran] at otherRan
  cases otherRan
  exact holds

theorem Yields.imp {action : PartialEncoding α} {property other : α → Prop}
    (yields : Yields interpretation history action property)
    (implies : ∀ value, property value → other value) :
    Yields interpretation history action other := by
  intro session sound
  obtain ⟨value, after, ran, afterSound, holds⟩ := yields session sound
  exact ⟨value, after, ran, afterSound, implies value holds⟩

/-! ## Lists -/

theorem yields_mapM {items : List α} {action : α → PartialEncoding β} {related : α → β → Prop}
    (each : ∀ item ∈ items, Yields interpretation history (action item) (related item)) :
    Yields interpretation history (items.mapM action) (List.Forall₂ related items) := by
  induction items with
  | nil => exact yields_pure .nil
  | cons item rest inductionHypothesis =>
      rw [List.forall_mem_cons] at each
      rw [List.mapM_cons]
      refine each.1.bind fun value holds => ?_
      refine (inductionHypothesis each.2).bind fun values restHolds => ?_
      exact yields_pure (.cons holds restHolds)

theorem keeps_mapM {items : List α} {action : α → PartialEncoding β}
    (each : ∀ item ∈ items, Keeps interpretation history (action item)) :
    Keeps interpretation history (items.mapM action) := by
  induction items with
  | nil => exact keeps_pure []
  | cons item rest inductionHypothesis =>
      rw [List.forall_mem_cons] at each
      rw [List.mapM_cons]
      refine each.1.bind fun value => ?_
      exact (inductionHypothesis each.2).bind fun values => keeps_pure _

/-- A fold; the property speaks of the items to come. -/
theorem yields_foldlM {step : β → α → PartialEncoding β} (property : List α → β → Prop)
    {items : List α}
    {start : β}
    (each : ∀ item rest value, property (item :: rest) value →
      Yields interpretation history (step value item) (property rest))
    (holds : property items start) :
    Yields interpretation history (items.foldlM step start) (property []) := by
  induction items generalizing start with
  | nil => exact yields_pure holds
  | cons item rest inductionHypothesis =>
      rw [List.foldlM_cons]
      exact (each item rest start holds).bind fun value => inductionHypothesis

/-! ## Terms -/

/-- The invariant asks of the encoded terms that they be right, and nothing else
of them. -/
structure OnValues (invariant : Session → Prop) : Prop where
  faithful : ∀ session, invariant session → session.Faithful
  addValue : ∀ session, invariant session → ∀ term,
    invariant { session with values := (term, term.encoded) :: session.values }

theorem onValues_faithful : OnValues Session.Faithful :=
  ⟨fun _ faithful => faithful, fun _ faithful => faithful.addValue⟩

private theorem onValues_sound : OnValues (Session.Sound interpretation history) where
  faithful := fun _ sound => sound.values
  addValue := fun _ sound term => ⟨Session.Faithful.addValue sound.values term, sound.logs⟩

/-- The computation returns the value and keeps the invariant. -/
def Returns (invariant : Session → Prop) (action : Encoding α) (value : α) : Prop :=
  ∀ session, invariant session →
    ∃ after, action.run session = (value, after) ∧ invariant after

variable {invariant : Session → Prop}

private theorem returns_pure (value : α) : Returns invariant (pure value) value :=
  fun session holds => ⟨session, rfl, holds⟩

theorem Returns.bind {first : Encoding α} {next : α → Encoding β} {value : α} {result : β}
    (firstReturns : Returns invariant first value)
    (nextReturns : Returns invariant (next value) result) :
    Returns invariant (first >>= next) result := by
  intro session holds
  obtain ⟨middle, ran, middleHolds⟩ := firstReturns session holds
  obtain ⟨after, nextRan, afterHolds⟩ := nextReturns middle middleHolds
  refine ⟨after, ?_, afterHolds⟩
  rw [StateT.run_bind, ran]
  exact nextRan

theorem Returns.yields {action : Encoding α} {value : α}
    (returns : Returns (Session.Sound interpretation history) action value) :
    Yields interpretation history (liftM action) (· = value) := by
  intro session sound
  obtain ⟨after, ran, afterSound⟩ := returns session sound
  refine ⟨value, after, ?_, afterSound, rfl⟩
  show (Except.ok (action.run session).1, (action.run session).2) = _
  rw [ran]

private theorem returns_remembered (onValues : OnValues invariant) {term : Term}
    {compute : Encoding Term}
    (computes : Returns invariant compute term.encoded) :
    Returns invariant (remembered term compute) term.encoded := by
  intro session holds
  rw [remembered, StateT.run_bind, StateT.run_get, pure_bind]
  cases found : term.lookup session.values with
  | some result =>
      have isEncoded := onValues.faithful session holds term result
        (by rw [← Term.lookup_eq_list_lookup, found])
      exact ⟨session, by rw [← isEncoded]; rfl, holds⟩
  | none =>
      obtain ⟨after, ran, afterHolds⟩ := computes session holds
      refine ⟨_, ?_, onValues.addValue after afterHolds term⟩
      simp only
      rw [StateT.run_bind, ran]
      rfl

mutual

private theorem returns_encodeNode (onValues : OnValues invariant) : (term : Term) →
    Returns invariant term.encodeNode term.encoded
  | .const value => by
      rw [Term.encodeNode]
      exact returns_remembered onValues (by rw [Term.encoded]; exact returns_pure _)
  | .var name sort => by
      rw [Term.encodeNode]
      exact returns_remembered onValues (by rw [Term.encoded]; exact returns_pure _)
  | .bound name sort => by
      rw [Term.encodeNode]
      exact returns_remembered onValues (by rw [Term.encoded]; exact returns_pure _)
  | .arrayConst name sort => by
      rw [Term.encodeNode]
      exact returns_remembered onValues (by rw [Term.encoded]; exact returns_pure _)
  | .binary operator left right => by
      rw [Term.encodeNode]
      refine returns_remembered onValues ?_
      rw [Term.encoded]
      refine (returns_encodeNode onValues left).bind ?_
      exact (returns_encodeNode onValues right).bind (returns_pure _)
  | .negation operand => by
      rw [Term.encodeNode]
      refine returns_remembered onValues ?_
      rw [Term.encoded]
      exact (returns_encodeNode onValues operand).bind (returns_pure _)
  | .conditional condition consequent alternate => by
      rw [Term.encodeNode]
      refine returns_remembered onValues ?_
      rw [Term.encoded]
      refine (returns_encodeNode onValues condition).bind ?_
      refine (returns_encodeNode onValues consequent).bind ?_
      exact (returns_encodeNode onValues alternate).bind (returns_pure _)
  | .subtype operand typeName => by
      rw [Term.encodeNode]
      refine returns_remembered onValues ?_
      rw [Term.encoded]
      exact (returns_encodeNode onValues operand).bind (returns_pure _)
  | .inputRead region key => by
      rw [Term.encodeNode]
      refine returns_remembered onValues ?_
      rw [Term.encoded]
      exact (returns_encodeNodes onValues key).bind (returns_pure _)
  | .constArray element sort => by
      rw [Term.encodeNode]
      refine returns_remembered onValues ?_
      rw [Term.encoded]
      exact (returns_encodeNode onValues element).bind (returns_pure _)
  | .selection array indices => by
      rw [Term.encodeNode]
      refine returns_remembered onValues ?_
      rw [Term.encoded]
      refine (returns_encodeNode onValues array).bind ?_
      exact (returns_encodeNodes onValues indices).bind (returns_pure _)
  | .update array indices element => by
      rw [Term.encodeNode]
      refine returns_remembered onValues ?_
      rw [Term.encoded]
      refine (returns_encodeNode onValues array).bind ?_
      refine (returns_encodeNodes onValues indices).bind ?_
      exact (returns_encodeNode onValues element).bind (returns_pure _)
  | .lambda parameters body => by
      rw [Term.encodeNode]
      refine returns_remembered onValues ?_
      rw [Term.encoded]
      exact (returns_encodeNode onValues body).bind (returns_pure _)

private theorem returns_encodeNodes (onValues : OnValues invariant) : (terms : List Term) →
    Returns invariant (Term.encodeNodes terms) (Term.encodedAll terms)
  | [] => by
      rw [Term.encodeNodes, Term.encodedAll]
      exact returns_pure []
  | head :: tail => by
      rw [Term.encodeNodes, Term.encodedAll]
      refine (returns_encodeNode onValues head).bind ?_
      exact (returns_encodeNodes onValues tail).bind (returns_pure _)

end

/-- Encoding a term gives its encoding. -/
theorem returns_encode (onValues : OnValues invariant) (term : Term) :
    Returns invariant term.encode term.encoded := by
  rw [Term.encode_eq_encodeNode]
  exact returns_encodeNode onValues term

theorem returns_encodeAll (onValues : OnValues invariant) (terms : List Term) :
    Returns invariant (Term.encodeAll terms) (Term.encodedAll terms) := by
  rw [Term.encodeAll_eq_encodeNodes]
  exact returns_encodeNodes onValues terms

theorem yields_encode (term : Term) :
    Yields interpretation history (liftM term.encode) (· = term.encoded) :=
  (returns_encode onValues_sound term).yields

theorem yields_encodeAll (terms : List Term) :
    Yields interpretation history (liftM (Term.encodeAll terms)) (· = Term.encodedAll terms) :=
  (returns_encodeAll onValues_sound terms).yields

/-- A term with a value, encoded. -/
theorem yields_encode_denotes {environment : Environment} {term : Term} {sort : ValueSort}
    {value : Constant}
    (denotes : term.Denotes interpretation environment sort value) :
    Yields interpretation history (liftM term.encode) fun result =>
      result.Denotes interpretation environment sort value := by
  refine (yields_encode term).imp ?_
  rintro _ rfl
  exact denotes.encoded

/-! ## Nodes and lambdas -/

theorem yields_rememberedNode {node : NodeId} {base : Term} {compute : PartialEncoding Term}
    (computes : Yields interpretation history compute
      (LogEncoded interpretation history node base)) :
    Yields interpretation history (rememberedNode node base compute)
      (LogEncoded interpretation history node base) := by
  rw [rememberedNode]
  refine yields_get fun session sound => ?_
  cases found : session.logs.lookup (node, base) with
  | some result => exact yields_pure (sound.logs node base result found)
  | none =>
      refine computes.bind fun result encoded => ?_
      refine (yields_modify fun _ later => later.addLog encoded).bind fun _ _ => ?_
      exact yields_pure encoded

theorem yields_lambdaNumber :
    Yields interpretation history (liftM lambdaNumber) fun _ => True :=
  fun _ sound => ⟨_, _, rfl, sound.countLambda _, trivial⟩

end Encoding

end SymbolicHeap
