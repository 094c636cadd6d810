import SymbolicHeap.Memory.Basic
import SymbolicHeap.Model.Cached
import SymbolicHeap.Solver.Basic

/-!
Contract: states of symbolic execution.

A state is a memory, a path condition with models known to satisfy it, a call
stack and the path of locations that led to it. Every call frame has a register
frame. A terminated state takes no further steps: it refuses to allocate, to
call, to return, to fork and to merge.
-/

namespace SymbolicHeap

/-- A statement of a method. -/
structure Location where
  method : String
  statement : Nat
deriving DecidableEq

/-- The locations of an execution, the latest at the top, each with the number
of steps that led to it. -/
inductive Path where
  | start (location : Location)
  | step (location : Location) (depth : Nat) (earlier : Path)

namespace Path

def location : Path → Location
  | .start location | .step location _ _ => location

def depth : Path → Nat
  | .start _ => 0
  | .step _ depth _ => depth

def advance (path : Path) (location : Location) : Path :=
  .step location (path.depth + 1) path

/-- From the current location back to the first one. -/
def toList : Path → List (Location × Nat)
  | .start location => [(location, 0)]
  | .step location depth earlier => (location, depth) :: earlier.toList

/-- The longer of two paths to one location, the left one if they are equal. -/
def join (left right : Path) : Option Path :=
  if left.location ≠ right.location then none
  else if right.depth ≤ left.depth then some left
  else some right

end Path

structure CallFrame where
  method : String
  /-- Where the caller resumes; the entry method has no caller. -/
  returnSite : Option Location
deriving DecidableEq

inductive Termination where
  | returned
  | exception (name : String)
deriving DecidableEq

inductive Status where
  | active
  | terminated (reason : Termination)
deriving DecidableEq

structure State where
  id : Nat
  /-- Innermost call first. -/
  callStack : List CallFrame
  memory : Memory
  condition : PathCondition
  models : List Model
  path : Path
  status : Status

namespace State

/-- A state at the start of a method, with an empty memory. -/
def create (entry : String) : Fresh State := do
  let memory ← Memory.create
  return {
    id := ← Fresh.stateNumber
    callStack := [⟨entry, none⟩]
    memory := memory.pushFrame
    condition := .empty
    models := []
    path := .start ⟨entry, 0⟩
    status := .active }

def isTerminated (state : State) : Bool :=
  match state.status with
  | .active => false
  | .terminated _ => true

def checkActive (state : State) : Except Fault Unit :=
  if state.isTerminated then .error .terminated else .ok ()

def allocate (state : State) (typeName : String) : Except Fault (Term × State) := do
  state.checkActive
  let (address, memory) := state.memory.allocate typeName
  return (address, { state with memory })

/-! ## Conditions -/

/-- The models under which a term holds. -/
def modelsOf (term : Term) : List Model → Except Fault (List Model)
  | [] => .ok []
  | model :: rest => do
      let value ← model.evaluate term
      let kept ← modelsOf term rest
      return if value = some (.bool true) then model :: kept else kept

/-- Adds a condition to the path; models that do not satisfy it are dropped. -/
def addConstraint (state : State) (constraint : Term) : Except Fault State := do
  let condition := state.condition.add constraint
  if condition.isFalse then return { state with condition, models := [] }
  else
    let term := (constraint.encode.run (.start Session.defaultUnrollLimit)).1
    return { state with condition, models := ← modelsOf term state.models }

def addModel (state : State) (model : Model) : State :=
  { state with models := state.models ++ [model] }

/-! ## Control flow -/

def location (state : State) : Location := state.path.location

/-- Moves to a statement of the current method. -/
def advance (state : State) (statement : Nat) : State :=
  { state with path := state.path.advance ⟨state.location.method, statement⟩ }

/-- Enters a method; the caller resumes at `returnStatement`. -/
def call (state : State) (method : String) (returnStatement : Nat) : Except Fault State := do
  state.checkActive
  let returnSite : Location := ⟨state.location.method, returnStatement⟩
  return { state with
    callStack := ⟨method, some returnSite⟩ :: state.callStack
    memory := state.memory.pushFrame
    path := state.path.advance ⟨method, 0⟩ }

def terminate (state : State) (reason : Termination) : State :=
  { state with status := .terminated reason }

/-- Leaves the current method. The state ends when its entry method returns. -/
def returnFromMethod (state : State) : Except Fault State := do
  state.checkActive
  let left : State :=
    { state with callStack := state.callStack.tail, memory := state.memory.popFrame }
  match state.callStack.head?.bind CallFrame.returnSite with
  | some site => return { left with path := state.path.advance site }
  | none => return left.terminate .returned

/-! ## Forking -/

/-- The same state with an identity and an owner of its own. -/
def child (state : State) : Fresh State := do
  return { state with id := ← Fresh.stateNumber, memory := ← state.memory.withNewOwner }

/-- A child that assumes a condition and one that assumes its negation. -/
def fork (state : State) (condition : Term) : ExceptT Fault Fresh (State × State) := do
  state.checkActive
  let positive ← (← state.child).addConstraint condition
  let negative ← (← state.child).addConstraint condition.not
  return (positive, negative)

/-- Keeps a state that has a model, or for which the solver finds one. -/
def keepIfFeasible
    {σ : Type}
    (state : State)
    (solver : Solver σ)
    (options : Options)
    (solverState : σ) :
    Except Fault (Option State × σ) := do
  if state.condition.isFalse then return (none, solverState)
  else if !state.models.isEmpty then return (some state, solverState)
  else
    let (outcome, solverState) ←
      solver.checkSoftly (.start options.unrollLimit) state.condition options solverState
    return (outcome.model?.map state.addModel, solverState)

/-- Like `fork`, without the children that the solver does not show to be
feasible. -/
def forkWithSolver
    {σ : Type}
    (state : State)
    (condition : Term)
    (solver : Solver σ)
    (options : Options)
    (solverState : σ) :
    ExceptT Fault Fresh ((Option State × Option State) × σ) := do
  let (positive, negative) ← state.fork condition
  let (positive, solverState) ← positive.keepIfFeasible solver options solverState
  let (negative, solverState) ← negative.keepIfFeasible solver options solverState
  return ((positive, negative), solverState)

/-! ## Merging -/

/-- One state for two at the same location with the same call stack. It behaves
like the left one where the guard holds and like the right one elsewhere. -/
def merge (left right : State) (guard : Term) : ExceptT Fault Fresh State := do
  if left.isTerminated || right.isTerminated then throw (.merge .terminated)
  match left.path.join right.path with
  | none => throw (.merge .location)
  | some path =>
      if left.callStack ≠ right.callStack then throw (.merge .callStack)
      let (condition, _) ← left.condition.merge right.condition guard
      let memory ← left.memory.merge right.memory guard (← Fresh.owner)
      return {
        id := ← Fresh.stateNumber
        callStack := left.callStack
        memory
        condition
        models := left.models ++ right.models
        path
        status := .active }

end State

end SymbolicHeap
