import SymbolicHeap.Model.Cached
import SymbolicHeap.Solver.Basic
import SymbolicHeap.Term.Text

/-!
Contract: solvers that need no search.

The candidate solver takes the first model of a given list that satisfies all
assertions, and keeps a record of the calls it gets. A script can make it give
up, deny or withhold its model. The undecided solver answers nothing.
-/

namespace SymbolicHeap

/-- What a script makes of a verdict. -/
inductive Override where
  | none
  | giveUp
  | deny
  | withhold

/-- The override that a word of a script stands for. -/
def Override.ofWord : String → Override
  | "unknown" => .giveUp
  | "unsat" => .deny
  | "nomodel" => .withhold
  | _ => .none

inductive SolverCall where
  | push
  | assume (term : Term)
  | solve (timeout : Nat)
  | model
  | pop

namespace SolverCall

def text : SolverCall → String
  | .push => "push"
  | .assume term => "assert " ++ term.text
  | .solve timeout => "solve " ++ toString timeout
  | .model => "model"
  | .pop => "pop"

def isAssume : SolverCall → Bool
  | .assume _ => true
  | _ => false

/-- Places a line among the lines of a block that starts a list of blocks. -/
def insertLine (line : String) : List (Bool × String) → List (Bool × String)
  | (true, head) :: tail =>
      if head < line then (true, head) :: insertLine line tail
      else (true, line) :: (true, head) :: tail
  | lines => (true, line) :: lines

/-- The printed calls; consecutive assertions stand in ascending order. -/
def texts (calls : List SolverCall) : List String :=
  let lines := calls.foldr
    (fun call lines =>
      if call.isAssume then insertLine call.text lines else (false, call.text) :: lines)
    []
  lines.map Prod.snd

end SolverCall

structure CandidateState where
  candidates : List Model
  script : List Override
  /-- Assertions by frame, innermost first. -/
  frames : List (List Term)
  found : Option Model
  /-- Calls so far, the latest first. -/
  calls : List SolverCall

namespace CandidateState

def start (candidates : List Model) (script : List Override) : CandidateState :=
  ⟨candidates, script, [[]], none, []⟩

def record (state : CandidateState) (call : SolverCall) : CandidateState :=
  { state with calls := call :: state.calls }

/-- Whether a term evaluates to true. -/
def holds (model : Model) (term : Term) : Except Fault Bool := do
  return (← model.evaluate term) = some (.bool true)

def holdsAll (model : Model) : List Term → Except Fault Bool
  | [] => .ok true
  | term :: rest => do if ← holds model term then holdsAll model rest else return false

/-- The first candidate that satisfies some terms. -/
def firstModel (terms : List Term) : List Model → Except Fault (Option Model)
  | [] => .ok none
  | model :: rest => do
      if ← holdsAll model terms then return some model else firstModel terms rest

/-- All assertions, the oldest first. -/
def assertions (state : CandidateState) : List Term :=
  (state.frames.map List.reverse).reverse.flatten

def push (state : CandidateState) : CandidateState :=
  { state.record .push with frames := [] :: state.frames }

def assume (term : Term) (state : CandidateState) : CandidateState :=
  let frames :=
    match state.frames with
    | frame :: outer => (term :: frame) :: outer
    | [] => [[term]]
  { state.record (.assume term) with frames }

def pop (state : CandidateState) : CandidateState :=
  { state.record .pop with frames := state.frames.tail }

def solve (timeout : Nat) (state : CandidateState) :
    Except Fault (Verdict × CandidateState) := do
  let found ← firstModel state.assertions state.candidates
  let next := { state.record (.solve timeout) with found, script := state.script.tail }
  match state.script.head?.getD .none with
  | .giveUp => return (.undefined, next)
  | .deny => return (.unsatisfiable, next)
  | .withhold => return (.satisfiable, { next with found := none })
  | .none => return (if found.isSome then .satisfiable else .unsatisfiable, next)

def solver : Solver CandidateState where
  push := push
  assume := assume
  solve := solve
  model? := fun state => (state.found, state.record .model)
  pop := pop

end CandidateState

/-- A solver that decides nothing. -/
def Solver.undecided : Solver Unit where
  push := id
  assume := fun _ => id
  solve := fun _ state => .ok (.undefined, state)
  model? := fun state => (none, state)
  pop := id

/-- How the undecided solver shows any term. -/
def Solver.undecidedText : String := "not implemented"

end SymbolicHeap
