import SymbolicHeap.ArrayTheory.Value
import SymbolicHeap.Model.Basic
import SymbolicHeap.Options
import SymbolicHeap.PathCondition.Basic

/-!
Contract: questions to a solver about path conditions.

A solver is a value of some type with the operations below; it keeps a stack
of assertions. Checking a condition asserts its literals on top of the stack,
asks for a verdict and a model, and takes the assertions back. With soft
constraints it first looks for a model with small integers.
-/

namespace SymbolicHeap

inductive Verdict where
  | satisfiable
  | unsatisfiable
  | undefined
deriving DecidableEq

def Verdict.text : Verdict → String
  | .satisfiable => "Satisfiable"
  | .unsatisfiable => "Unsatisfiable"
  | .undefined => "Undefined"

/-- The operations of a solver on its own state. -/
structure Solver (σ : Type) where
  push : σ → σ
  assume : Term → σ → σ
  /-- A verdict on all assertions, within some milliseconds. -/
  solve : Nat → σ → Except Fault (Verdict × σ)
  /-- The model of the last verdict. -/
  model? : σ → Option Model × σ
  pop : σ → σ

inductive Outcome where
  | satisfiable (model : Model)
  | unsatisfiable
  | unknown

namespace Outcome

def model? : Outcome → Option Model
  | .satisfiable model => some model
  | .unsatisfiable | .unknown => none

def isSatisfiable (outcome : Outcome) : Bool := outcome.model?.isSome

def text : Outcome → String
  | .satisfiable _ => "sat"
  | .unsatisfiable => "unsat"
  | .unknown => "unknown"

end Outcome

/-- The literals of a condition as terms for a solver. -/
def PathCondition.encode (condition : PathCondition) : Encoding (List Term) :=
  Term.encodeAll condition.constraints

namespace Solver

variable {σ : Type}

/-- Decides some terms together and restores the assertions. A satisfiable
verdict without a model decides nothing. -/
def solveTerms
    (solver : Solver σ)
    (terms : List Term)
    (timeout : Nat)
    (state : σ) :
    Except Fault (Outcome × σ) := do
  let asserted := terms.foldl (fun state term => solver.assume term state) (solver.push state)
  let (verdict, solved) ← solver.solve timeout asserted
  match verdict with
  | .satisfiable =>
      let (model?, answered) := solver.model? solved
      return ((model?.map Outcome.satisfiable).getD .unknown, solver.pop answered)
  | .unsatisfiable => return (.unsatisfiable, solver.pop solved)
  | .undefined => return (.unknown, solver.pop solved)

/-- Decides one term and restores the assertions. -/
def solveTerm
    (solver : Solver σ)
    (term : Term)
    (timeout : Nat)
    (state : σ) :
    Except Fault (Verdict × σ) := do
  let (verdict, solved) ← solver.solve timeout (solver.assume term (solver.push state))
  return (verdict, solver.pop solved)

/-- Decides a path condition. A contradiction needs no solver. -/
def check
    (solver : Solver σ)
    (session : Session)
    (condition : PathCondition)
    (timeout : Nat)
    (state : σ) :
    Except Fault (Outcome × σ) :=
  if condition.isFalse then .ok (.unsatisfiable, state)
  else solver.solveTerms (condition.encode.run session).1 timeout state

/-- Decides a path condition, with the soft constraints first if the options
ask for them. They are dropped unless they lead to a model. -/
def checkSoftly
    (solver : Solver σ)
    (session : Session)
    (condition : PathCondition)
    (options : Options)
    (state : σ) :
    Except Fault (Outcome × σ) :=
  if !options.softConstraints || condition.isFalse then
    solver.check session condition options.solverTimeout state
  else do
    let (hard, session) := condition.encode.run session
    let (soft, _) := (Term.encodeAll (condition.softConstraints options.softBound)).run session
    let (outcome, tried) ← solver.solveTerms (hard ++ soft) options.solverTimeout state
    if outcome.isSatisfiable then return (outcome, tried)
    else solver.solveTerms hard options.solverTimeout tried

end Solver

end SymbolicHeap
