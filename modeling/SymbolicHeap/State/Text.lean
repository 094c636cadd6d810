import SymbolicHeap.Memory.Text
import SymbolicHeap.PathCondition.Text
import SymbolicHeap.Quoted.Text
import SymbolicHeap.State.Basic

/-!
Contract: printed form and record of a state.
-/

namespace SymbolicHeap

def Location.text (location : Location) : String :=
  recordText "Location"
    [("method", quoted location.method), ("statement", toString location.statement)]

def Status.text : Status → String
  | .active => "Active"
  | .terminated .returned => "Terminated(Returned)"
  | .terminated (.exception name) => "Terminated(Exception(" ++ quoted name ++ "))"

namespace State

def text (state : State) : String :=
  recordText "State"
    [("id", toString state.id),
      ("location", state.location.text),
      ("status", state.status.text),
      ("path_constraints", state.condition.text),
      ("models", toString state.models.length)]

def document (state : State) : Document :=
  .fields
    [("id", .number state.id),
      ("status", .text state.status.text),
      ("location", .fields
        [("method", .text state.location.method),
          ("statement", .number state.location.statement),
          ("depth", .number state.path.depth)]),
      ("call_stack", .list (state.callStack.reverse.map fun frame => .text frame.method)),
      ("registers", .list (state.memory.currentFrame.entries.map fun register =>
        .fields [("index", .number register.1), ("value", .text register.2.text)])),
      ("allocated", .number (state.memory.nextAddress - 1).toNat),
      ("regions", .list (state.memory.summary.map .text)),
      ("path_constraints", termsDocument state.condition.constraints),
      ("models", .number state.models.length)]

/-- The locations from the current one back to the first, each with its depth. -/
def historyDocument (state : State) : Document :=
  .list (state.path.toList.map fun visited =>
    .list [.text visited.1.method, .number visited.1.statement, .number visited.2])

/-- The call frames, the entry method first. -/
def stackDocument (state : State) : Document :=
  .list (state.callStack.reverse.map fun frame =>
    .list [.text frame.method,
      .optional (fun site => .list [.text site.method, .number site.statement])
        frame.returnSite])

def statusDocument (state : State) : Document :=
  .list [.text state.status.text, .flag state.isTerminated, .text state.location.method,
    .number state.location.statement]

end State

end SymbolicHeap
