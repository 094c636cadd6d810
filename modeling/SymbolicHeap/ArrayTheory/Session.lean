import SymbolicHeap.Region.Basic

/-!
Contract: the context of encodings to array terms.

A session remembers what it has encoded: terms, and update nodes together
with the array that they were applied to. It also numbers the lambdas that it
introduces, so their parameters never clash.
-/

namespace SymbolicHeap

structure Session where
  /-- Copied ranges of at most this length are written element by element. -/
  unrollLimit : Nat
  values : List (Term × Term)
  logs : List ((NodeId × Term) × Term)
  lambdas : Nat

namespace Session

def defaultUnrollLimit : Nat := 16

def start (unrollLimit : Nat) : Session := ⟨unrollLimit, [], [], 0⟩

def text (session : Session) : String :=
  "TranslationSession [" ++ toString session.values.length ++ " values, " ++
    toString session.logs.length ++ " log nodes]"

end Session

/-- Encodings that cannot fail. -/
abbrev Encoding := StateM Session

/-- Encodings that may stop; what was remembered until then stays. -/
abbrev PartialEncoding := ExceptT Fault Encoding

namespace Encoding

/-- Answers from the session, or encodes a term and remembers the result. -/
def remembered (term : Term) (compute : Encoding Term) : Encoding Term := do
  match term.lookup (← get).values with
  | some result => return result
  | none =>
      let result ← compute
      modify fun session => { session with values := (term, result) :: session.values }
      return result

/-- Like `remembered`, for an update node on top of a base array. -/
def rememberedNode
    (node : NodeId)
    (base : Term)
    (compute : PartialEncoding Term) :
    PartialEncoding Term := do
  match (← get).logs.lookup (node, base) with
  | some result => return result
  | none =>
      let result ← compute
      modify fun session => { session with logs := ((node, base), result) :: session.logs }
      return result

/-- A number for the parameters of a new lambda. -/
def lambdaNumber : Encoding Nat := do
  modify fun session => { session with lambdas := session.lambdas + 1 }
  return (← get).lambdas

end Encoding

end SymbolicHeap
