/-!
Contract: identities that are handed out once.

Update nodes, owners and states are told apart by number. A run threads one
supply through everything that it creates, so no two creations share a number.
-/

namespace SymbolicHeap

/-- Identity of one node of an update log. -/
structure NodeId where
  number : Nat
deriving DecidableEq

/-- Identity of the holder of a memory or a region. -/
structure Owner where
  number : Nat
deriving DecidableEq

structure Supply where
  nodes : Nat
  owners : Nat
  states : Nat

def Supply.initial : Supply := ⟨0, 0, 0⟩

/-- Computations that may create something with an identity of its own. -/
abbrev Fresh := StateM Supply

namespace Fresh

def node : Fresh NodeId := fun supply =>
  (⟨supply.nodes⟩, { supply with nodes := supply.nodes + 1 })

def owner : Fresh Owner := fun supply =>
  (⟨supply.owners⟩, { supply with owners := supply.owners + 1 })

def stateNumber : Fresh Nat := fun supply =>
  (supply.states, { supply with states := supply.states + 1 })

end Fresh

end SymbolicHeap
