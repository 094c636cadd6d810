import SymbolicHeap.PathCondition.Literal

/-!
Contract: recorded literals, in order of arrival.

A set answers whether a literal was recorded, and a list beside it keeps the
order. Only an insertion changes them, and it changes both or neither, so they
always have the same literals.
-/

namespace SymbolicHeap

structure LiteralSet where
  /-- The set. Its own order means nothing. -/
  members : List Term
  /-- The same literals, the first one to arrive first. -/
  ordered : List Term
  inStep : ∀ literal, literal ∈ members ↔ literal ∈ ordered

namespace LiteralSet

def empty : LiteralSet := ⟨[], [], fun _ => .rfl⟩

instance : Membership Term LiteralSet := ⟨fun set literal => literal ∈ set.members⟩

instance (literal : Term) (set : LiteralSet) : Decidable (literal ∈ set) :=
  inferInstanceAs (Decidable (literal ∈ set.members))

theorem mem_ordered {set : LiteralSet} {literal : Term} :
    literal ∈ set.ordered ↔ literal ∈ set :=
  (set.inStep literal).symm

/-- Adds a literal unless it is there. -/
def insert (set : LiteralSet) (literal : Term) : LiteralSet :=
  if literal ∈ set then set
  else
    { members := literal :: set.members
      ordered := set.ordered ++ [literal]
      inStep := by
        intro other
        rw [List.mem_cons, List.mem_append, List.mem_singleton, set.inStep, or_comm] }

theorem ordered_insert (set : LiteralSet) (literal : Term) :
    (set.insert literal).ordered =
      if literal ∈ set then set.ordered else set.ordered ++ [literal] := by
  rw [insert]
  split <;> rfl

theorem mem_insert {set : LiteralSet} {literal member : Term} :
    member ∈ set.insert literal ↔ member ∈ set ∨ member = literal := by
  rw [insert]
  split
  · next present =>
      constructor
      · exact .inl
      · rintro (recorded | rfl)
        · exact recorded
        · exact present
  · exact List.mem_cons.trans or_comm

/-- Both sets have the same literals. As many of them, all of which are in the
other set, are taken for the same. -/
def sameMembers (left right : LiteralSet) : Bool :=
  left.ordered.length = right.ordered.length &&
    left.ordered.all fun literal => literal ∈ right

end LiteralSet

end SymbolicHeap
