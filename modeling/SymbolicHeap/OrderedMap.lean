/-!
Contract: finite maps that list their entries in ascending order of the keys.

A look-up takes the first entry of its key, so `find?_insert` needs no
invariant: the order of the entries is for listings only.
-/

namespace SymbolicHeap

structure OrderedMap (α β : Type) where
  entries : List (α × β)

namespace OrderedMap

variable {α β : Type}

def empty : OrderedMap α β := ⟨[]⟩

instance : Inhabited (OrderedMap α β) := ⟨.empty⟩

def keys (map : OrderedMap α β) : List α := map.entries.map Prod.fst

def size (map : OrderedMap α β) : Nat := map.entries.length

variable [DecidableEq α]

/-- The value of the first entry of a key. -/
def findEntry (key : α) : List (α × β) → Option β
  | [] => none
  | (head, value) :: tail => if key = head then some value else findEntry key tail

def find? (map : OrderedMap α β) (key : α) : Option β := findEntry key map.entries

def contains (map : OrderedMap α β) (key : α) : Bool := (map.find? key).isSome

@[simp] theorem find?_empty (key : α) : (empty : OrderedMap α β).find? key = none := rfl

/-- The keys of both maps, those of the left map first. -/
def unionKeys (left right : OrderedMap α β) : List α :=
  left.keys ++ right.keys.filter fun key => !left.contains key

variable [Ord α]

/-- Replaces the entry of the key, or places a new one before the first larger
key. -/
def insertEntry (key : α) (value : β) : List (α × β) → List (α × β)
  | [] => [(key, value)]
  | (head, old) :: tail =>
      if key = head then (head, value) :: tail
      else if compare key head = .lt then (key, value) :: (head, old) :: tail
      else (head, old) :: insertEntry key value tail

def insert (map : OrderedMap α β) (key : α) (value : β) : OrderedMap α β :=
  ⟨insertEntry key value map.entries⟩

private theorem findEntry_insertEntry
    (entries : List (α × β))
    (key probe : α)
    (value : β) :
    findEntry probe (insertEntry key value entries) =
      if probe = key then some value else findEntry probe entries := by
  induction entries with
  | nil => rfl
  | cons head tail inductionHypothesis =>
      obtain ⟨headKey, old⟩ := head
      simp only [insertEntry]
      split
      · next replaced =>
          subst replaced
          by_cases same : probe = key <;> simp [findEntry, same]
      · next different =>
          split
          · rfl
          · simp only [findEntry, inductionHypothesis]
            by_cases same : probe = key
            · subst same
              simp [different]
            · simp [same]

@[simp] theorem find?_insert (map : OrderedMap α β) (key probe : α) (value : β) :
    (map.insert key value).find? probe = if probe = key then some value else map.find? probe :=
  findEntry_insertEntry map.entries key probe value

end OrderedMap

end SymbolicHeap
