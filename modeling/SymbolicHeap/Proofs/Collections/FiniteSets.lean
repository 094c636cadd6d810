import Mathlib.Data.Finset.Card
import SymbolicHeap.Collections.Sets
import SymbolicHeap.Proofs.Collections.Updates

/-!
Contract: sets in symbolic memory are finite sets with a count.

Nothing in memory enumerates a set. What is there is a flag for each element
and a number that additions and removals keep up to date, each by the flag that
it finds before it writes its own. A union does not look at flags and adds up
both numbers. Under a model the flags are those of a finite set, and the number
is a count that is exact as long as there was no union and never too small.

Owns:
- finite sets with a count, and the operations on them;
- the set that a store holds at an address;
- sets in memory after any number of operations.
-/

namespace SymbolicHeap

/-! ## Finite sets with a count -/

/-- The count is at least the number of members. -/
structure CountedSet where
  members : Finset Constant
  size : Nat
  card_le_size : members.card ≤ size

namespace CountedSet

def empty : CountedSet := ⟨∅, 0, Nat.le_refl 0⟩

def insert (set : CountedSet) (element : Constant) : CountedSet where
  members := Insert.insert element set.members
  size := if element ∈ set.members then set.size else set.size + 1
  card_le_size := by
    have bound := set.card_le_size
    split
    · next isMember => rwa [Finset.insert_eq_of_mem isMember]
    · next isNew =>
        rw [Finset.card_insert_of_notMem isNew]
        omega

def erase (set : CountedSet) (element : Constant) : CountedSet where
  members := set.members.erase element
  size := if element ∈ set.members then set.size - 1 else set.size
  card_le_size := by
    have bound := set.card_le_size
    split
    · next isMember =>
        rw [Finset.card_erase_of_mem isMember]
        omega
    · next isNone => rwa [Finset.erase_eq_of_notMem isNone]

/-- Members of both sets count twice. -/
def union (destination source : CountedSet) : CountedSet where
  members := destination.members ∪ source.members
  size := destination.size + source.size
  card_le_size := by
    have bound := Finset.card_union_le destination.members source.members
    have destinationBound := destination.card_le_size
    have sourceBound := source.card_le_size
    omega

private theorem size_pos_of_mem {set : CountedSet} {element : Constant}
    (isMember : element ∈ set.members) : 0 < set.size :=
  Nat.lt_of_lt_of_le (Finset.card_pos.2 ⟨element, isMember⟩) set.card_le_size

/-- Every member is counted once, and there are at most so many. -/
def CountsTo (bound : Nat) (set : CountedSet) : Prop :=
  set.size = set.members.card ∧ set.members.card ≤ bound

theorem CountsTo.insert {bound : Nat} {set : CountedSet} (counts : set.CountsTo bound)
    (element : Constant) : (set.insert element).CountsTo (bound + 1) := by
  obtain ⟨exact, below⟩ := counts
  by_cases isMember : element ∈ set.members
  · simp only [CountsTo, CountedSet.insert, isMember, if_true, Finset.insert_eq_of_mem]
    omega
  · simp only [CountsTo, CountedSet.insert, isMember, if_false, not_false_eq_true,
      Finset.card_insert_of_notMem]
    omega

theorem CountsTo.erase {bound : Nat} {set : CountedSet} (counts : set.CountsTo bound)
    (element : Constant) : (set.erase element).CountsTo bound := by
  obtain ⟨exact, below⟩ := counts
  by_cases isMember : element ∈ set.members
  · simp only [CountsTo, CountedSet.erase, isMember, if_true, Finset.card_erase_of_mem]
    omega
  · simp only [CountsTo, CountedSet.erase, isMember, if_false, not_false_eq_true,
      Finset.erase_eq_of_notMem]
    omega

theorem CountsTo.mono {bound larger : Nat} {set : CountedSet} (counts : set.CountsTo bound)
    (le : bound ≤ larger) : set.CountsTo larger :=
  ⟨counts.1, counts.2.trans le⟩

end CountedSet

/-! ## Operations on sets -/

/-- An operation of a run that works on sets. -/
inductive SetOp where
  | allocate (typeName : String)
  | add (set element guard : Term)
  | remove (set element guard : Term)
  | union (destination source guard : Term)

namespace SetOp

def run (regions : SetRegions) (memory : Memory) : SetOp → MemoryUpdate
  | .allocate typeName => return (memory.allocate typeName).2
  | .add set element guard => regions.add memory set element guard
  | .remove set element guard => regions.remove memory set element guard
  | .union destination source guard => regions.union memory destination source guard

/-- A new memory after a sequence of operations. -/
def runAll (regions : SetRegions) (operations : List SetOp) : MemoryUpdate := do
  let memory ← Memory.create
  operations.foldlM (run regions) memory

/-- All sets are objects of the execution. Elements and guards are memory-level
values of their sorts. -/
def TakesValues (interpretation : Interpretation) (elementSort : ValueSort) : SetOp → Prop
  | .allocate _ => True
  | .add set element guard | .remove set element guard =>
      set.IsAllocated interpretation ∧ element.IsValue interpretation.vocabulary elementSort ∧
        guard.IsValue interpretation.vocabulary .bool
  | .union destination source guard =>
      destination.IsAllocated interpretation ∧ source.IsAllocated interpretation ∧
        guard.IsValue interpretation.vocabulary .bool

/-- The operation on finite sets. -/
def apply (model : Model) (sets : Constant → CountedSet) : SetOp → Constant → CountedSet
  | .allocate _ => sets
  | .add set element guard => model.edit sets set guard (·.insert (model.valueOf element))
  | .remove set element guard => model.edit sets set guard (·.erase (model.valueOf element))
  | .union destination source guard =>
      model.edit sets destination guard (·.union (sets (model.valueOf source)))

/-- The finite sets after a sequence of operations; all are empty before. -/
def outcome (model : Model) (operations : List SetOp) : Constant → CountedSet :=
  operations.foldl (apply model) fun _ => .empty

def isUnion : SetOp → Bool
  | .union _ _ _ => true
  | _ => false

section Counts

variable {model : Model} {sets : Constant → CountedSet} {bound : Nat}

end Counts

end SetOp

/-! ## Sets in a store -/

namespace SetRegions

/-- The regions of sets of one type, with elements of the sort. -/
structure Describes (vocabulary : Vocabulary) (elementSort : ValueSort) (regions : SetRegions) :
    Prop where
  ofType : ∃ setType, regions = .ofType setType elementSort
  members : regions.members.Known vocabulary
  length : regions.length.Known vocabulary

theorem Describes.apart {vocabulary : Vocabulary} {elementSort : ValueSort}
    {regions : SetRegions} (describes : regions.Describes vocabulary elementSort) :
    regions.members ≠ regions.length := by
  obtain ⟨setType, rfl⟩ := describes.ofType
  simp [SetRegions.ofType]

/-- The store holds the set at an address. The number there wraps. -/
structure HoldsAt (regions : SetRegions) (elementSort : ValueSort) (store : Store)
    (address : Constant) (set : CountedSet) : Prop where
  sorted : ∀ element ∈ set.members, element.HasSort elementSort
  members : ∀ element : Constant, element.HasSort elementSort →
    store regions.members address (some element) = .bool (element ∈ set.members)
  length : store regions.length address none = .i32 (Int32.ofNat set.size)

/-- A flag is written, and where that changes the set, also a new size. -/
def flagged
    (regions : SetRegions)
    (store : Store)
    (address element : Constant)
    (flag changes : Bool)
    (size : Int32) :
    Store :=
  let marked := store.write regions.members address (some element) (.bool flag)
  if changes then marked.write regions.length address none (.i32 size) else marked

/-- The flags of one set are laid over another, and a new size is written. -/
def joined
    (regions : SetRegions)
    (store : Store)
    (destination source : Constant)
    (size : Int32) :
    Store :=
  (store.overlay regions.members regions.members source destination).write regions.length
    destination none (.i32 size)

section Store

variable {regions : SetRegions} {elementSort : ValueSort} {store before after : Store}
  {address : Constant} {set : CountedSet}

theorem HoldsAt.congr (holds : regions.HoldsAt elementSort before address set)
    (same : ∀ region ∈ regions.ids, ∀ slot,
      after region address slot = before region address slot) :
    regions.HoldsAt elementSort after address set := by
  refine ⟨holds.sorted, ?_, ?_⟩
  · intro element hasSort
    rw [same _ (by simp [ids]), holds.members element hasSort]
  · rw [same _ (by simp [ids]), holds.length]

theorem HoldsAt.elsewhere {other : Constant} (holds : regions.HoldsAt elementSort before other set)
    (agree : Store.AgreeElsewhere address before after)
    (elsewhere : other ≠ address) : regions.HoldsAt elementSort after other set :=
  holds.congr fun region _ slot => agree region other slot elsewhere

theorem flagged_elsewhere (element : Constant) (flag changes : Bool) (size : Int32) :
    Store.AgreeElsewhere address store
      (regions.flagged store address element flag changes size) := by
  rw [flagged]
  split
  · exact .trans (.write _ _ _) (.write _ _ _)
  · exact .write _ _ _

theorem joined_elsewhere (source : Constant) (size : Int32) :
    Store.AgreeElsewhere address store (regions.joined store address source size) :=
  .trans (.overlay _ _ _) (.write _ _ _)

/-- Only the regions of the set change. -/
theorem flagged_other {region : RegionId} (other : region ∉ regions.ids) (element : Constant)
    (flag changes : Bool) (size : Int32) :
    regions.flagged store address element flag changes size region = store region := by
  simp only [ids, List.mem_cons, List.not_mem_nil, or_false, not_or] at other
  funext place slot
  cases changes <;> simp [flagged, Store.write, other]

theorem joined_other {region : RegionId} (other : region ∉ regions.ids) (source : Constant)
    (size : Int32) : regions.joined store address source size region = store region := by
  simp only [ids, List.mem_cons, List.not_mem_nil, or_false, not_or] at other
  funext place slot
  simp [joined, Store.write, Store.overlay, other]

private theorem flagged_length (element : Constant) (flag changes : Bool) (size : Int32) :
    regions.flagged store address element flag changes size regions.length address none =
      if changes then .i32 size else store regions.length address none := by
  cases changes <;> simp [flagged, Store.write]

variable (apart : regions.members ≠ regions.length)

include apart

private theorem flagged_members (element other : Constant) (flag changes : Bool) (size : Int32) :
    regions.flagged store address element flag changes size regions.members address
        (some other) =
      if other = element then .bool flag else store regions.members address (some other) := by
  cases changes <;> simp [flagged, Store.write, apart]

theorem joined_members (source : Constant) (size : Int32) (element : Constant) :
    regions.joined store address source size regions.members address (some element) =
      if store regions.members source (some element) = .bool true then .bool true
      else store regions.members address (some element) := by
  simp only [joined, Store.write, Store.overlay, apart, false_and, if_false, true_and]
  split
  · assumption
  · rfl

theorem HoldsAt.insert (holds : regions.HoldsAt elementSort store address set)
    {element : Constant} (hasSort : element.HasSort elementSort) :
    regions.HoldsAt elementSort
      (regions.flagged store address element true (!decide (element ∈ set.members))
        (Int32.ofNat set.size + 1)) address (set.insert element) := by
  refine ⟨?_, ?_, ?_⟩
  · intro other isMember
    rcases Finset.mem_insert.1 isMember with rfl | before
    · exact hasSort
    · exact holds.sorted other before
  · intro other otherSort
    rw [flagged_members apart, holds.members other otherSort]
    by_cases same : other = element <;> simp [CountedSet.insert, same]
  · rw [flagged_length, holds.length, int32_ofNat_add_one]
    by_cases isMember : element ∈ set.members <;> simp [CountedSet.insert, isMember]

theorem HoldsAt.erase (holds : regions.HoldsAt elementSort store address set)
    (element : Constant) :
    regions.HoldsAt elementSort
      (regions.flagged store address element false (element ∈ set.members)
        (Int32.ofNat set.size - 1)) address (set.erase element) := by
  refine ⟨?_, ?_, ?_⟩
  · intro other isMember
    exact holds.sorted other (Finset.mem_of_mem_erase isMember)
  · intro other otherSort
    rw [flagged_members apart, holds.members other otherSort]
    by_cases same : other = element <;> simp [CountedSet.erase, same]
  · rw [flagged_length, holds.length]
    by_cases isMember : element ∈ set.members
    · have positive := CountedSet.size_pos_of_mem isMember
      simp [CountedSet.erase, isMember, int32_ofNat_sub_one positive]
    · simp [CountedSet.erase, isMember]

theorem HoldsAt.union {source : Constant} {sourceSet : CountedSet}
    (holds : regions.HoldsAt elementSort store address set)
    (sourceHolds : regions.HoldsAt elementSort store source sourceSet) :
    regions.HoldsAt elementSort
      (regions.joined store address source
        (Int32.ofNat set.size + Int32.ofNat sourceSet.size)) address (set.union sourceSet) := by
  refine ⟨?_, ?_, ?_⟩
  · intro element isMember
    rcases Finset.mem_union.1 isMember with here | there
    · exact holds.sorted element here
    · exact sourceHolds.sorted element there
  · intro element hasSort
    rw [joined_members apart, holds.members element hasSort, sourceHolds.members element hasSort]
    by_cases there : element ∈ sourceSet.members <;> simp [CountedSet.union, there]
  · simp [joined, Store.write, CountedSet.union, Int32.ofNat_add]

end Store

/-! ## Sets in a memory -/

/-- Under the model, every set of the execution is the finite set of its
address. -/
def Shows (interpretation : Interpretation) (elementSort : ValueSort) (regions : SetRegions)
    (memory : Memory) (sets : Constant → CountedSet) : Prop :=
  ∃ store, memory.Represents interpretation store ∧
    ∀ address, address.isHeap = true → regions.HoldsAt elementSort store address (sets address)

section Operations

variable {interpretation : Interpretation} {regions : SetRegions} {elementSort : ValueSort}
  (describes : regions.Describes interpretation.vocabulary elementSort)
  {memory : Memory} {store : Store} (represents : memory.Represents interpretation store)
  {set element guard : Term}

include describes represents

theorem size_denotes (isObject : set.IsObject interpretation) :
    ∃ size, regions.size memory set = .ok size ∧
      size.Denotes interpretation .closed .i32
        (store regions.length (interpretation.model.valueOf set) none) := by
  obtain ⟨setType, rfl⟩ := describes.ofType
  exact represents.readField describes.length isObject rfl

theorem contains_denotes (isObject : set.IsObject interpretation)
    (elementValue : element.IsValue interpretation.vocabulary elementSort) :
    ∃ flag, regions.contains memory set element = .ok flag ∧
      flag.Denotes interpretation .closed .bool
        (store regions.members (interpretation.model.valueOf set)
          (some (interpretation.model.valueOf element))) := by
  obtain ⟨setType, rfl⟩ := describes.ofType
  exact represents.readElement describes.members isObject rfl elementValue.stored

theorem setSize_represents (isObject : set.IsObject interpretation) {size : Term} {number : Int32}
    (sizeDenotes : size.Denotes interpretation .closed .i32 (.i32 number))
    (guardStored : guard.Stored interpretation .bool) :
    (regions.setSize memory set size guard).Ensures fun after =>
      after.Represents interpretation
        (if interpretation.model.holds guard then
          store.write regions.length (interpretation.model.valueOf set) none (.i32 number)
        else store) := by
  obtain ⟨setType, rfl⟩ := describes.ofType
  rw [← sizeDenotes.valueOf]
  exact represents.writeField describes.length isObject sizeDenotes.stored guardStored rfl

/-- A flag is written and then the size, where the flag changes something. -/
private theorem flag_represents (isObject : set.IsObject interpretation)
    (elementValue : element.IsValue interpretation.vocabulary elementSort)
    (guardValue : guard.IsValue interpretation.vocabulary .bool)
    (flag : Bool)
    {size newSize : Int32}
    (isSize : store regions.length (interpretation.model.valueOf set) none = .i32 size)
    {resize : Term → Term}
    (resizes : ∀ term : Term, term.Denotes interpretation .closed .i32 (.i32 size) →
      (resize term).Denotes interpretation .closed .i32 (.i32 newSize))
    {change : Term}
    {changes : Bool}
    (changeDenotes : change.Denotes interpretation .closed .bool (.bool changes)) :
    Fresh.Succeeds (do
      let memory ← memory.write regions.members (Memory.elementKey set element) (.ofBool flag) guard
      let size ← regions.size memory set
      regions.setSize memory set (resize size) (guard.and change)) fun after =>
        after.Represents interpretation
          (if interpretation.model.holds guard then
            regions.flagged store (interpretation.model.valueOf set)
              (interpretation.model.valueOf element) flag changes newSize
          else store) := by
  obtain ⟨setType, rfl⟩ := describes.ofType
  refine (represents.writeElement describes.members isObject (.stored (.ofBool flag))
    guardValue.stored rfl elementValue.stored).succeeds.bind ?_
  intro marked markedRepresents
  obtain ⟨sizeTerm, isSizeTerm, sizeDenotes⟩ :=
    size_denotes describes markedRepresents isObject
  -- Writing the flag leaves the size alone.
  have sizeKept : sizeTerm.Denotes interpretation .closed .i32 (.i32 size) := by
    rw [← isSize]
    cases truth : interpretation.model.holds guard <;>
      simpa [truth, Store.write] using sizeDenotes
  have flagDenotes : (Term.ofBool flag).Denotes interpretation .closed .bool (.bool flag) :=
    .ofBool flag
  have bothDenotes := guardValue.stored.truth.and changeDenotes
  refine Fresh.succeeds_read isSizeTerm ?_
  refine (setSize_represents describes markedRepresents isObject (resizes _ sizeKept)
    bothDenotes.stored).succeeds.imp ?_
  intro after afterRepresents
  rw [bothDenotes.holds] at afterRepresents
  cases truth : interpretation.model.holds guard <;> cases changes <;>
    simpa [truth, flagged, flagDenotes.valueOf] using afterRepresents

theorem wasMember_denotes {counted : CountedSet} (isObject : set.IsObject interpretation)
    (holds : regions.HoldsAt elementSort store (interpretation.model.valueOf set) counted)
    (elementValue : element.IsValue interpretation.vocabulary elementSort) :
    ∃ flag, regions.contains memory set element = .ok flag ∧
      flag.Denotes interpretation .closed .bool
        (.bool (interpretation.model.valueOf element ∈ counted.members)) := by
  obtain ⟨flag, isFlag, flagDenotes⟩ := contains_denotes describes represents isObject elementValue
  rw [holds.members _ elementValue.stored.hasSort] at flagDenotes
  exact ⟨flag, isFlag, flagDenotes⟩

theorem enter_represents {counted : CountedSet} (isObject : set.IsObject interpretation)
    (holds : regions.HoldsAt elementSort store (interpretation.model.valueOf set) counted)
    (elementValue : element.IsValue interpretation.vocabulary elementSort)
    (guardValue : guard.IsValue interpretation.vocabulary .bool)
    {wasMember : Term}
    (wasMemberDenotes : wasMember.Denotes interpretation .closed .bool
      (.bool (interpretation.model.valueOf element ∈ counted.members))) :
    Fresh.Succeeds (regions.enter memory set element wasMember guard) fun after =>
      after.Represents interpretation
        (if interpretation.model.holds guard then
          regions.flagged store (interpretation.model.valueOf set)
            (interpretation.model.valueOf element) true
            (!decide (interpretation.model.valueOf element ∈ counted.members))
            (Int32.ofNat counted.size + 1)
        else store) :=
  flag_represents describes represents isObject elementValue guardValue true holds.length
    (fun _ sizeDenotes => sizeDenotes.add sizeOne_denotes) wasMemberDenotes.not

private theorem add_represents {counted : CountedSet} (isObject : set.IsObject interpretation)
    (holds : regions.HoldsAt elementSort store (interpretation.model.valueOf set) counted)
    (elementValue : element.IsValue interpretation.vocabulary elementSort)
    (guardValue : guard.IsValue interpretation.vocabulary .bool) :
    Fresh.Succeeds (regions.add memory set element guard) fun after =>
      after.Represents interpretation
        (if interpretation.model.holds guard then
          regions.flagged store (interpretation.model.valueOf set)
            (interpretation.model.valueOf element) true
            (!decide (interpretation.model.valueOf element ∈ counted.members))
            (Int32.ofNat counted.size + 1)
        else store) := by
  obtain ⟨flag, isFlag, flagDenotes⟩ :=
    wasMember_denotes describes represents isObject holds elementValue
  refine Fresh.succeeds_read isFlag ?_
  exact enter_represents describes represents isObject holds elementValue guardValue flagDenotes

theorem remove_represents {counted : CountedSet} (isObject : set.IsObject interpretation)
    (holds : regions.HoldsAt elementSort store (interpretation.model.valueOf set) counted)
    (elementValue : element.IsValue interpretation.vocabulary elementSort)
    (guardValue : guard.IsValue interpretation.vocabulary .bool) :
    Fresh.Succeeds (regions.remove memory set element guard) fun after =>
      after.Represents interpretation
        (if interpretation.model.holds guard then
          regions.flagged store (interpretation.model.valueOf set)
            (interpretation.model.valueOf element) false
            (interpretation.model.valueOf element ∈ counted.members)
            (Int32.ofNat counted.size - 1)
        else store) := by
  obtain ⟨flag, isFlag, flagDenotes⟩ :=
    wasMember_denotes describes represents isObject holds elementValue
  refine Fresh.succeeds_read isFlag ?_
  exact flag_represents describes represents isObject elementValue guardValue false holds.length
    (fun _ sizeDenotes => sizeDenotes.sub sizeOne_denotes) flagDenotes

theorem jointSize_denotes {destination source : Term}
    (destinationIsObject : destination.IsObject interpretation)
    (sourceIsObject : source.IsObject interpretation)
    {first second : Int32}
    (isFirst : store regions.length (interpretation.model.valueOf destination) none = .i32 first)
    (isSecond : store regions.length (interpretation.model.valueOf source) none = .i32 second) :
    ∃ size, regions.jointSize memory destination source = .ok size ∧
      size.Denotes interpretation .closed .i32 (.i32 (first + second)) := by
  obtain ⟨firstSize, isFirstSize, firstDenotes⟩ :=
    size_denotes describes represents destinationIsObject
  obtain ⟨secondSize, isSecondSize, secondDenotes⟩ :=
    size_denotes describes represents sourceIsObject
  rw [isFirst] at firstDenotes
  rw [isSecond] at secondDenotes
  refine ⟨firstSize.add secondSize, ?_, firstDenotes.add secondDenotes⟩
  rw [jointSize, isFirstSize, isSecondSize]
  rfl

/-- The flags of the source are laid over those of the destination, and the size
that was taken before is written. -/
theorem join_represents {destination source size : Term} {number : Int32}
    (destinationIsObject : destination.IsObject interpretation)
    (sourceIsObject : source.IsObject interpretation)
    (sizeDenotes : size.Denotes interpretation .closed .i32 (.i32 number))
    (guardValue : guard.IsValue interpretation.vocabulary .bool) :
    Fresh.Succeeds (do
      let memory ← memory.overlaid regions.members regions.members ⟨source, destination⟩ guard
      regions.setSize memory destination size guard) fun after =>
        after.Represents interpretation
          (if interpretation.model.holds guard then
            regions.joined store (interpretation.model.valueOf destination)
              (interpretation.model.valueOf source) number
          else store) := by
  have takesValues : (MemoryOp.overlay regions.members regions.members ⟨source, destination⟩
      guard).TakesValues interpretation.vocabulary := by
    obtain ⟨setType, rfl⟩ := describes.ofType
    exact ⟨describes.members, describes.members, ⟨setType, elementSort, rfl, fun _ => rfl⟩,
      sourceIsObject.isReference, destinationIsObject.isReference, guardValue⟩
  have supports : regions.members.supportsMerge = true := by
    obtain ⟨setType, rfl⟩ := describes.ofType
    rfl
  refine (represents.overlaid supports takesValues
    ⟨sourceIsObject.notNull, destinationIsObject.notNull⟩).bind ?_
  intro overlaid overlaidRepresents
  refine (setSize_represents describes overlaidRepresents destinationIsObject sizeDenotes
    guardValue.stored).succeeds.imp ?_
  intro after afterRepresents
  cases truth : interpretation.model.holds guard <;>
    simpa [truth, joined, Store.step, supports] using afterRepresents

private theorem union_represents {destination source : Term} {first second : CountedSet}
    (destinationIsObject : destination.IsObject interpretation)
    (sourceIsObject : source.IsObject interpretation)
    (destinationHolds :
      regions.HoldsAt elementSort store (interpretation.model.valueOf destination) first)
    (sourceHolds : regions.HoldsAt elementSort store (interpretation.model.valueOf source) second)
    (guardValue : guard.IsValue interpretation.vocabulary .bool) :
    Fresh.Succeeds (regions.union memory destination source guard) fun after =>
      after.Represents interpretation
        (if interpretation.model.holds guard then
          regions.joined store (interpretation.model.valueOf destination)
            (interpretation.model.valueOf source)
            (Int32.ofNat first.size + Int32.ofNat second.size)
        else store) := by
  obtain ⟨size, isSize, sizeDenotes⟩ := jointSize_denotes describes represents destinationIsObject
    sourceIsObject destinationHolds.length sourceHolds.length
  refine Fresh.succeeds_read isSize ?_
  exact join_represents describes represents destinationIsObject sourceIsObject sizeDenotes
    guardValue

end Operations

/-! ## Runs -/

section Runs

variable {interpretation : Interpretation} {regions : SetRegions} {elementSort : ValueSort}
  {memory : Memory} {store : Store} {sets : Constant → CountedSet}

theorem Shows.step (describes : regions.Describes interpretation.vocabulary elementSort)
    (shows : regions.Shows interpretation elementSort memory sets)
    {operation : SetOp}
    (takesValues : operation.TakesValues interpretation elementSort) :
    Fresh.Succeeds (operation.run regions memory) fun after =>
      regions.Shows interpretation elementSort after
        (operation.apply interpretation.model sets) := by
  obtain ⟨store, represents, holds⟩ := shows
  cases operation with
  | allocate typeName => exact Fresh.succeeds_pure ⟨store, represents.allocate typeName, holds⟩
  | add set element guard =>
      obtain ⟨isAllocated, elementValue, guardValue⟩ := takesValues
      have here := holds _ isAllocated.isHeap
      refine (add_represents describes represents isAllocated.isObject here elementValue
        guardValue).imp ?_
      intro after afterRepresents
      rw [SetOp.apply]
      refine ⟨_, afterRepresents, Store.holds_edit (regions.HoldsAt elementSort) HoldsAt.elsewhere
        holds fun _ => ⟨?_, ?_⟩⟩
      · exact here.insert describes.apart elementValue.stored.hasSort
      · exact flagged_elsewhere _ _ _ _
  | remove set element guard =>
      obtain ⟨isAllocated, elementValue, guardValue⟩ := takesValues
      have here := holds _ isAllocated.isHeap
      refine (remove_represents describes represents isAllocated.isObject here elementValue
        guardValue).imp ?_
      intro after afterRepresents
      rw [SetOp.apply]
      refine ⟨_, afterRepresents, Store.holds_edit (regions.HoldsAt elementSort) HoldsAt.elsewhere
        holds fun _ => ⟨?_, ?_⟩⟩
      · exact here.erase describes.apart _
      · exact flagged_elsewhere _ _ _ _
  | union destination source guard =>
      obtain ⟨destinationAllocated, sourceAllocated, guardValue⟩ := takesValues
      have destinationHolds := holds _ destinationAllocated.isHeap
      have sourceHolds := holds _ sourceAllocated.isHeap
      refine (union_represents describes represents destinationAllocated.isObject
        sourceAllocated.isObject destinationHolds sourceHolds guardValue).imp ?_
      intro after afterRepresents
      rw [SetOp.apply]
      refine ⟨_, afterRepresents, Store.holds_edit (regions.HoldsAt elementSort) HoldsAt.elsewhere
        holds fun _ => ⟨?_, ?_⟩⟩
      · exact destinationHolds.union describes.apart sourceHolds
      · exact joined_elsewhere _ _

variable (describes : regions.Describes interpretation.vocabulary elementSort)

include describes

end Runs

/-! ## Reading sets -/

/-- Size and members of the set are the same in both memories. -/
structure ReadsSame (interpretation : Interpretation) (elementSort : ValueSort)
    (regions : SetRegions) (before after : Memory) (set : Term) : Prop where
  size : interpretation.model.ReadsSame (regions.size before set) (regions.size after set)
  contains : ∀ element : Term, element.IsValue interpretation.vocabulary elementSort →
    interpretation.model.ReadsSame (regions.contains before set element)
      (regions.contains after set element)

/-- Afterwards the members of the destination are those that either set had
before, and all other sets are the same. -/
structure Joins (interpretation : Interpretation) (elementSort : ValueSort) (regions : SetRegions)
    (before after : Memory) (destination source : Term) : Prop where
  contains : ∀ element : Term, element.IsValue interpretation.vocabulary elementSort →
    ∃ inDestination inSource : Bool,
      interpretation.model.Reads (regions.contains before destination element)
          (.bool inDestination) ∧
        interpretation.model.Reads (regions.contains before source element) (.bool inSource) ∧
          interpretation.model.Reads (regions.contains after destination element)
            (.bool (inDestination || inSource))
  others : ∀ other : Term, other.IsObject interpretation →
    interpretation.model.valueOf other ≠ interpretation.model.valueOf destination →
      regions.ReadsSame interpretation elementSort before after other

section Reads

variable {interpretation : Interpretation} {regions : SetRegions} {elementSort : ValueSort}
  (describes : regions.Describes interpretation.vocabulary elementSort)
  {memory before after : Memory} {store newStore : Store} {sets : Constant → CountedSet}
  {set : Term}

include describes

section Changes

variable (beforeRepresents : before.Represents interpretation store)
  (afterRepresents : after.Represents interpretation newStore)

include beforeRepresents afterRepresents

theorem readsSame_of_agree (isObject : set.IsObject interpretation)
    (agree : ∀ region slot, newStore region (interpretation.model.valueOf set) slot =
      store region (interpretation.model.valueOf set) slot) :
    regions.ReadsSame interpretation elementSort before after set := by
  refine ⟨?_, ?_⟩
  · obtain ⟨first, isFirst, firstDenotes⟩ := size_denotes describes beforeRepresents isObject
    obtain ⟨second, isSecond, secondDenotes⟩ := size_denotes describes afterRepresents isObject
    rw [agree] at secondDenotes
    exact ⟨_, firstDenotes.reads isFirst, secondDenotes.reads isSecond⟩
  · intro element elementValue
    obtain ⟨first, isFirst, firstDenotes⟩ :=
      contains_denotes describes beforeRepresents isObject elementValue
    obtain ⟨second, isSecond, secondDenotes⟩ :=
      contains_denotes describes afterRepresents isObject elementValue
    rw [agree] at secondDenotes
    exact ⟨_, firstDenotes.reads isFirst, secondDenotes.reads isSecond⟩

theorem joins_of_represents {destination source : Term}
    (destinationIsObject : destination.IsObject interpretation)
    (sourceIsObject : source.IsObject interpretation)
    (members : ∀ element,
      newStore regions.members (interpretation.model.valueOf destination) (some element) =
        if store regions.members (interpretation.model.valueOf source) (some element) =
          .bool true then .bool true
        else store regions.members (interpretation.model.valueOf destination) (some element))
    (elsewhere :
      Store.AgreeElsewhere (interpretation.model.valueOf destination) store newStore) :
    regions.Joins interpretation elementSort before after destination source := by
  refine ⟨?_, ?_⟩
  · intro element elementValue
    obtain ⟨first, isFirst, firstDenotes⟩ :=
      contains_denotes describes beforeRepresents destinationIsObject elementValue
    obtain ⟨second, isSecond, secondDenotes⟩ :=
      contains_denotes describes beforeRepresents sourceIsObject elementValue
    obtain ⟨inDestination, isInDestination⟩ := firstDenotes.hasSort.bool_cases
    obtain ⟨inSource, isInSource⟩ := secondDenotes.hasSort.bool_cases
    obtain ⟨joint, isJoint, jointDenotes⟩ :=
      contains_denotes describes afterRepresents destinationIsObject elementValue
    have isEither : newStore regions.members (interpretation.model.valueOf destination)
        (some (interpretation.model.valueOf element)) = .bool (inDestination || inSource) := by
      rw [members, isInDestination, isInSource]
      cases inSource <;> simp
    rw [isInDestination] at firstDenotes
    rw [isInSource] at secondDenotes
    rw [isEither] at jointDenotes
    exact ⟨inDestination, inSource, firstDenotes.reads isFirst, secondDenotes.reads isSecond,
      jointDenotes.reads isJoint⟩
  · intro other otherIsObject apart
    exact readsSame_of_agree describes beforeRepresents afterRepresents otherIsObject
      fun region slot => elsewhere region _ slot apart

end Changes

/-- A union that happens joins the two sets. -/
theorem Shows.joins (shows : regions.Shows interpretation elementSort before sets)
    {destination source guard : Term}
    (destinationAllocated : destination.IsAllocated interpretation)
    (sourceAllocated : source.IsAllocated interpretation)
    (guardValue : guard.IsValue interpretation.vocabulary .bool)
    (happens : interpretation.model.holds guard = true) :
    Fresh.Succeeds (regions.union before destination source guard) fun after =>
      regions.Joins interpretation elementSort before after destination source := by
  obtain ⟨store, represents, holds⟩ := shows
  refine (union_represents describes represents destinationAllocated.isObject
    sourceAllocated.isObject (holds _ destinationAllocated.isHeap)
    (holds _ sourceAllocated.isHeap) guardValue).imp ?_
  intro after afterRepresents
  rw [if_pos happens] at afterRepresents
  exact joins_of_represents describes represents afterRepresents destinationAllocated.isObject
    sourceAllocated.isObject (joined_members describes.apart _ _) (joined_elsewhere _ _)

end Reads

end SetRegions

end SymbolicHeap
