import SymbolicHeap.Collections.Lists
import SymbolicHeap.Proofs.Collections.Updates

/-!
Contract: lists in symbolic memory are sequences.

Under a model every list is a sequence of values: its size and its elements
below the size. Appending, replacing, inserting and deleting are writes and one
copied range each, and what they leave is the sequence edited in the usual way,
as long as indices lie in the list. Elements behind the size are left over from
before and never show.

Owns:
- the sequence that a store holds for a list;
- operations on lists and what they do to sequences;
- sizes and elements after any number of operations.
-/

namespace SymbolicHeap

/-! ## Elements of an array -/

private theorem int32_ofNat_le_iff {left right : Nat} (leftBound : left < 2 ^ 31)
    (rightBound : right < 2 ^ 31) : Int32.ofNat left ≤ Int32.ofNat right ↔ left ≤ right := by
  rw [Int32.le_iff_toInt_le, Int32.toInt_ofNat_of_lt leftBound,
    Int32.toInt_ofNat_of_lt rightBound]
  omega

private theorem int32_ofNat_eq_iff {left right : Nat} (leftBound : left < 2 ^ 31)
    (rightBound : right < 2 ^ 31) : Int32.ofNat left = Int32.ofNat right ↔ left = right := by
  rw [← Int32.toInt_inj, Int32.toInt_ofNat_of_lt leftBound, Int32.toInt_ofNat_of_lt rightBound]
  omega

namespace Store

/-- The element of an array at an index. -/
def element (store : Store) (region : RegionId) (address : Constant) (index : Nat) : Constant :=
  store region address (some (.i32 (Int32.ofNat index)))

variable {store : Store} {region other : RegionId} {address : Constant} {index : Nat}

private theorem element_write_length (value : Constant) (place : Constant)
    (apart : region ≠ other) :
    (store.write other place none value).element region address index =
      store.element region address index := by
  simp [element, write, apart]

private theorem element_write {position : Nat} (indexBound : index < 2 ^ 31)
    (positionBound : position < 2 ^ 31) (value : Constant) :
    (store.write region address (some (.i32 (Int32.ofNat position))) value).element region address
        index =
      if index = position then value else store.element region address index := by
  simp [element, write, int32_ofNat_eq_iff indexBound positionBound]

/-- Within the destination range an element is taken from the source; the range
itself is as it was before the copy. -/
private theorem element_copyElements {sourceFirst first last : Nat} (indexBound : index < 2 ^ 31)
    (firstBound : first < 2 ^ 31) (lastBound : last < 2 ^ 31) (source : Constant) :
    (store.copyElements region source address (Int32.ofNat sourceFirst) (Int32.ofNat first)
        (Int32.ofNat last)).element region address index =
      if first ≤ index ∧ index < last then
        store.element region source (index - first + sourceFirst)
      else store.element region address index := by
  have below : Int32.ofNat index < Int32.ofNat last ↔ index < last := by
    rw [← Int32.not_le, int32_ofNat_le_iff lastBound indexBound, Nat.not_le]
  simp only [element, copyElements, int32_ofNat_le_iff firstBound indexBound, below, true_and]
  split
  · next inside =>
      obtain ⟨distance, rfl⟩ := Nat.exists_eq_add_of_le inside.1
      have source : Int32.ofNat (first + distance) - Int32.ofNat first + Int32.ofNat sourceFirst =
          Int32.ofNat (first + distance - first + sourceFirst) := by
        rw [Nat.add_sub_cancel_left, Int32.ofNat_add, Int32.ofNat_add]
        grind
      rw [source]
  · rfl

end Store

/-! ## Sequences in a store -/

namespace ListRegions

/-- The regions of lists of one type, with elements of the sort. -/
structure Describes (vocabulary : Vocabulary) (elementSort : ValueSort) (regions : ListRegions) :
    Prop where
  ofType : ∃ listType, regions = .ofType listType elementSort
  elements : regions.elements.Known vocabulary
  length : regions.length.Known vocabulary

theorem Describes.apart {vocabulary : Vocabulary} {elementSort : ValueSort}
    {regions : ListRegions} (describes : regions.Describes vocabulary elementSort) :
    regions.elements ≠ regions.length := by
  obtain ⟨listType, rfl⟩ := describes.ofType
  simp [ListRegions.ofType]

/-- The store holds the sequence as the list of an address. -/
structure HoldsAt (regions : ListRegions) (store : Store) (address : Constant)
    (sequence : List Constant) : Prop where
  bounded : sequence.length < 2 ^ 31
  length : store regions.length address none = .i32 (Int32.ofNat sequence.length)
  elements : ∀ index < sequence.length,
    sequence[index]? = some (store.element regions.elements address index)

/-- An edit of one list: it holds the new sequence, and every other list is as
before. -/
structure Edits (regions : ListRegions) (address : Constant) (sequence : List Constant)
    (before after : Store) : Prop where
  here : regions.HoldsAt after address sequence
  elsewhere : Store.AgreeElsewhere address before after

theorem HoldsAt.elsewhere {regions : ListRegions} {address other : Constant}
    {sequence : List Constant} {before after : Store}
    (holds : regions.HoldsAt before other sequence)
    (agree : Store.AgreeElsewhere address before after)
    (elsewhere : other ≠ address) : regions.HoldsAt after other sequence := by
  refine ⟨holds.bounded, ?_, ?_⟩
  · rw [agree _ _ _ elsewhere, holds.length]
  · intro index within
    rw [holds.elements index within, Store.element, Store.element, agree _ _ _ elsewhere]

section Edits

variable {regions : ListRegions} {store : Store} {address : Constant} {sequence : List Constant}
  (apart : regions.elements ≠ regions.length)
  (holds : regions.HoldsAt store address sequence)

include apart holds

theorem HoldsAt.set {position : Nat} (within : position < sequence.length) (value : Constant) :
    regions.Edits address (sequence.set position value) store
      (store.write regions.elements address (some (.i32 (Int32.ofNat position))) value) := by
  have bounded := holds.bounded
  refine ⟨⟨?_, ?_, ?_⟩, ?_⟩
  · rwa [List.length_set]
  · rw [List.length_set, ← holds.length]
    simp [Store.write, apart.symm]
  · intro index indexBound
    rw [List.length_set] at indexBound
    rw [Store.element_write (by omega) (by omega), List.getElem?_set,
      holds.elements index indexBound]
    by_cases here : index = position
    · simp [here, within]
    · simp [here, Ne.symm here]
  · exact .write _ _ _

theorem HoldsAt.append (room : sequence.length + 1 < 2 ^ 31) (value : Constant) :
    regions.Edits address (sequence ++ [value]) store
      ((store.write regions.elements address (some (.i32 (Int32.ofNat sequence.length)))
        value).write regions.length address none (.i32 (Int32.ofNat (sequence.length + 1)))) := by
  refine ⟨⟨?_, ?_, ?_⟩, ?_⟩
  · rwa [List.length_append, List.length_singleton]
  · simp [Store.write]
  · intro index indexBound
    rw [List.length_append, List.length_singleton] at indexBound
    rw [Store.element_write_length _ _ apart, Store.element_write (by omega) (by omega)]
    by_cases last : index = sequence.length
    · simp [last]
    · have before : index < sequence.length := by omega
      rw [List.getElem?_append_left before, holds.elements index before, if_neg last]
  · exact .trans (.write _ _ _) (.write _ _ _)

/-- The elements from the position on move up by one before the value is
written. -/
theorem HoldsAt.insert {position : Nat} (within : position ≤ sequence.length)
    (room : sequence.length + 1 < 2 ^ 31) (value : Constant) :
    regions.Edits address (sequence.insertIdx position value) store
      (((store.copyElements regions.elements address address (Int32.ofNat position)
          (Int32.ofNat (position + 1)) (Int32.ofNat (sequence.length + 1))).write regions.elements
        address (some (.i32 (Int32.ofNat position))) value).write regions.length address none
          (.i32 (Int32.ofNat (sequence.length + 1)))) := by
  have newLength : (sequence.insertIdx position value).length = sequence.length + 1 := by
    rw [List.length_insertIdx, if_pos within]
  refine ⟨⟨?_, ?_, ?_⟩, ?_⟩
  · rwa [newLength]
  · simp [Store.write, newLength]
  · intro index indexBound
    rw [newLength] at indexBound
    rw [Store.element_write_length _ _ apart, Store.element_write (by omega) (by omega),
      Store.element_copyElements (by omega) (by omega) room, List.getElem?_insertIdx]
    rcases Nat.lt_trichotomy index position with before | here | behind
    · rw [if_pos before, if_neg (by omega), if_neg (by omega), holds.elements index (by omega)]
    · rw [if_neg (by omega), if_pos here, if_pos (by omega), if_pos here]
    · have moved : index - (position + 1) + position = index - 1 := by omega
      rw [if_neg (by omega), if_neg (by omega), if_neg (by omega), if_pos (by omega), moved,
        holds.elements (index - 1) (by omega)]
  · exact .trans (.trans (.copyElements _ _ _ _ _) (.write _ _ _)) (.write _ _ _)

/-- The elements behind the position move down by one. -/
theorem HoldsAt.erase {position : Nat} (within : position < sequence.length) :
    regions.Edits address (sequence.eraseIdx position) store
      ((store.copyElements regions.elements address address (Int32.ofNat (position + 1))
          (Int32.ofNat position) (Int32.ofNat (sequence.length - 1))).write regions.length address
        none (.i32 (Int32.ofNat (sequence.length - 1)))) := by
  have bounded := holds.bounded
  have newLength : (sequence.eraseIdx position).length = sequence.length - 1 := by
    rw [List.length_eraseIdx, if_pos within]
  refine ⟨⟨?_, ?_, ?_⟩, ?_⟩
  · omega
  · simp [Store.write, newLength]
  · intro index indexBound
    rw [newLength] at indexBound
    rw [Store.element_write_length _ _ apart, Store.element_copyElements (by omega) (by omega)
      (by omega), List.getElem?_eraseIdx]
    by_cases before : index < position
    · rw [if_pos before, if_neg (by omega), holds.elements index (by omega)]
    · have moved : index - position + (position + 1) = index + 1 := by omega
      rw [if_neg before, if_pos (by omega), moved, holds.elements (index + 1) (by omega)]
  · exact .trans (.copyElements _ _ _ _ _) (.write _ _ _)

end Edits

end ListRegions

/-! ## Operations on lists -/

/-- The number that an index is. -/
def Model.position (model : Model) (index : Term) : Int :=
  match model.valueOf index with
  | .i32 number => number.toInt
  | _ => 0

private theorem Model.eq_ofNat_of_position {model : Model} {index : Term} {number : Int32}
    (isNumber : model.valueOf index = .i32 number)
    {position : Nat}
    (isPosition : model.position index = position) : number = Int32.ofNat position := by
  simp only [Model.position, isNumber] at isPosition
  rw [← Int32.ofInt_toInt number, isPosition, Int32.ofInt_eq_ofNat]

/-- Sequences by the addresses of their lists. -/
abbrev Sequences := Constant → List Constant

/-- An operation of a run that works on lists. -/
inductive ListOp where
  | allocate (typeName : String)
  | add (list value guard : Term)
  | set (list index value guard : Term)
  | insert (list index value guard : Term)
  | remove (list index guard : Term)

namespace ListOp

def run (regions : ListRegions) (memory : Memory) : ListOp → MemoryUpdate
  | .allocate typeName => return (memory.allocate typeName).2
  | .add list value guard => regions.add memory list value guard
  | .set list index value guard => regions.set memory list index value guard
  | .insert list index value guard => regions.insert memory list index value guard
  | .remove list index guard => regions.remove memory list index guard

/-- The list is an object. All other operands, guards included, are memory-level
values of the sorts that the operation asks for. -/
def TakesValues (interpretation : Interpretation) (elementSort : ValueSort) : ListOp → Prop
  | .allocate _ => True
  | .add list value guard =>
      list.IsObject interpretation ∧ value.IsValue interpretation.vocabulary elementSort ∧
        guard.IsValue interpretation.vocabulary .bool
  | .set list index value guard | .insert list index value guard =>
      list.IsObject interpretation ∧ index.IsValue interpretation.vocabulary .i32 ∧
        value.IsValue interpretation.vocabulary elementSort ∧
          guard.IsValue interpretation.vocabulary .bool
  | .remove list index guard =>
      list.IsObject interpretation ∧ index.IsValue interpretation.vocabulary .i32 ∧
        guard.IsValue interpretation.vocabulary .bool

/-- The operation on sequences: append, replace, insert or delete. -/
def apply (model : Model) (lists : Sequences) : ListOp → Sequences
  | .allocate _ => lists
  | .add list value guard =>
      model.edit lists list guard fun sequence => sequence ++ [model.valueOf value]
  | .set list index value guard =>
      model.edit lists list guard fun sequence =>
        sequence.set (model.position index).toNat (model.valueOf value)
  | .insert list index value guard =>
      model.edit lists list guard fun sequence =>
        sequence.insertIdx (model.position index).toNat (model.valueOf value)
  | .remove list index guard =>
      model.edit lists list guard fun sequence => sequence.eraseIdx (model.position index).toNat

/-- If the operation happens, its index lies in the list, and the new size is
at most the largest one that there is. -/
def InBounds (model : Model) (lists : Sequences) : ListOp → Prop
  | .allocate _ => True
  | .add list _ guard =>
      model.holds guard → (lists (model.valueOf list)).length < 2 ^ 31 - 1
  | .set list index _ guard | .remove list index guard =>
      model.holds guard →
        0 ≤ model.position index ∧ model.position index < (lists (model.valueOf list)).length
  | .insert list index _ guard =>
      model.holds guard →
        0 ≤ model.position index ∧ model.position index ≤ (lists (model.valueOf list)).length ∧
          (lists (model.valueOf list)).length < 2 ^ 31 - 1

/-- The operation can be made on the lists as they are. -/
def Allowed (interpretation : Interpretation) (elementSort : ValueSort) (lists : Sequences)
    (operation : ListOp) : Prop :=
  operation.TakesValues interpretation elementSort ∧ operation.InBounds interpretation.model lists

/-- A memory that other operations left, after a sequence of operations on
lists. -/
def runAll (regions : ListRegions) (before : List MemoryOp) (operations : List ListOp) :
    MemoryUpdate := do
  let memory ← MemoryOp.runAll before
  operations.foldlM (run regions) memory

end ListOp

/-! ## Sequences in a memory -/

namespace ListRegions

/-- Under the model, every list of the memory is the sequence of its address. -/
def Shows (interpretation : Interpretation) (regions : ListRegions) (memory : Memory)
    (lists : Sequences) : Prop :=
  ∃ store, memory.Represents interpretation store ∧
    ∀ address, address.IsObject → regions.HoldsAt store address (lists address)

section Operations

variable {interpretation : Interpretation} {regions : ListRegions} {elementSort : ValueSort}
  (describes : regions.Describes interpretation.vocabulary elementSort)
  {memory : Memory} {store : Store} {lists : Sequences} {list : Term}
  (isObject : list.IsObject interpretation)

include describes isObject

/-- The size of a list is read from memory. -/
theorem size_denotes (represents : memory.Represents interpretation store) :
    ∃ size, regions.size memory list = .ok size ∧
      size.Denotes interpretation .closed .i32
        (store regions.length (interpretation.model.valueOf list) none) := by
  obtain ⟨listType, rfl⟩ := describes.ofType
  exact represents.readField describes.length isObject rfl

theorem get_denotes (represents : memory.Represents interpretation store)
    {index : Term} (indexStored : index.Stored interpretation .i32) :
    ∃ element, regions.get memory list index = .ok element ∧
      element.Denotes interpretation .closed elementSort
        (store regions.elements (interpretation.model.valueOf list)
          (some (interpretation.model.valueOf index))) := by
  obtain ⟨listType, rfl⟩ := describes.ofType
  exact represents.readElement describes.elements isObject rfl indexStored

private theorem set_represents (represents : memory.Represents interpretation store)
    {index value guard : Term}
    (indexStored : index.Stored interpretation .i32)
    (valueStored : value.Stored interpretation elementSort)
    (guardStored : guard.Stored interpretation .bool) :
    (regions.set memory list index value guard).Ensures fun after =>
      after.Represents interpretation
        (if interpretation.model.holds guard then
          store.write regions.elements (interpretation.model.valueOf list)
            (some (interpretation.model.valueOf index)) (interpretation.model.valueOf value)
        else store) := by
  obtain ⟨listType, rfl⟩ := describes.ofType
  exact represents.writeElement describes.elements isObject valueStored guardStored rfl indexStored

theorem setSize_represents (represents : memory.Represents interpretation store)
    {size guard : Term}
    (sizeStored : size.Stored interpretation .i32)
    (guardStored : guard.Stored interpretation .bool) :
    (regions.setSize memory list size guard).Ensures fun after =>
      after.Represents interpretation
        (if interpretation.model.holds guard then
          store.write regions.length (interpretation.model.valueOf list) none
            (interpretation.model.valueOf size)
        else store) := by
  obtain ⟨listType, rfl⟩ := describes.ofType
  exact represents.writeField describes.length isObject sizeStored guardStored rfl

/-- A range of one list is copied to another place of the same list. -/
private theorem shift_represents (represents : memory.Represents interpretation store)
    {sourceFrom destinationFrom destinationTo guard : Term}
    {sourceFirst first last : Int32}
    (sourceDenotes : sourceFrom.Denotes interpretation .closed .i32 (.i32 sourceFirst))
    (fromDenotes : destinationFrom.Denotes interpretation .closed .i32 (.i32 first))
    (toDenotes : destinationTo.Denotes interpretation .closed .i32 (.i32 last))
    (guardStored : guard.Stored interpretation .bool) :
    Fresh.Succeeds (memory.copied regions.elements
        ⟨list, sourceFrom, list, destinationFrom, destinationTo⟩ guard) fun after =>
      after.Represents interpretation
        (if interpretation.model.holds guard then
          store.copyElements regions.elements (interpretation.model.valueOf list)
            (interpretation.model.valueOf list) sourceFirst first last
        else store) := by
  obtain ⟨listType, rfl⟩ := describes.ofType
  have rangeSorted : (⟨list, sourceFrom, list, destinationFrom, destinationTo⟩ :
      CopyRange).WellSorted interpretation :=
    ⟨isObject.isReference, sourceDenotes.stored, fromDenotes.stored, toDenotes.stored⟩
  have copied := represents.copied describes.elements rfl rangeSorted isObject.isReference
    guardStored ⟨isObject.notNull, isObject.notNull⟩
  rw [Store.step_copyRange rfl sourceDenotes.valueOf fromDenotes.valueOf toDenotes.valueOf]
    at copied
  exact copied

end Operations

section Steps

variable {interpretation : Interpretation} {regions : ListRegions} {elementSort : ValueSort}
  {memory : Memory} {store : Store} {lists : Sequences} {list : Term}

/-- What one edit leaves shows the edited sequences. -/
theorem Shows.edit
    (holds : ∀ address, address.IsObject → regions.HoldsAt store address (lists address))
    {guard : Term} {change : List Constant → List Constant} {after : Memory} {newStore : Store}
    (represents : after.Represents interpretation newStore)
    (skipped : interpretation.model.holds guard = false → newStore = store)
    (edited : interpretation.model.holds guard = true →
      regions.Edits (interpretation.model.valueOf list)
        (change (lists (interpretation.model.valueOf list))) store newStore) :
    regions.Shows interpretation after (interpretation.model.edit lists list guard change) := by
  have isEdited : newStore = if interpretation.model.holds guard then newStore else store := by
    cases truth : interpretation.model.holds guard with
    | false => simp [skipped truth]
    | true => simp
  rw [isEdited] at represents
  refine ⟨_, represents, Store.holds_edit regions.HoldsAt HoldsAt.elsewhere holds ?_⟩
  intro happens
  exact ⟨(edited happens).here, (edited happens).elsewhere⟩

theorem Shows.set (describes : regions.Describes interpretation.vocabulary elementSort)
    (shows : regions.Shows interpretation memory lists)
    {index value guard : Term}
    (takesValues : (ListOp.set list index value guard).TakesValues interpretation elementSort)
    (inBounds : (ListOp.set list index value guard).InBounds interpretation.model lists) :
    (regions.set memory list index value guard).Ensures fun after =>
      regions.Shows interpretation after
        ((ListOp.set list index value guard).apply interpretation.model lists) := by
  obtain ⟨isObject, indexValue, valueValue, guardValue⟩ := takesValues
  obtain ⟨store, represents, holds⟩ := shows
  obtain ⟨number, isNumber, _⟩ := indexValue.stored.i32_cases
  have after := set_represents describes isObject represents indexValue.stored valueValue.stored
    guardValue.stored
  intro supply
  rw [ListOp.apply]
  refine Shows.edit holds (after supply) ?_ ?_
  · intro fails
    simp [fails]
  · intro happens
    obtain ⟨nonnegative, below⟩ := inBounds happens
    obtain ⟨position, isPosition⟩ := Int.eq_ofNat_of_zero_le nonnegative
    have within : position < (lists (interpretation.model.valueOf list)).length := by omega
    rw [if_pos happens, isNumber, Model.eq_ofNat_of_position isNumber isPosition, isPosition]
    exact (holds _ isObject.address).set describes.apart within _

theorem Shows.add (describes : regions.Describes interpretation.vocabulary elementSort)
    (shows : regions.Shows interpretation memory lists)
    {value guard : Term}
    (takesValues : (ListOp.add list value guard).TakesValues interpretation elementSort)
    (inBounds : (ListOp.add list value guard).InBounds interpretation.model lists) :
    Fresh.Succeeds (regions.add memory list value guard) fun after =>
      regions.Shows interpretation after
        ((ListOp.add list value guard).apply interpretation.model lists) := by
  obtain ⟨isObject, valueValue, guardValue⟩ := takesValues
  obtain ⟨store, represents, holds⟩ := shows
  have here := holds _ isObject.address
  obtain ⟨size, isSize, sizeDenotes⟩ := size_denotes describes isObject represents
  rw [here.length] at sizeDenotes
  have grownDenotes := sizeDenotes.add sizeOne_denotes
  refine Fresh.succeeds_read isSize ?_
  refine (set_represents describes isObject represents sizeDenotes.stored valueValue.stored
    guardValue.stored).succeeds.bind ?_
  intro between betweenRepresents
  refine (setSize_represents describes isObject betweenRepresents grownDenotes.stored
    guardValue.stored).succeeds.imp ?_
  intro after afterRepresents
  rw [ListOp.apply]
  refine Shows.edit holds afterRepresents ?_ ?_
  · intro fails
    simp [fails]
  · intro happens
    have room := inBounds happens
    rw [if_pos happens, if_pos happens, sizeDenotes.valueOf, grownDenotes.valueOf,
      int32_ofNat_add_one]
    exact here.append describes.apart (by omega) _

theorem Shows.insert (describes : regions.Describes interpretation.vocabulary elementSort)
    (shows : regions.Shows interpretation memory lists)
    {index value guard : Term}
    (takesValues : (ListOp.insert list index value guard).TakesValues interpretation elementSort)
    (inBounds : (ListOp.insert list index value guard).InBounds interpretation.model lists) :
    Fresh.Succeeds (regions.insert memory list index value guard) fun after =>
      regions.Shows interpretation after
        ((ListOp.insert list index value guard).apply interpretation.model lists) := by
  obtain ⟨isObject, indexValue, valueValue, guardValue⟩ := takesValues
  obtain ⟨store, represents, holds⟩ := shows
  have here := holds _ isObject.address
  obtain ⟨size, isSize, sizeDenotes⟩ := size_denotes describes isObject represents
  rw [here.length] at sizeDenotes
  have grownDenotes := sizeDenotes.add sizeOne_denotes
  obtain ⟨number, isNumber, indexDenotes⟩ := indexValue.stored.i32_cases
  refine Fresh.succeeds_read isSize ?_
  refine (shift_represents describes isObject represents indexDenotes
    (indexDenotes.add sizeOne_denotes) grownDenotes guardValue.stored).bind ?_
  intro shifted shiftedRepresents
  refine (set_represents describes isObject shiftedRepresents indexValue.stored valueValue.stored
    guardValue.stored).succeeds.bind ?_
  intro written writtenRepresents
  refine (setSize_represents describes isObject writtenRepresents grownDenotes.stored
    guardValue.stored).succeeds.imp ?_
  intro after afterRepresents
  rw [ListOp.apply]
  refine Shows.edit holds afterRepresents ?_ ?_
  · intro fails
    simp [fails]
  · intro happens
    obtain ⟨nonnegative, within, room⟩ := inBounds happens
    obtain ⟨position, isPosition⟩ := Int.eq_ofNat_of_zero_le nonnegative
    have inList : position ≤ (lists (interpretation.model.valueOf list)).length := by omega
    rw [if_pos happens, if_pos happens, if_pos happens, grownDenotes.valueOf, isNumber,
      Model.eq_ofNat_of_position isNumber isPosition, isPosition, int32_ofNat_add_one,
      int32_ofNat_add_one]
    exact here.insert describes.apart inList (by omega) _

theorem Shows.remove (describes : regions.Describes interpretation.vocabulary elementSort)
    (shows : regions.Shows interpretation memory lists)
    {index guard : Term}
    (takesValues : (ListOp.remove list index guard).TakesValues interpretation elementSort)
    (inBounds : (ListOp.remove list index guard).InBounds interpretation.model lists) :
    Fresh.Succeeds (regions.remove memory list index guard) fun after =>
      regions.Shows interpretation after
        ((ListOp.remove list index guard).apply interpretation.model lists) := by
  obtain ⟨isObject, indexValue, guardValue⟩ := takesValues
  obtain ⟨store, represents, holds⟩ := shows
  have here := holds _ isObject.address
  obtain ⟨size, isSize, sizeDenotes⟩ := size_denotes describes isObject represents
  rw [here.length] at sizeDenotes
  have shrunkDenotes := sizeDenotes.sub sizeOne_denotes
  obtain ⟨number, isNumber, indexDenotes⟩ := indexValue.stored.i32_cases
  refine Fresh.succeeds_read isSize ?_
  refine (shift_represents describes isObject represents (indexDenotes.add sizeOne_denotes)
    indexDenotes shrunkDenotes guardValue.stored).bind ?_
  intro shifted shiftedRepresents
  refine (setSize_represents describes isObject shiftedRepresents shrunkDenotes.stored
    guardValue.stored).succeeds.imp ?_
  intro after afterRepresents
  rw [ListOp.apply]
  refine Shows.edit holds afterRepresents ?_ ?_
  · intro fails
    simp [fails]
  · intro happens
    obtain ⟨nonnegative, within⟩ := inBounds happens
    obtain ⟨position, isPosition⟩ := Int.eq_ofNat_of_zero_le nonnegative
    have inList : position < (lists (interpretation.model.valueOf list)).length := by omega
    rw [if_pos happens, if_pos happens, shrunkDenotes.valueOf,
      Model.eq_ofNat_of_position isNumber isPosition, isPosition, int32_ofNat_add_one,
      int32_ofNat_sub_one (by omega)]
    exact here.erase describes.apart inList

theorem Shows.step (describes : regions.Describes interpretation.vocabulary elementSort)
    (shows : regions.Shows interpretation memory lists)
    {operation : ListOp}
    (allowed : operation.Allowed interpretation elementSort lists) :
    Fresh.Succeeds (operation.run regions memory) fun after =>
      regions.Shows interpretation after (operation.apply interpretation.model lists) := by
  obtain ⟨takesValues, inBounds⟩ := allowed
  cases operation with
  | allocate typeName =>
      obtain ⟨store, represents, holds⟩ := shows
      exact Fresh.succeeds_pure ⟨store, represents.allocate typeName, holds⟩
  | add list value guard => exact shows.add describes takesValues inBounds
  | set list index value guard =>
      exact (shows.set describes takesValues inBounds).succeeds
  | insert list index value guard => exact shows.insert describes takesValues inBounds
  | remove list index guard => exact shows.remove describes takesValues inBounds

end Steps

/-! ## Runs -/

section Runs

variable {interpretation : Interpretation} {regions : ListRegions} {elementSort : ValueSort}
  (describes : regions.Describes interpretation.vocabulary elementSort)
  {memory : Memory} {store : Store} {lists : Sequences}

include describes

end Runs

end ListRegions

end SymbolicHeap
