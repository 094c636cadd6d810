import SymbolicHeap.Proofs.Heap.Ancestry
import SymbolicHeap.Proofs.Heap.Operations

/-!
Contract: the nodes of a run, each with the log that it heads.

Logs are told apart by the identities of their nodes. That is sound because an
identity is handed out once: a node that two logs share heads the same log in
both. A history keeps that log for every node handed out so far, and a region
is recorded when its own logs, and those of all regions that its entries read
from, are logs of the history.

Owns:
- histories and recorded regions, whose logs are chained;
- updates and runs, which extend the history by the nodes that they create.
-/

namespace SymbolicHeap

/-! ## Histories -/

/-- The log that each node heads. -/
structure History where
  log : NodeId → Log
  /-- How many nodes were handed out. -/
  nodes : Nat

/-- What was handed out before is as it was. -/
structure History.Extends (older newer : History) : Prop where
  nodes : older.nodes ≤ newer.nodes
  log : ∀ id : NodeId, id.number < older.nodes → newer.log id = older.log id

namespace History.Extends

theorem refl (history : History) : history.Extends history := ⟨Nat.le_refl _, fun _ _ => rfl⟩

theorem trans {older between newer : History} (first : older.Extends between)
    (second : between.Extends newer) : older.Extends newer where
  nodes := Nat.le_trans first.nodes second.nodes
  log := by
    intro id known
    rw [second.log id (Nat.lt_of_lt_of_le known first.nodes), first.log id known]

end History.Extends

mutual

/-- The logs of the region are logs of the history, and so are those of the
regions it holds. -/
def Region.Recorded (history : History) : Region → Prop
  | ⟨_, objects, input, _⟩ => ObjectsRecorded history objects ∧ LogRecorded history input

def ObjectsRecorded (history : History) : List ObjectStore → Prop
  | [] => True
  | ⟨_, _, updates⟩ :: rest => LogRecorded history updates ∧ ObjectsRecorded history rest

def LogRecorded (history : History) : List Node → Prop
  | [] => True
  | ⟨id, entry, length⟩ :: older =>
      id.number < history.nodes ∧ history.log id = ⟨id, entry, length⟩ :: older ∧
        length = older.length + 1 ∧ entry.Recorded history ∧ LogRecorded history older

def Entry.Recorded (history : History) : Entry → Prop
  | .write _ _ _ => True
  | .copy source _ _ => source.Recorded history
  | .overlay source members _ _ => source.Recorded history ∧ members.Recorded history

end

section Recorded

variable {older newer : History}

mutual

/-- What was recorded stays so. -/
theorem Region.Recorded.mono (extended : older.Extends newer) :
    (region : Region) → region.Recorded older → region.Recorded newer
  | ⟨_, objects, input, _⟩, recorded => by
      rw [Region.Recorded] at recorded ⊢
      exact ⟨ObjectsRecorded.mono extended objects recorded.1,
        LogRecorded.mono extended input recorded.2⟩

theorem ObjectsRecorded.mono (extended : older.Extends newer) :
    (objects : List ObjectStore) → ObjectsRecorded older objects → ObjectsRecorded newer objects
  | [], _ => by rw [ObjectsRecorded]; trivial
  | ⟨_, _, updates⟩ :: rest, recorded => by
      rw [ObjectsRecorded] at recorded ⊢
      exact ⟨LogRecorded.mono extended updates recorded.1,
        ObjectsRecorded.mono extended rest recorded.2⟩

theorem LogRecorded.mono (extended : older.Extends newer) :
    (log : List Node) → LogRecorded older log → LogRecorded newer log
  | [], _ => by rw [LogRecorded]; trivial
  | ⟨id, entry, _⟩ :: rest, recorded => by
      rw [LogRecorded] at recorded ⊢
      obtain ⟨known, isLog, isLength, entryRecorded, restRecorded⟩ := recorded
      exact ⟨Nat.lt_of_lt_of_le known extended.nodes, (extended.log id known).trans isLog,
        isLength, Entry.Recorded.mono extended entry entryRecorded,
        LogRecorded.mono extended rest restRecorded⟩

theorem Entry.Recorded.mono (extended : older.Extends newer) :
    (entry : Entry) → entry.Recorded older → entry.Recorded newer
  | .write _ _ _, _ => by rw [Entry.Recorded]; trivial
  | .copy source _ _, recorded => by
      rw [Entry.Recorded] at recorded ⊢
      exact Region.Recorded.mono extended source recorded
  | .overlay source members _ _, recorded => by
      rw [Entry.Recorded] at recorded ⊢
      exact ⟨Region.Recorded.mono extended source recorded.1,
        Region.Recorded.mono extended members recorded.2⟩

end

end Recorded

section Logs

variable {history : History} {log : Log}

private theorem logRecorded_cons {node : Node} :
    LogRecorded history (node :: log) ↔
      node.id.number < history.nodes ∧ history.log node.id = node :: log ∧
        node.length = log.length + 1 ∧ node.entry.Recorded history ∧
          LogRecorded history log := by
  obtain ⟨id, entry, length⟩ := node
  rw [LogRecorded]

theorem LogRecorded.entry (recorded : LogRecorded history log) {node : Node}
    (member : node ∈ log) : node.entry.Recorded history := by
  induction log with
  | nil => simp at member
  | cons head rest inductionHypothesis =>
      obtain ⟨_, _, _, headRecorded, restRecorded⟩ := logRecorded_cons.1 recorded
      rcases List.mem_cons.1 member with rfl | inRest
      · exact headRecorded
      · exact inductionHypothesis restRecorded inRest

theorem LogRecorded.of_suffix {shorter : Log} (recorded : LogRecorded history log)
    (suffix : shorter <:+ log) : LogRecorded history shorter := by
  induction log with
  | nil =>
      rw [List.suffix_nil.1 suffix]
      exact recorded
  | cons node rest inductionHypothesis =>
      rcases List.suffix_cons_iff.1 suffix with rfl | inRest
      · exact recorded
      · exact inductionHypothesis (logRecorded_cons.1 recorded).2.2.2.2 inRest

/-- The nodes of a recorded log head the logs of the history. -/
theorem LogRecorded.chained (recorded : LogRecorded history log) : log.Chained history.log := by
  induction log with
  | nil => trivial
  | cons node rest inductionHypothesis =>
      obtain ⟨_, isLog, isLength, _, restRecorded⟩ := logRecorded_cons.1 recorded
      exact ⟨isLog, isLength, inductionHypothesis restRecorded⟩

end Logs

/-! ## Computations that create nodes -/

/-- The computation extends the history by the nodes that it creates, and its
result has a property there. -/
def Fresh.Records {α : Type} (action : Fresh α) (history : History)
    (property : History → α → Prop) : Prop :=
  ∀ supply : Supply, supply.nodes = history.nodes →
    ∃ newer : History, history.Extends newer ∧ newer.nodes = (action.run supply).2.nodes ∧
      property newer (action.run supply).1

namespace Fresh

variable {α β : Type} {history : History}

theorem records_pure {property : History → α → Prop} {value : α}
    (holds : property history value) : Records (pure value) history property :=
  fun _ sameNodes => ⟨history, .refl history, sameNodes.symm, holds⟩

theorem Records.bind {first : Fresh α} {next : α → Fresh β} {between : History → α → Prop}
    {property : History → β → Prop}
    (firstRecords : Records first history between)
    (nextRecords : ∀ newer value, history.Extends newer → between newer value →
      Records (next value) newer property) :
    Records (first >>= next) history property := by
  intro supply sameNodes
  obtain ⟨middle, extended, middleNodes, holds⟩ := firstRecords supply sameNodes
  obtain ⟨newer, furtherExtended, newerNodes, nextHolds⟩ :=
    nextRecords middle _ extended holds (first.run supply).2 middleNodes.symm
  exact ⟨newer, extended.trans furtherExtended, newerNodes, nextHolds⟩

theorem Records.imp {action : Fresh α} {property other : History → α → Prop}
    (records : Records action history property)
    (implies : ∀ newer value, history.Extends newer → property newer value → other newer value) :
    Records action history other := by
  intro supply sameNodes
  obtain ⟨newer, extended, newerNodes, holds⟩ := records supply sameNodes
  exact ⟨newer, extended, newerNodes, implies newer _ extended holds⟩

theorem Records.map {action : Fresh α} {change : α → β} {between : History → α → Prop}
    {property : History → β → Prop}
    (records : Records action history between)
    (implies : ∀ newer value, history.Extends newer → between newer value →
      property newer (change value)) :
    Records (do return change (← action)) history property :=
  records.bind fun newer value extended holds => records_pure (implies newer value extended holds)

/-- A property that holds whatever identities are handed out is a property of
the result, too. -/
theorem Records.and {action : Fresh α} {property : History → α → Prop} {always : α → Prop}
    (records : Records action history property) (ensures : action.Ensures always) :
    Records action history fun newer value => property newer value ∧ always value := by
  intro supply sameNodes
  obtain ⟨newer, extended, newerNodes, holds⟩ := records supply sameNodes
  exact ⟨newer, extended, newerNodes, holds, ensures supply⟩

private theorem records_foldlM {step : β → α → Fresh β} {property : History → β → Prop}
    {items : List α} {start : β}
    (each : ∀ newer value, ∀ item ∈ items, history.Extends newer → property newer value →
      Records (step value item) newer property)
    (holds : property history start) :
    Records (items.foldlM step start) history property := by
  induction items generalizing history start with
  | nil => exact records_pure holds
  | cons item rest inductionHypothesis =>
      rw [List.foldlM_cons]
      refine (each history start item List.mem_cons_self (.refl history) holds).bind ?_
      intro middle value extended middleHolds
      refine inductionHypothesis ?_ middleHolds
      intro newer next item member furtherExtended
      exact each newer next item (List.mem_cons_of_mem _ member) (extended.trans furtherExtended)

/-- A computation that may fail extends the history either way; the property
holds of what it returns. -/
def RecordsOk (action : ExceptT Fault Fresh α) (history : History)
    (property : History → α → Prop) : Prop :=
  Records action.run history fun newer outcome =>
    ∀ value, outcome = .ok value → property newer value

theorem recordsOk_pure {property : History → α → Prop} {value : α}
    (holds : property history value) : RecordsOk (pure value) history property := by
  refine records_pure ?_
  rintro _ ⟨⟩
  exact holds

theorem recordsOk_throw {property : History → α → Prop} (fault : Fault) :
    RecordsOk (throw fault) history property :=
  records_pure fun _ isOk => nomatch isOk

theorem Records.ok {action : Fresh α} {property : History → α → Prop}
    (records : Records action history property) :
    RecordsOk (liftM action) history property := by
  show Records (do return Except.ok (← action)) history _
  refine records.map ?_
  rintro newer value _ holds _ ⟨⟩
  exact holds

/-- A check before a computation. -/
theorem recordsOk_check {check : Except Fault α} {next : α → ExceptT Fault Fresh β}
    {property : History → β → Prop}
    (records : ∀ value, check = .ok value → RecordsOk (next value) history property) :
    RecordsOk (liftM check >>= next) history property := by
  cases check with
  | ok value => exact records value rfl
  | error fault => exact recordsOk_throw fault

theorem RecordsOk.bind {first : ExceptT Fault Fresh α} {next : α → ExceptT Fault Fresh β}
    {between : History → α → Prop}
    {property : History → β → Prop}
    (firstRecords : RecordsOk first history between)
    (nextRecords : ∀ newer value, history.Extends newer → between newer value →
      RecordsOk (next value) newer property) :
    RecordsOk (first >>= next) history property := by
  rw [RecordsOk, ExceptT.run_bind]
  refine Records.bind firstRecords ?_
  intro newer outcome extended holds
  cases outcome with
  | ok value => exact nextRecords newer value extended (holds value rfl)
  | error fault => exact recordsOk_throw fault

/-- A fold that may fail; the property speaks of the items so far. -/
theorem recordsOk_foldlM {step : β → α → ExceptT Fault Fresh β}
    (property : History → List α → β → Prop)
    {items past : List α}
    {start : β}
    (each : ∀ newer past value, ∀ item ∈ items, history.Extends newer → property newer past value →
      RecordsOk (step value item) newer fun further next => property further (item :: past) next)
    (holds : property history past start) :
    RecordsOk (items.foldlM step start) history fun newer result =>
      property newer (items.reverse ++ past) result := by
  induction items generalizing history past start with
  | nil => exact recordsOk_pure holds
  | cons item rest inductionHypothesis =>
      rw [List.foldlM_cons, List.reverse_cons, List.append_assoc]
      refine (each history past start item List.mem_cons_self (.refl history) holds).bind ?_
      intro middle value extended middleHolds
      refine inductionHypothesis ?_ middleHolds
      intro newer past next item member furtherExtended
      exact each newer past next item (List.mem_cons_of_mem _ member)
        (extended.trans furtherExtended)

end Fresh

/-! ## Runs -/

/-- In some history of all nodes handed out, all that a run made has the
property. -/
def AllHold {α : Type} (property : History → α → Prop) (made : List α) (supply : Supply) : Prop :=
  ∃ history : History, supply.nodes = history.nodes ∧ ∀ item ∈ made, property history item

namespace AllHold

variable {α : Type} {property : History → α → Prop} {made : List α} {supply : Supply}

theorem start (supply : Supply) : AllHold property [] supply :=
  ⟨⟨fun _ => [], supply.nodes⟩, rfl, by simp⟩

theorem addOutcome (all : AllHold property made supply)
    (mono : ∀ {older newer : History} {item : α}, older.Extends newer → property older item →
      property newer item)
    {action : ExceptT Fault Fresh α}
    (records : ∀ history, (∀ item ∈ made, property history item) →
      Fresh.RecordsOk action history property) :
    AllHold property ((action.run.run supply).1.toOption.toList ++ made)
      (action.run.run supply).2 := by
  obtain ⟨history, sameNodes, holds⟩ := all
  obtain ⟨newer, extended, newerNodes, outcomeHolds⟩ := records history holds supply sameNodes
  refine ⟨newer, newerNodes.symm, fun item member => ?_⟩
  rcases List.mem_append.1 member with isNew | before
  · apply outcomeHolds
    cases outcome : (action.run.run supply).1 with
    | ok result =>
        rw [outcome] at isNew
        rw [List.mem_singleton.1 isNew]
    | error fault =>
        rw [outcome] at isNew
        exact absurd isNew List.not_mem_nil
  · exact mono extended (holds item before)

theorem add (all : AllHold property made supply)
    (mono : ∀ {older newer : History} {item : α}, older.Extends newer → property older item →
      property newer item)
    {action : Fresh α}
    (records : ∀ history, (∀ item ∈ made, property history item) →
      action.Records history property) :
    AllHold property ((action.run supply).1 :: made) (action.run supply).2 :=
  all.addOutcome mono fun history holds => (records history holds).ok

end AllHold

/-- A new node heads the log that it was pushed on. -/
theorem Log.push_extends (history : History) (log : Log) (entry : Entry) :
    (Log.push log entry).Records history fun newer result =>
      ∃ id, result = ⟨id, entry, log.size + 1⟩ :: log ∧ id.number < newer.nodes ∧
        newer.log id = result := by
  intro supply sameNodes
  let pushed : Log := ⟨⟨supply.nodes⟩, entry, log.size + 1⟩ :: log
  let newer : History :=
    ⟨fun id => if id.number = supply.nodes then pushed else history.log id, supply.nodes + 1⟩
  have extended : history.Extends newer := by
    refine ⟨?_, ?_⟩
    · show history.nodes ≤ supply.nodes + 1
      omega
    · intro id known
      have different : id.number ≠ supply.nodes := by omega
      exact if_neg different
  exact ⟨newer, extended, rfl, ⟨supply.nodes⟩, rfl, Nat.lt_succ_self _, if_pos rfl⟩

theorem Log.push_records {history : History} {log : Log} {entry : Entry}
    (recorded : LogRecorded history log) (entryRecorded : entry.Recorded history) :
    (Log.push log entry).Records history fun newer result =>
      LogRecorded newer result ∧ ∃ id, result = ⟨id, entry, log.size + 1⟩ :: log := by
  refine (Log.push_extends history log entry).imp ?_
  rintro newer _ extended ⟨id, rfl, known, isLog⟩
  refine ⟨logRecorded_cons.2 ⟨known, isLog, ?_, ?_, ?_⟩, id, rfl⟩
  · exact congrArg (· + 1) recorded.chained.size
  · exact Entry.Recorded.mono extended entry entryRecorded
  · exact LogRecorded.mono extended log recorded

/-! ## Updates of a region -/

private theorem objectsRecorded_iff {history : History} {objects : List ObjectStore} :
    ObjectsRecorded history objects ↔
      ∀ object ∈ objects, LogRecorded history object.updates := by
  induction objects with
  | nil => simp [ObjectsRecorded]
  | cons object rest inductionHypothesis =>
      obtain ⟨address, values, updates⟩ := object
      rw [ObjectsRecorded, List.forall_mem_cons, inductionHypothesis]

namespace Region

variable {history : History} {region : Region}

theorem recorded_iff :
    region.Recorded history ↔
      (∀ object ∈ region.objects, LogRecorded history object.updates) ∧
        LogRecorded history region.input := by
  obtain ⟨id, objects, input, owner⟩ := region
  rw [Recorded, objectsRecorded_iff]

theorem empty_recorded (id : RegionId) (owner : Owner) : (empty id owner).Recorded history := by
  rw [recorded_iff]
  simp [empty, LogRecorded]

theorem Recorded.withOwner (recorded : region.Recorded history) (owner : Owner) :
    ({ region with owner } : Region).Recorded history := by
  obtain ⟨id, objects, input, previous⟩ := region
  rw [Recorded] at recorded
  show Recorded history ⟨id, objects, input, owner⟩
  rw [Recorded]
  exact recorded

theorem Recorded.object (recorded : region.Recorded history) (address : UInt32) :
    LogRecorded history (region.object address).updates := by
  rw [Region.object, object?]
  cases found : region.objects.find? fun object => object.address = address with
  | none => simp only [Option.getD_none, ObjectStore.empty, LogRecorded]
  | some object => exact (recorded_iff.1 recorded).1 object (List.mem_of_find?_eq_some found)

theorem Recorded.setObject (recorded : region.Recorded history) {object : ObjectStore}
    (objectRecorded : LogRecorded history object.updates) :
    (region.setObject object).Recorded history := by
  obtain ⟨objects, input⟩ := recorded_iff.1 recorded
  refine recorded_iff.2 ⟨?_, input⟩
  intro other member
  rcases mem_insertObject member with rfl | before
  · exact objectRecorded
  · exact objects other before

private theorem pushEntry_records (recorded : region.Recorded history) (address : Address)
    {entry : Entry} (entryRecorded : entry.Recorded history) :
    (region.pushEntry address entry).Records history fun newer result =>
      result.Recorded newer := by
  cases address with
  | null => exact Fresh.records_pure recorded
  | object number =>
      refine (Log.push_records (recorded.object number) entryRecorded).map ?_
      intro newer log extended pushed
      exact (Recorded.mono extended region recorded).setObject pushed.1
  | symbolic reference =>
      refine (Log.push_records (recorded_iff.1 recorded).2 entryRecorded).map ?_
      intro newer log extended pushed
      exact recorded_iff.2 ⟨(recorded_iff.1 (Recorded.mono extended region recorded)).1, pushed.1⟩

private theorem writeLeaf_records (recorded : region.Recorded history) (key : Key) (value : Term)
    (leaf : Leaf) :
    (region.writeLeaf key value leaf).Records history fun newer result =>
      result.Recorded newer := by
  have entryRecorded : (Entry.write (key.withAddress leaf.address.toTerm) value
      leaf.guard).Recorded history := by
    rw [Entry.Recorded]
    trivial
  have pushed := pushEntry_records recorded leaf.address entryRecorded
  simp only [writeLeaf]
  split
  · next number slot _ _ =>
      split
      · exact Fresh.records_pure (recorded.setObject (recorded.object number))
      · exact pushed
  · exact pushed

theorem write_records (recorded : region.Recorded history) (key : Key) (value guard : Term) :
    (region.write key value guard).Records history fun newer result => result.Recorded newer :=
  Fresh.records_foldlM
    (fun _ _ leaf _ _ between => writeLeaf_records between key value leaf) recorded

private theorem pushRanged_records (recorded : region.Recorded history) (destination guard : Term)
    {entry : Term → Term → Entry}
    (entryRecorded : ∀ address condition, (entry address condition).Recorded history) :
    (region.pushRanged destination guard entry).Records history fun newer result =>
      result.Recorded newer :=
  Fresh.records_foldlM
    (fun _ _ leaf _ extended between =>
      pushEntry_records between leaf.address (Entry.Recorded.mono extended _ (entryRecorded _ _)))
    recorded

theorem copyRange_records {source : Region} (recorded : region.Recorded history)
    (sourceRecorded : source.Recorded history) (range : CopyRange) (guard : Term) :
    Fresh.RecordsOk (region.copyRange source range guard) history fun newer result =>
      result.Recorded newer := by
  rw [copyRange]
  split
  · refine (pushRanged_records recorded _ guard fun _ _ => ?_).ok
    rw [Entry.Recorded]
    exact sourceRecorded
  · exact Fresh.recordsOk_throw _

theorem overlay_records {source members : Region} (recorded : region.Recorded history)
    (sourceRecorded : source.Recorded history) (membersRecorded : members.Recorded history)
    (ends : OverlayEnds) (guard : Term) :
    Fresh.RecordsOk (region.overlay source members ends guard) history fun newer result =>
      result.Recorded newer := by
  rw [overlay]
  split
  · refine (pushRanged_records recorded _ guard fun _ _ => ?_).ok
    rw [Entry.Recorded]
    exact ⟨sourceRecorded, membersRecorded⟩
  · exact Fresh.recordsOk_throw _

end Region

/-! ## Updates of a memory -/

namespace Memory

variable {history : History} {memory : Memory}

/-- Every region of the memory is recorded. -/
def Recorded (history : History) (memory : Memory) : Prop :=
  ∀ id, (memory.regionFor id).Recorded history

theorem empty_recorded (owner : Owner) : (empty owner).Recorded history :=
  fun id => Region.empty_recorded id owner

theorem Recorded.mono {newer : History} (recorded : memory.Recorded history)
    (extended : history.Extends newer) : memory.Recorded newer :=
  fun id => Region.Recorded.mono extended _ (recorded id)

theorem Recorded.setRegion (recorded : memory.Recorded history) (id : RegionId) {region : Region}
    (regionRecorded : region.Recorded history) : (memory.setRegion id region).Recorded history := by
  intro probe
  rw [regionFor_setRegion]
  split
  · exact regionRecorded.withOwner _
  · exact recorded probe

theorem Recorded.settle (recorded : memory.Recorded history) (id : RegionId)
    {outcome : Except Fault Region}
    (outcomeRecorded : ∀ region, outcome = .ok region → region.Recorded history) :
    (memory.settle id outcome).2.Recorded history := by
  cases outcome with
  | ok region => exact recorded.setRegion id (outcomeRecorded region rfl)
  | error fault => exact recorded.setRegion id (recorded id)

theorem run_records (recorded : memory.Recorded history) (operation : MemoryOp) :
    (operation.run memory).Records history fun newer result => result.Recorded newer := by
  cases operation with
  | allocate typeName => exact Fresh.records_pure recorded
  | write region key value guard =>
      refine (Region.write_records (recorded region) key value guard).map ?_
      intro newer result extended resultRecorded
      exact (recorded.mono extended).setRegion region resultRecorded
  | copyRange region range guard =>
      refine ((Region.copyRange_records (recorded region) (recorded region) range guard).map ?_).map
        fun newer result _ holds => holds
      intro newer outcome extended outcomeRecorded
      exact (recorded.mono extended).settle region outcomeRecorded
  | overlay region members ends guard =>
      refine ((Region.overlay_records (recorded region) (recorded region) (recorded members) ends
        guard).map ?_).map fun newer result _ holds => holds
      intro newer outcome extended outcomeRecorded
      exact (recorded.mono extended).settle region outcomeRecorded

end Memory

end SymbolicHeap
