import SymbolicHeap.Proofs.Heap.History

/-!
Contract: the versions of logs that a run makes.

A run starts new logs, pushes entries on logs, keeps copies of them and merges
them. Every node gets an identity of its own, so in one history of all nodes
handed out every log of the run is chained. From this the walk down two logs is
exact, whatever was pushed and however the logs were merged.

Owns:
- logs tracked by a history, and what a push or a merge adds to it;
- runs on logs;
- two logs of a run split at their newest common node.
-/

namespace SymbolicHeap

namespace Log

/-! ## Tracked logs -/

/-- The nodes of the log were handed out, and each heads the log that the
history has for it. Nothing is said of the entries. -/
structure Tracked (history : History) (log : Log) : Prop where
  known : ∀ node ∈ log, node.id.number < history.nodes
  chained : log.Chained history.log

namespace Tracked

variable {history : History} {log : Log}

theorem empty : Tracked history [] := ⟨List.forall_mem_nil _, trivial⟩

theorem mono {newer : History} (extended : history.Extends newer)
    (tracked : log.Tracked history) : log.Tracked newer where
  known := fun node member => Nat.lt_of_lt_of_le (tracked.known node member) extended.nodes
  chained := tracked.chained.congr fun node member =>
    extended.log node.id (tracked.known node member)

theorem of_suffix {shorter : Log} (tracked : log.Tracked history) (suffix : shorter <:+ log) :
    shorter.Tracked history where
  known := fun node member => tracked.known node (suffix.subset member)
  chained := tracked.chained.of_suffix suffix

theorem push (tracked : log.Tracked history) (entry : Entry) :
    (Log.push log entry).Records history Tracked := by
  refine (push_extends history log entry).imp ?_
  rintro newer _ extended ⟨id, rfl, known, isLog⟩
  have kept := tracked.mono extended
  have isLength : log.size + 1 = log.length + 1 := congrArg (· + 1) tracked.chained.size
  exact ⟨List.forall_mem_cons.2 ⟨known, kept.known⟩, isLog, isLength, kept.chained⟩

theorem replay {onto : Log} (tracked : onto.Tracked history) (condition : Term) (nodes : Log) :
    (Log.replay condition nodes onto).Records history Tracked := by
  induction nodes with
  | nil => exact Fresh.records_pure tracked
  | cons node older inductionHypothesis =>
      rw [Log.replay]
      exact inductionHypothesis.bind fun _ _ _ replayed => replayed.push _

theorem merge {left right : Log} (leftTracked : left.Tracked history) (guard : Term) :
    (Log.merge left right guard).Records history Tracked := by
  rw [Log.merge]
  split
  · exact Fresh.records_pure leftTracked
  · have shared := leftTracked.of_suffix (shared_suffix left right)
    exact (shared.replay guard.not _).bind fun _ _ _ replayed => replayed.replay guard _

end Tracked

/-! ## Runs -/

/-- The logs that a run made so far, all versions of them, and what it left of
the supply. -/
inductive Run : List Log → Supply → Prop where
  | start (supply : Supply) : Run [] supply
  | create {logs : List Log} {supply : Supply} (run : Run logs supply) : Run ([] :: logs) supply
  | clone {logs : List Log} {supply : Supply} {log : Log}
      (run : Run logs supply)
      (made : log ∈ logs) :
      Run (log :: logs) supply
  | push {logs : List Log} {supply : Supply} {log : Log}
      (run : Run logs supply)
      (made : log ∈ logs)
      (entry : Entry) :
      Run (((Log.push log entry).run supply).1 :: logs) ((Log.push log entry).run supply).2
  | merge {logs : List Log} {supply : Supply} {left right : Log}
      (run : Run logs supply)
      (leftMade : left ∈ logs)
      (rightMade : right ∈ logs)
      (guard : Term) :
      Run (((Log.merge left right guard).run supply).1 :: logs)
        ((Log.merge left right guard).run supply).2

private theorem Run.allTracked {logs : List Log} {supply : Supply} (run : Run logs supply) :
    AllHold Tracked logs supply := by
  induction run with
  | start supply => exact .start supply
  | create run inductionHypothesis =>
      obtain ⟨history, sameNodes, tracked⟩ := inductionHypothesis
      exact ⟨history, sameNodes, List.forall_mem_cons.2 ⟨.empty, tracked⟩⟩
  | clone run made inductionHypothesis =>
      obtain ⟨history, sameNodes, tracked⟩ := inductionHypothesis
      exact ⟨history, sameNodes, List.forall_mem_cons.2 ⟨tracked _ made, tracked⟩⟩
  | push run made entry inductionHypothesis =>
      exact inductionHypothesis.add Tracked.mono fun history tracked =>
        (tracked _ made).push entry
  | merge run leftMade rightMade guard inductionHypothesis =>
      exact inductionHypothesis.add Tracked.mono fun history tracked =>
        (tracked _ leftMade).merge guard

/-! ## Two logs of a run -/

/-- Ancestry is found exactly. The newest nodes of two logs of a run know how
many nodes their logs have. The walk takes both logs apart into nodes that the
other one has not, and one log that both end in; this is headed by the newest
node that both logs have, and is empty if they have none. -/
theorem ancestry_exact
    (logs : List Log)
    (supply : Supply)
    (run : Run logs supply)
    (left right : Log)
    (leftMade : left ∈ logs)
    (rightMade : right ∈ logs) :
    left.size = left.length ∧
      right.size = right.length ∧
      (ancestry left right).onlyLeft ++ (ancestry left right).shared = left ∧
      (ancestry left right).onlyRight ++ (ancestry left right).shared = right ∧
      (∀ node ∈ (ancestry left right).onlyLeft, right.hasNode node.id = false) ∧
      (∀ node ∈ (ancestry left right).onlyRight, left.hasNode node.id = false) ∧
      (ancestry left right).common? = left.find? (fun node => right.hasNode node.id) ∧
      (ancestry left right).common? = right.find? (fun node => left.hasNode node.id) := by
  obtain ⟨history, _, tracked⟩ := run.allTracked
  have leftChained := (tracked left leftMade).chained
  have rightChained := (tracked right rightMade).chained
  have leftSplit := ancestry_left left right
  have rightSplit := leftChained.ancestry_right rightChained
  obtain ⟨onlyLeft, onlyRight⟩ := leftChained.apart rightChained
  have inLeft : (ancestry left right).shared ⊆ left := (shared_suffix left right).subset
  have inRight : (ancestry left right).shared ⊆ right :=
    fun _ member => rightSplit ▸ List.mem_append_right _ member
  exact ⟨leftChained.size, rightChained.size, leftSplit, rightSplit, onlyLeft, onlyRight,
    (find?_hasNode leftSplit onlyLeft inRight).symm,
    (find?_hasNode rightSplit onlyRight inLeft).symm⟩

/-- Sets a field of an input object. -/
def setField (number : Int32) : Entry :=
  .write ⟨.var "p" .reference, none⟩ (.const (.i32 number)) (.const (.bool true))

/-- Two versions of a log that go different ways, merged, and the longer one. -/
def mergedVersions : Fresh (Log × Log) := do
  let common ← push [] (setField 1)
  let left ← push common (setField 2)
  let right ← push (← push common (setField 3)) (setField 4)
  return (← merge left right (.var "g" .bool), right)

/-- A merge has copies of the entries that it guards, but not their nodes. -/
theorem ancestry_mergedVersions :
    (mergedVersions.run .initial).1.1.size = 4 ∧
      (ancestry (mergedVersions.run .initial).1.1 (mergedVersions.run .initial).1.2).common?.map
        Node.id = some ⟨0⟩ ∧
      (ancestry (mergedVersions.run .initial).1.1
        (mergedVersions.run .initial).1.2).onlyRight.map Node.id = [⟨3⟩, ⟨2⟩] := by
  have common := (Run.create (.start .initial)).push List.mem_cons_self (setField 1)
  have left := common.push List.mem_cons_self (setField 2)
  have between := left.push (List.mem_cons_of_mem _ List.mem_cons_self) (setField 3)
  have right := between.push List.mem_cons_self (setField 4)
  have merged := right.merge
    (List.mem_cons_of_mem _ (List.mem_cons_of_mem _ List.mem_cons_self)) List.mem_cons_self
    (.var "g" .bool)
  obtain ⟨size, _, _, _, _, _, isCommon, _⟩ := ancestry_exact _ _ merged
    (mergedVersions.run .initial).1.1 (mergedVersions.run .initial).1.2 List.mem_cons_self
    (List.mem_cons_of_mem _ List.mem_cons_self)
  exact ⟨size.trans rfl, by rw [isCommon]; rfl, rfl⟩

end Log

end SymbolicHeap
