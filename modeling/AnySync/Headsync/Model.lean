import AnySync.Go.Run
import AnySync.Headsync.HeadStorage
import AnySync.Ldiff.Contents
import Mathlib.Data.Finset.Basic
import Mathlib.Data.Finset.Dedup

/-!
# The head diff of a space

`commonspace/headsync/diffmanager.go`, with the deletion state, the buffer of `headupdater.go` and
the transactions around head storage updates.

* `fillDiff`, `updateHeads`: the source's functions on the contents of the diff.
* `State`, `Event`, `step`: a space while it is open. Updates are made inside the one write
  transaction and buffered at once; another goroutine drains the buffer at any time. A transaction
  ends with a commit, or it is rolled back or fails to commit. The deletion state writes its marks
  in transactions of their own, and observers are told if the write succeeds.
* `run`: the events from the opening of a space on, over any number of restarts.
-/

namespace Headsync

open Ldiff

variable (hashId : GoString → GoString)

/-- `concatStrings`. -/
def concatStrings (strs : List GoString) : GoString := strs.flatten

/-- The head of the element for an entry. -/
def headOf (heads : List GoString) : GoString := hashId (concatStrings heads)

/-- What `FillDiff` makes of a document: nothing for empty roots, except those that are not derived
and have no common snapshot, and nothing if `IterateEntries` finds a deleted status. -/
def fillElement (id : GoString) (doc : HeadsDoc) : Option Element :=
  let entry := entryFromVal id doc
  if doc.deletedStatus.isSome then none
  else if entry.heads.head? = some id ∧ (entry.isDerived ∨ entry.commonSnapshot ≠ []) then none
  else some { id := id, head := headOf hashId entry.heads }

/-- `FillDiff`. -/
def fillDiff (coll : HeadsColl) (diff : Contents) : Contents :=
  diff.set (coll.entries.filterMap fun doc => fillElement hashId doc.1 doc.2)

/-- `UpdateHeads`. `exists` is what the deletion state says of the id. -/
def updateHeads (exists' : Bool) (update : HeadsEntry) (diff : Contents) : Contents :=
  if update.deletedStatus ≠ .notDeleted then diff.removeId update.id
  else if exists' then diff
  -- live updates never add empty roots
  else if update.heads = [update.id] then diff
  else diff.set [{ id := update.id, head := headOf hashId update.heads }]

/-- An open space. -/
structure State where
  /-- The documents that are stored. -/
  docs : HeadsColl
  /-- The documents that the open transaction sees. -/
  tx : Option HeadsColl
  /-- The updates that are not drained. -/
  buffered : List HeadsEntry
  /-- The ids that the deletion state has as queued or as deleted. -/
  queued : Finset GoString
  deleted : Finset GoString
  /-- The diff. -/
  diff : Contents
  /-- `FillDiff` was called, and the buffer is drained from then on. -/
  filled : Bool

/-- What happens in a space. -/
inductive Event
  /-- A write transaction is opened. -/
  | beginTx
  /-- `UpdateEntry` in the open transaction. -/
  | update (change : Change)
  | commit
  /-- The transaction is rolled back, or the commit fails. -/
  | abort
  /-- One buffered update is drained. -/
  | drain
  /-- One id in `Add` of the deletion state, whose update may fail. Also one child of a deleted
  parent in its `Run`. -/
  | queue (id : GoString) (fails : Bool)
  /-- `Delete` of the deletion state, whose update may fail. -/
  | delete (id : GoString) (fails : Bool)
  /-- `Run` of the head sync, with `FillDiff`. -/
  | fill
  /-- The space is closed and opened again, up to the `Run` of the deletion state. -/
  | restart

/-- An event that is not possible in a state. -/
structure NotEnabled

namespace State

/-- The documents that a transaction sees. -/
def view (s : State) : HeadsColl := s.tx.getD s.docs

/-- `Exists` of the deletion state. -/
def exists' (s : State) (id : GoString) : Bool := id ∈ s.deleted ∨ id ∈ s.queued

/-- The mark of the deletion state, in a transaction of its own. -/
def updateStatus (s : State) (id : GoString) (status : DeletedStatus) : State :=
  let (docs, entry) := updateEntry s.docs { id := id, deletedStatus := some status }
  { s with docs := docs, buffered := s.buffered ++ entry.toList }

/-- The ids with a status, which the deletion state loads. -/
def loaded (docs : HeadsColl) (status : DeletedStatus) : Finset GoString :=
  ((docs.entries.filter fun doc => doc.2.deletedStatus = some status).map (·.1)).toFinset

/-- A space with these documents, before the components run. -/
def opened (docs : HeadsColl) : State where
  docs := docs
  tx := none
  buffered := []
  queued := loaded docs .queued
  deleted := loaded docs .deleted
  diff := ∅
  filled := false

/-- The state after an event. -/
def step (s : State) : Event → Except NotEnabled State
  | .beginTx =>
    match s.tx with
    | none => .ok { s with tx := some s.docs }
    | some _ => .error ⟨⟩
  | .update change =>
    match s.tx with
    | none => .error ⟨⟩
    | some view =>
      let (view', entry) := updateEntry view (change.headsUpdate view)
      .ok { s with tx := some view', buffered := s.buffered ++ entry.toList }
  | .commit =>
    match s.tx with
    | none => .error ⟨⟩
    | some view => .ok { s with docs := view, tx := none }
  | .abort =>
    match s.tx with
    | none => .error ⟨⟩
    | some _ => .ok { s with tx := none }
  | .drain =>
    match s.filled, s.buffered with
    | true, update :: buffered =>
      .ok { s with
        buffered := buffered
        diff := updateHeads hashId (s.exists' update.id) update s.diff }
    | _, _ => .error ⟨⟩
  | .queue id fails =>
    if s.tx.isSome then .error ⟨⟩
    else if s.exists' id ∨ fails then .ok s
    else .ok { s.updateStatus id .queued with queued := insert id s.queued }
  | .delete id fails =>
    if s.tx.isSome then .error ⟨⟩
    else
      let s := { s with queued := s.queued.erase id, deleted := insert id s.deleted }
      .ok (if fails then s else s.updateStatus id .deleted)
  | .fill =>
    if s.filled then .error ⟨⟩
    else .ok { s with diff := fillDiff hashId s.docs s.diff, filled := true }
  | .restart => .ok (opened s.docs)

/-- The events in a space that is opened with these documents. -/
def run (docs : HeadsColl) (events : List Event) : Except NotEnabled State :=
  events.foldlM (step hashId) (opened docs)

end State

end Headsync
