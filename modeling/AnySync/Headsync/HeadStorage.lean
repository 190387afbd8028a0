import AnySync.Go.Basic

/-!
# The head storage

`commonspace/headsync/headstorage/headstorage.go`: a collection with one document for each object
of a space, and the updates that trees, the ACL, the key-value store and the deletion state make
to it.
-/

namespace Headsync

/-- `DeletedStatus`. -/
inductive DeletedStatus
  | notDeleted
  | queued
  | deleted
deriving DecidableEq, Repr

/-- `HeadsEntry`. -/
structure HeadsEntry where
  id : GoString
  heads : List GoString
  commonSnapshot : GoString
  deletedStatus : DeletedStatus
  isDerived : Bool
  parentId : GoString
  lastAddSeq : ℕ
deriving DecidableEq, Repr

/-- `HeadsUpdate`. What is `nil` is not updated. -/
structure HeadsUpdate where
  id : GoString
  heads : Option (List GoString) := none
  commonSnapshot : Option GoString := none
  deletedStatus : Option DeletedStatus := none
  isDerived : Option Bool := none
  parentId : Option GoString := none
  lastAddSeq : Option ℕ := none
deriving DecidableEq, Repr

/-- A document of the collection, without its id. Keys that were never written are absent, and
`IterateEntries` tells an absent deleted status from a present one. -/
structure HeadsDoc where
  heads : Option (List GoString) := none
  commonSnapshot : Option GoString := none
  deletedStatus : Option DeletedStatus := none
  isDerived : Option Bool := none
  parentId : Option GoString := none
  lastAddSeq : Option ℕ := none
deriving DecidableEq, Repr

/-- The collection. -/
abbrev HeadsColl := GoMap GoString HeadsDoc

/-- `entryFromVal`. -/
def entryFromVal (id : GoString) (doc : HeadsDoc) : HeadsEntry where
  id := id
  heads := doc.heads.getD []
  commonSnapshot := doc.commonSnapshot.getD []
  deletedStatus := doc.deletedStatus.getD .notDeleted
  isDerived := doc.isDerived.getD false
  parentId := doc.parentId.getD []
  lastAddSeq := doc.lastAddSeq.getD 0

/-- The value of a key after an update. -/
def modifyKey {α : Type} (old new : Option α) : Option α := new.or old

/-- The document after the modifier of `UpdateEntry`. -/
def HeadsDoc.modify (doc : HeadsDoc) (update : HeadsUpdate) : HeadsDoc where
  deletedStatus := modifyKey doc.deletedStatus update.deletedStatus
  commonSnapshot := modifyKey doc.commonSnapshot update.commonSnapshot
  heads := modifyKey doc.heads update.heads
  isDerived := modifyKey doc.isDerived update.isDerived
  parentId := modifyKey doc.parentId update.parentId
  lastAddSeq := modifyKey doc.lastAddSeq update.lastAddSeq

/-- The document that `UpsertId` modifies: a new one if there is none. -/
def HeadsColl.doc (coll : HeadsColl) (id : GoString) : HeadsDoc := (coll.lookup id).getD {}

/-- `UpdateEntry`: the collection, and the entry for the observers if a key was modified. -/
def updateEntry (coll : HeadsColl) (update : HeadsUpdate) : HeadsColl × Option HeadsEntry :=
  let doc := coll.doc update.id
  let doc' := doc.modify update
  if doc' = doc then (coll, none)
  else (coll.insert update.id doc', some (entryFromVal update.id doc'))

/-- An update of the storages. -/
inductive Change
  /-- `CreateStorageTx` of a tree. -/
  | createTree (root : GoString) (isDerived : Bool) (parentId : GoString)
  /-- `AddAll` and `AddAllNoError` of a tree. -/
  | addChanges (id : GoString) (heads : List GoString) (commonSnapshot : GoString) (seq : ℕ)
  /-- `CreateStorageTx` of the ACL. -/
  | createAcl (root : GoString)
  /-- `AddAll` of the ACL. -/
  | addRecords (id head : GoString)
  /-- `New` and `Set` of the key-value storage. -/
  | setKeyValues (storageName hash : GoString)
deriving DecidableEq, Repr

/-- The update, in a transaction that sees `coll`. -/
def Change.headsUpdate (coll : HeadsColl) : Change → HeadsUpdate
  | .createTree root isDerived parentId =>
    let headsUpdate : HeadsUpdate :=
      { id := root, heads := some [root], commonSnapshot := some root,
        isDerived := some isDerived }
    if parentId = [] then headsUpdate
    else
      let headsUpdate := { headsUpdate with parentId := some parentId }
      -- a parent that is gone takes the child with it
      match coll.lookup parentId with
      | some parent =>
        if (entryFromVal parentId parent).deletedStatus ≠ .notDeleted then
          { headsUpdate with deletedStatus := some .queued }
        else headsUpdate
      | none => headsUpdate
  | .addChanges id heads commonSnapshot seq =>
    { id := id, heads := some heads, commonSnapshot := some commonSnapshot,
      lastAddSeq := some seq }
  | .createAcl root => { id := root, heads := some [root] }
  | .addRecords id head => { id := id, heads := some [head] }
  | .setKeyValues storageName hash => { id := storageName, heads := some [hash] }

end Headsync
