import AnySync.Acl.Apply

/-!
# The list of records

`list.go`: an ACL list holds the records of a log in order and the state they lead to. A record
reaches it in two steps. The network admits the record (`ValidateRawRecord`): it is applied to a
copy of the state under a provisional id, with full validation. Later every replica adds it
(`AddRawRecord`) under the id the network assigned, with or without validation.

* `AclList.validateRecord` and `AclList.append` are the two functions once the record is decoded.
* A list that does not validate decodes only its own read keys (`AclList.keepOurs`).
* `AclList.accept` is the way of one log entry through both, and a log is accepted by
  `foldlM` over its entries.
* `AclList.permissionsAtRecord` is the query for past permissions.
-/

namespace Acl

/-! ## Keeping only our read keys -/

/-- `filterAccountKeys`. -/
def filterAccountKeys (isOurs : Bytes → Bool) (keys : List AclEncryptedReadKey) :
    List AclEncryptedReadKey :=
  keys.filter (fun k => isOurs k.identity)

/-- `filterAccountKeys` inside a read key change. -/
def AclReadKeyChange.filterKeys (isOurs : Bytes → Bool) (ch : AclReadKeyChange) :
    AclReadKeyChange :=
  { ch with accountKeys := filterAccountKeys isOurs ch.accountKeys }

/-- The body of the loop of `fullDecodeFilter`. -/
def AclContentValue.filterKeys (isOurs : Bytes → Bool) : AclContentValue → AclContentValue
  | .readKeyChange ch => .readKeyChange (ch.filterKeys isOurs)
  | .accountRemove ch =>
    .accountRemove { ch with readKeyChange := ch.readKeyChange.map (·.filterKeys isOurs) }
  | content => content

/-- `fullDecodeFilter` on decoded data. -/
def AclData.filterKeys (isOurs : Bytes → Bool) (data : AclData) : AclData :=
  { aclContent := data.aclContent.map (·.filterKeys isOurs) }

/-- `isOurIdentity`, for the account whose key is `pubKey`. -/
def isOurIdentity (C : Crypto) (pubKey : PubKey) (identity : Bytes) : Bool :=
  identity = C.marshalPublicKey pubKey || C.unmarshalPublicKey identity = some pubKey

/-! ## The list -/

/-- `aclList`. -/
structure AclList where
  /-- `verifier.ShouldValidate()`. -/
  shouldValidate : Bool
  /-- The ids of the records, root first. -/
  records : List GoString
  /-- The positions of the records. -/
  indexes : GoMap GoString ℕ
  /-- The state after the last record. -/
  aclState : AclState

namespace AclList

variable (C : Crypto)

/-- The list `build` makes of a storage that holds only the root. -/
def build (shouldValidate : Bool) (root : AclRootRecord) (key : PrivKey) :
    Except AclError AclList := do
  let aclState ← newAclStateWithKeys C root key
  pure
    { shouldValidate := shouldValidate, records := [root.id],
      indexes := (∅ : GoMap GoString ℕ).insert root.id 0, aclState := aclState }

variable (l : AclList)

/-- `ValidateRawRecord` on a decoded record: the state that admission produces. -/
def validateRecord (record : AclRecord) (ord : RangeOrder) : Except AclError AclState :=
  (l.aclState.copy C).applyRecord C newAdmissionValidator record ord

/-- The record as `decodeAclData` of this list decodes it. -/
def keepOurs (record : AclRecord) : AclRecord :=
  if l.shouldValidate then record
  else
    { record with
      model := record.model.filterKeys (isOurIdentity C (C.getPublic l.aclState.key)) }

/-- `AddRawRecord` on a decoded record, once the storage has taken it. -/
def append (record : AclRecord) (ord : RangeOrder) : Except AclError AclList := do
  let copyState ←
    (l.aclState.copy C).applyRecord C (newContentValidator l.shouldValidate) record ord
  pure
    { l with
      aclState := copyState
      records := l.records ++ [record.id]
      indexes := l.indexes.insert record.id l.records.length }

/-- `HasHead`. -/
def hasHead (head : GoString) : Bool := (l.indexes.lookup head).isSome

/-- `isAfterNoCheck`: a missing record counts as the first. -/
def isAfterNoCheck (first second : GoString) : Bool :=
  (l.indexes.lookup second).getD 0 ≤ (l.indexes.lookup first).getD 0

end AclList

/-- `closestPermissions`: the newest change that `recordId` is not before. -/
def closestPermissions (accountState : AccountState) (recordId : GoString)
    (isAfter : GoString → GoString → Bool) : AclPermissions :=
  match accountState.permissionChanges.reverse.find? (fun ch => isAfter recordId ch.recordId) with
  | none => .none
  | some ch => ch.permission

/-- `PermissionsAtRecord`. -/
def AclList.permissionsAtRecord (l : AclList) (id : GoString) (pubKey : PubKey) :
    Except AclError AclPermissions :=
  if !l.hasHead id then .error .noSuchRecord
  else
    match l.aclState.accountStates.lookup (mapKeyFromPubKey pubKey) with
    | none => .error .noSuchAccount
    | some accountState => .ok (closestPermissions accountState id l.isAfterNoCheck)

/-! ## Logs -/

/-- A record on its way into the log: the record as the network stores it, the hash of its
payload, which is its id during admission, and the map orders of the two applications. -/
structure LogEntry where
  /-- The record under the id the network assigned. -/
  record : AclRecord
  /-- Its id during admission. -/
  provisionalId : GoString
  /-- The map order during admission. -/
  admissionOrder : RangeOrder
  /-- The map order when the list adds it. -/
  replayOrder : RangeOrder

/-- The record as admission sees it. -/
def LogEntry.provisional (e : LogEntry) : AclRecord :=
  { e.record with id := e.provisionalId }

/-- One entry of a log: admitted on the state of the list and then added to it. -/
def AclList.accept (C : Crypto) (l : AclList) (e : LogEntry) : Except AclError AclList := do
  let _ ← l.validateRecord C e.provisional e.admissionOrder
  failIf (l.hasHead e.record.id) AclError.recordAlreadyExists
  l.append C (l.keepOurs C e.record) e.replayOrder

end Acl
