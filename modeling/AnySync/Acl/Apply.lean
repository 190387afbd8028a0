import AnySync.Acl.Validator

/-!
# Applying records

`ApplyRecord` of `aclstate.go` and the handlers of the sixteen content types. A handler first
validates its content value on the current state and then changes the state, so content values
later in a record act on what earlier ones did.

Two handlers range over a map and stop at the first entry that fits: a read key change at an
invite with the key it is addressed to, and a join by invite at a request of the account. The
`RangeOrder` of the call says in which order they look.
-/

namespace Acl

open ContentValidator
open AclError

namespace AclState

variable (C : Crypto) (v : ContentValidator) (st : AclState) (record : AclRecord)

/-- `applyOwnershipChange`. -/
def applyOwnershipChange (ch : AclOwnershipChange) : Except AclError AclState := do
  validateOwnershipChange C v st record.identity ch
  let newOwnerIdentity ← C.pubKeyFromProto ch.newOwnerIdentity
  let oldOwnerKey := mapKeyFromPubKey record.identity
  let newOwnerKey := mapKeyFromPubKey newOwnerIdentity
  let st := st.updatePermissions oldOwnerKey ch.oldOwnerPermissions record
  pure (st.updatePermissions newOwnerKey .owner record)

/-- `applyInviteChange`. -/
def applyInviteChange (ch : AclAccountInviteChange) : Except AclError AclState := do
  validateInviteChange v st record.identity ch
  match st.invites.lookup ch.inviteRecordId with
  | none => pure st
  | some invite =>
    pure
      { st with
        invites :=
          st.invites.insert ch.inviteRecordId { invite with permissions := ch.permissions } }

/-- `applyPermissionChange`. -/
def applyPermissionChange (ch : AclAccountPermissionChange) : Except AclError AclState := do
  let chIdentity ← C.pubKeyFromProto ch.identity
  validatePermissionChange C v st record.identity ch
  pure (st.updatePermissions (mapKeyFromPubKey chIdentity) ch.permissions record)

/-- `applyPermissionChanges`. -/
def applyPermissionChanges (ch : AclAccountPermissionChanges) : Except AclError AclState :=
  ch.changes.foldlM (fun st ch => st.applyPermissionChange C v record ch) st

/-- `applyInvite`. -/
def applyInvite (ch : AclAccountInvite) : Except AclError AclState := do
  let inviteKey ← C.pubKeyFromProto ch.inviteKey
  validateInvite C v st record.identity ch
  pure
    { st with
      invites := st.invites.insert record.id
        { key := inviteKey, id := record.id, type := ch.inviteType,
          permissions := ch.permissions, encryptedReadKey := ch.encryptedReadKey } }

/-- `applyInviteRevoke`. -/
def applyInviteRevoke (ch : AclAccountInviteRevoke) : Except AclError AclState := do
  validateInviteRevoke v st record.identity ch
  pure { st with invites := st.invites.erase ch.inviteRecordId }

/-- `applyRequestJoin`: an account that is known already keeps its permission history. -/
def applyRequestJoin (ch : AclAccountRequestJoin) : Except AclError AclState := do
  validateRequestJoin C v st record.identity ch
  let keyRecordId ← st.currentReadKeyId
  let pKeyString := mapKeyFromPubKey record.identity
  let permissionChanges := match st.accountStates.lookup pKeyString with
    | none => []
    | some state => state.permissionChanges
  pure
    { st with
      pendingRequests := st.pendingRequests.insert pKeyString record.id
      requestRecords := st.requestRecords.insert record.id
        { requestIdentity := record.identity, requestMetadata := ch.metadata,
          keyRecordId := keyRecordId, recordId := record.id, type := .join }
      accountStates := st.accountStates.insert pKeyString
        { pubKey := some record.identity, permissions := .none, status := .joining,
          requestMetadata := ch.metadata, keyRecordId := keyRecordId,
          permissionChanges := permissionChanges } }

/-- The last step of the handlers that admit an account: if it is the account this state belongs
to, the read keys are decrypted. -/
def unpackIfOurs (identity : PubKey) (encryptedReadKey : Option Bytes) :
    Except AclError AclState :=
  if st.pubKey = identity then st.unpackAllKeys C encryptedReadKey else pure st

/-- The account that `applyAccountsAdd` makes. -/
def addedAccount (keyRecordId : GoString) (identity : PubKey) (acc : AclAccountAdd) :
    AccountState :=
  { pubKey := some identity, permissions := acc.permissions, status := .active,
    requestMetadata := acc.metadata, keyRecordId := keyRecordId,
    permissionChanges := [⟨record.id, acc.permissions⟩] }

/-- The body of the loop of `applyAccountsAdd`. The new account state replaces an older one with
its history. -/
def addAccount (acc : AclAccountAdd) : Except AclError AclState := do
  let identity ← C.pubKeyFromProto acc.identity
  let keyRecordId ← st.currentReadKeyId
  let st :=
    { st with
      accountStates := st.accountStates.insert (mapKeyFromPubKey identity)
        (addedAccount record keyRecordId identity acc) }
  st.unpackIfOurs C identity acc.encryptedReadKey

/-- `applyAccountsAdd`. -/
def applyAccountsAdd (ch : AclAccountsAdd) : Except AclError AclState := do
  validateAccountsAdd C v st record.identity ch
  ch.additions.foldlM (fun st acc => st.addAccount C record acc) st

/-- The account state that accepting a request or joining by an invite leaves: the history of
the account, if there is one, gets a new entry. -/
def joinedAccount (pKeyString : GoString) (identity : PubKey) (permissions : AclPermissions)
    (metadata : Bytes) (keyRecordId : GoString) : AccountState :=
  let permissionChanges := match st.accountStates.lookup pKeyString with
    | none => [⟨record.id, permissions⟩]
    | some state => state.permissionChanges ++ [⟨record.id, permissions⟩]
  { pubKey := some identity, permissions := permissions, status := .active,
    requestMetadata := metadata, keyRecordId := keyRecordId,
    permissionChanges := permissionChanges }

/-- `applyRequestAccept`. -/
def applyRequestAccept (ch : AclAccountRequestAccept) : Except AclError AclState := do
  validateRequestAccept C v st record.identity ch
  let acceptIdentity ← C.pubKeyFromProto ch.identity
  match st.requestRecords.lookup ch.requestRecordId with
  | none => pure st
  | some requestRecord =>
    let pKeyString := mapKeyFromPubKey acceptIdentity
    let st :=
      { st with
        accountStates := st.accountStates.insert pKeyString
          (st.joinedAccount record pKeyString acceptIdentity ch.permissions
            requestRecord.requestMetadata requestRecord.keyRecordId)
        pendingRequests :=
          st.pendingRequests.erase (mapKeyFromPubKey requestRecord.requestIdentity)
        requestRecords := st.requestRecords.erase ch.requestRecordId }
    st.unpackIfOurs C acceptIdentity ch.encryptedReadKey

/-- The loop of `applyInviteJoinWithoutApprove` that drops the first request of `identity` it
finds. -/
def dropRequestOf (ord : RangeOrder) (value : ℕ) (identity : PubKey) : AclState :=
  match (ord.shuffle value 0 (st.requestRecords.entries.map Sigma.snd)).find?
      (fun rec => rec.requestIdentity = identity) with
  | none => st
  | some rec =>
    { st with
      pendingRequests := st.pendingRequests.erase (mapKeyFromPubKey rec.requestIdentity)
      requestRecords := st.requestRecords.erase rec.recordId }

/-- `applyInviteJoinWithoutApprove`. -/
def applyInviteJoinWithoutApprove (ord : RangeOrder) (value : ℕ) (ch : AclAccountInviteJoin) :
    Except AclError AclState := do
  validateInviteJoin C v st record.identity ch
  let identity ← C.pubKeyFromProto ch.identity
  match st.invites.lookup ch.inviteRecordId with
  | none => pure st
  | some inviteRecord => do
    let permissions :=
      if ch.permissions.noPermissions then inviteRecord.permissions else ch.permissions
    let pKeyString := mapKeyFromPubKey identity
    let keyRecordId ← st.currentReadKeyId
    let st :=
      { st with
        accountStates := st.accountStates.insert pKeyString
          (st.joinedAccount record pKeyString identity permissions ch.metadata keyRecordId) }
    let st := st.dropRequestOf ord value identity
    st.unpackIfOurs C identity ch.encryptedReadKey

/-- `applyRequestDecline`. -/
def applyRequestDecline (ch : AclAccountRequestDecline) : Except AclError AclState := do
  validateRequestDecline v st record.identity ch
  match st.requestRecords.lookup ch.requestRecordId with
  | none => pure st
  | some requestRecord =>
    let pk := mapKeyFromPubKey requestRecord.requestIdentity
    match st.accountStates.lookup pk with
    | none => .error .noSuchAccount
    | some accSt =>
      pure
        { st with
          accountStates := st.accountStates.insert pk { accSt with status := .declined }
          pendingRequests := st.pendingRequests.erase pk
          requestRecords := st.requestRecords.erase ch.requestRecordId }

/-- `applyRequestCancel`. -/
def applyRequestCancel (ch : AclAccountRequestCancel) : Except AclError AclState := do
  validateRequestCancel v st record.identity ch
  match st.requestRecords.lookup ch.recordId with
  | none => pure st
  | some rec =>
    let pk := mapKeyFromPubKey rec.requestIdentity
    match st.accountStates.lookup pk with
    | none => .error .noSuchAccount
    | some accSt =>
      let status := if rec.type = .join then AclStatus.canceled else AclStatus.active
      pure
        { st with
          accountStates := st.accountStates.insert pk { accSt with status := status }
          pendingRequests := st.pendingRequests.erase pk
          requestRecords := st.requestRecords.erase ch.recordId }

/-- `applyRequestRemove`. -/
def applyRequestRemove : Except AclError AclState := do
  validateRequestRemove v st record.identity
  let pk := mapKeyFromPubKey record.identity
  let accSt := (st.accountStates.lookup pk).getD AccountState.zero
  failIf (!accSt.permissions.canRequestRemove) insufficientPermissions
  failIf (st.accountStates.lookup pk).isNone noSuchAccount
  pure
    { st with
      requestRecords := st.requestRecords.insert record.id
        { requestIdentity := record.identity, requestMetadata := [], keyRecordId := [],
          recordId := record.id, type := .remove }
      pendingRequests := st.pendingRequests.insert pk record.id
      accountStates := st.accountStates.insert pk { accSt with status := .removing } }

/-- The loop of `applyReadKeyChange` over the account keys: the last read key addressed to this
account, if there is one. -/
def ownReadKey (keys : List AclEncryptedReadKey) : Except AclError (Option SymKey) :=
  keys.foldlM (fun readKey accKey =>
    match C.unmarshalPublicKey accKey.identity with
    | none => .error .panicked
    | some identity =>
      if st.pubKey = identity then do
        let res ← unmarshallDecryptReadKey C accKey.encryptedReadKey (C.privDecrypt st.key)
        pure (some res)
      else pure readKey) none

/-- The body of the loop of `applyReadKeyChange` over the invite keys: the first invite with the
key that the loop over the invites finds gets the new encrypted read key. -/
def updateInviteKey (ord : RangeOrder) (value step : ℕ) (encKey : AclEncryptedReadKey) :
    Except AclError AclState := do
  let invKey ← C.pubKeyFromProto encKey.identity
  match (ord.shuffle value step st.invites.entries).find? (fun e => e.2.key = invKey) with
  | none => pure st
  | some e =>
    pure
      { st with
        invites := st.invites.adjust e.1
          (fun invite => { invite with encryptedReadKey := encKey.encryptedReadKey }) }

/-- The loop of `applyReadKeyChange` over the invite keys. -/
def updateInviteKeys (ord : RangeOrder) (value : ℕ) (keys : List AclEncryptedReadKey) :
    Except AclError AclState :=
  keys.zipIdx.foldlM (fun st e => st.updateInviteKey C ord value e.2 e.1) st

/-- The record becomes the newest read key change. -/
def addReadKeyChange (recordId : GoString) : AclState :=
  { st with readKeyChanges := st.readKeyChanges ++ [recordId] }

/-- The keys that a record introduced. -/
def setKeys (recordId : GoString) (aclKeys : AclKeys) : AclState :=
  { st with keys := st.keys.insert recordId aclKeys }

/-- The metadata private key of a read key change, for an account that could decrypt the read
key. -/
def ownMetadataKey (readKey : Option SymKey) (encryptedMetadataPrivKey : Option Bytes) :
    Except AclError (Option PrivKey) :=
  match readKey with
  | none => pure none
  | some key => do
    let metadataKey ← unmarshallDecryptPrivKey C encryptedMetadataPrivKey (C.keyDecrypt key)
    pure (some metadataKey)

/-- `applyReadKeyChange` once the record is among the read key changes. -/
def storeReadKey (ord : RangeOrder) (value : ℕ) (ch : AclReadKeyChange) :
    Except AclError AclState := do
  let mkPubKey ← C.pubKeyFromProto ch.metadataPubKey
  let readKey ← st.ownReadKey C ch.accountKeys
  let st ← st.updateInviteKeys C ord value ch.inviteKeys
  let metadataPrivKey ← ownMetadataKey C readKey ch.encryptedMetadataPrivKey
  pure (st.setKeys record.id
    { readKey := readKey
      metadataPrivKey := metadataPrivKey
      metadataPubKey := some mkPubKey
      encryptedPreviousReadKey := ch.encryptedOldReadKey
      encryptedMetadataKey := ch.encryptedMetadataPrivKey })

/-- `applyReadKeyChange` without validation. -/
def changeReadKey (ord : RangeOrder) (value : ℕ) (ch : Option AclReadKeyChange) :
    Except AclError AclState :=
  match ch with
  | none => .error .panicked
  | some ch => (st.addReadKeyChange record.id).storeReadKey C record ord value ch

/-- `applyReadKeyChange` of a content value, which is validated first. -/
def applyReadKeyChange (ord : RangeOrder) (value : ℕ) (ch : AclReadKeyChange) :
    Except AclError AclState := do
  validateReadKeyChange C v st record.identity ch
  st.changeReadKey C record ord value (some ch)

/-- What `applyAccountRemove` leaves of an account. -/
def removedAccount (accSt : AccountState) : AccountState :=
  { accSt with
    status := .removed
    permissions := .none
    permissionChanges := accSt.permissionChanges ++ [⟨record.id, .none⟩] }

/-- The account is removed, and its open request with it. Deleting a pending request that is not
there does nothing, so the source's test for it is only needed for the request record. -/
def withoutAccount (idKey : GoString) (accSt : AccountState) : AclState :=
  { st with
    accountStates := st.accountStates.insert idKey (removedAccount record accSt)
    pendingRequests := st.pendingRequests.erase idKey
    requestRecords := match st.pendingRequests.lookup idKey with
      | none => st.requestRecords
      | some recId => st.requestRecords.erase recId }

/-- The body of the loop of `applyAccountRemove`. -/
def removeAccount (rawIdentity : Bytes) : Except AclError AclState := do
  let identity ← C.pubKeyFromProto rawIdentity
  let idKey := mapKeyFromPubKey identity
  match st.accountStates.lookup idKey with
  | none => .error .noSuchAccount
  | some accSt => pure (st.withoutAccount record idKey accSt)

/-- `applyAccountRemove`. -/
def applyAccountRemove (ord : RangeOrder) (value : ℕ) (ch : AclAccountRemove) :
    Except AclError AclState := do
  validateAccountRemove C v st record.identity ch
  let st ← ch.identities.foldlM (fun st rawIdentity => st.removeAccount C record rawIdentity) st
  st.changeReadKey C record ord value ch.readKeyChange

/-- `applySpaceOptionsChange`. -/
def applySpaceOptionsChange (ch : AclSpaceOptionsChange) : Except AclError AclState := do
  validateSpaceOptionsChange v st record.identity
  pure { st with optionChanges := st.optionChanges ++ [⟨record.id, ch.options⟩] }

/-- `applyChangeContent` for the content value at position `value` of its record. -/
def applyChangeContent (ord : RangeOrder) (value : ℕ) (ch : AclContentValue) :
    Except AclError AclState :=
  match ch with
  | .ownershipChange ch => st.applyOwnershipChange C v record ch
  | .inviteChange ch => st.applyInviteChange v record ch
  | .inviteJoin ch => st.applyInviteJoinWithoutApprove C v record ord value ch
  | .permissionChange ch => st.applyPermissionChange C v record ch
  | .invite ch => st.applyInvite C v record ch
  | .inviteRevoke ch => st.applyInviteRevoke v record ch
  | .requestJoin ch => st.applyRequestJoin C v record ch
  | .requestAccept ch => st.applyRequestAccept C v record ch
  | .requestDecline ch => st.applyRequestDecline v record ch
  | .requestCancel ch => st.applyRequestCancel v record ch
  | .accountRemove ch => st.applyAccountRemove C v record ord value ch
  | .readKeyChange ch => st.applyReadKeyChange C v record ord value ch
  | .accountRequestRemove => st.applyRequestRemove v record
  | .accountsAdd ch => st.applyAccountsAdd C v record ch
  | .permissionChanges ch => st.applyPermissionChanges C v record ch
  | .spaceOptionsChange ch => st.applySpaceOptionsChange v record ch
  | .unset => do
    v.validateUnexpectedContent
    pure st

/-- The content values of a record with their positions. -/
def contents : List (AclContentValue × ℕ) := record.model.aclContent.zipIdx

/-- `applyChangeData`. -/
def applyChangeData (ord : RangeOrder) : Except AclError AclState := do
  v.validateAclData record.model
  (contents record).foldlM (fun st ch => st.applyChangeContent C v record ord ch.2 ch.1) st

/-- `ApplyRecord`. -/
def applyRecord (ord : RangeOrder) : Except AclError AclState := do
  failIf st.isOneToOne addRecordOneToOne
  failIf (st.lastRecordId ≠ record.prevId) incorrectRecordSequence
  failIf (record.id = []) emptyRecordId
  let st ← st.applyChangeData C v record ord
  pure { st with lastRecordId := record.id }

end AclState

end Acl
