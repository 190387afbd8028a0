import AnySync.Acl.Types
import AnySync.Go.Run

/-!
# The state of an access control list

`AclState` of `aclstate.go` with the queries that validation and application use, and
`applyRoot`, which makes the first state of an ACL from its root record.

A state belongs to an account (`key`): it holds the read keys that account could decrypt. The
pointer to the list and the validator are not part of it; functions that need them take them as
arguments.
-/

namespace Acl

/-- `AclState`. -/
structure AclState where
  /-- The id of the ACL, which is the id of its root. -/
  id : GoString
  /-- The keys by the record that introduced them. -/
  keys : GoMap GoString AclKeys
  /-- The accounts by public key. -/
  accountStates : GoMap GoString AccountState
  /-- The invites by record. -/
  invites : GoMap GoString Invite
  /-- The open requests by record. -/
  requestRecords : GoMap GoString RequestRecord
  /-- The record of the open request of an account, by public key. -/
  pendingRequests : GoMap GoString GoString
  /-- The records that changed the read key, oldest first. -/
  readKeyChanges : List GoString
  /-- The private key of the account this state belongs to. -/
  key : PrivKey
  /-- Its public key. -/
  pubKey : PubKey
  /-- The last record applied. -/
  lastRecordId : GoString
  /-- The changes of the space options, oldest first. -/
  optionChanges : List OptionChange
  /-- Whether the ACL is that of a one-to-one space. -/
  isOneToOne : Bool
deriving DecidableEq

/-- The account with new permissions, which its history records. -/
def AccountState.withPermissions (state : AccountState) (record : AclRecord)
    (permissions : AclPermissions) : AccountState :=
  { state with
    permissions := permissions
    permissionChanges := state.permissionChanges ++ [⟨record.id, permissions⟩] }

namespace AclState

/-- `Copy`. Values of the model are immutable, so only the public key is computed again. -/
def copy (C : Crypto) (st : AclState) : AclState :=
  { st with pubKey := C.getPublic st.key }

/-- `Permissions`: the permissions of the account with the given public key. -/
def permissions (st : AclState) (identity : PubKey) : AclPermissions :=
  match st.accountStates.lookup (mapKeyFromPubKey identity) with
  | none => .none
  | some state => state.permissions

/-- `CurrentReadKeyId`. It panics on a state without a read key change. -/
def currentReadKeyId (st : AclState) : Except AclError GoString :=
  match st.readKeyChanges.getLast? with
  | none => .error .panicked
  | some recordId => .ok recordId

/-- `CurrentAccounts`, in the order in which the entries are listed. -/
def currentAccounts (st : AclState) : List AccountState :=
  st.accountStates.entries.map Sigma.snd

/-- `updatePermissions`: an unknown account starts from the zero value. -/
def updatePermissions (st : AclState) (identityKey : GoString) (permissions : AclPermissions)
    (record : AclRecord) : AclState :=
  let state := (st.accountStates.lookup identityKey).getD AccountState.zero
  { st with
    accountStates :=
      st.accountStates.insert identityKey (state.withPermissions record permissions) }

end AclState

/-! ## Decryption -/

/-- `unmarshallDecryptReadKey`. -/
def unmarshallDecryptReadKey (C : Crypto) (msg : Option Bytes)
    (decryptor : Bytes → Except AclError Bytes) : Except AclError SymKey := do
  let decrypted ← decryptor (msg.getD [])
  match C.unmarshalSymKey decrypted with
  | none => .error .failedToDecrypt
  | some key => .ok key

/-- `unmarshallDecryptPrivKey`. -/
def unmarshallDecryptPrivKey (C : Crypto) (msg : Option Bytes)
    (decryptor : Bytes → Except AclError Bytes) : Except AclError PrivKey := do
  let decrypted ← decryptor (msg.getD [])
  match C.unmarshalPrivateKey decrypted with
  | none => .error .failedToDecrypt
  | some key => .ok key

/-- The loop of `unpackAllKeys` over the read key changes, newest first, starting from the read
key of the newest. -/
def unpackKeys (C : Crypto) :
    GoMap GoString AclKeys → SymKey → List GoString → Except AclError (GoMap GoString AclKeys)
  | keys, _, [] => .ok keys
  | keys, iterReadKey, recId :: older => do
    let aclKeys := (keys.lookup recId).getD AclKeys.zero
    let metadataKey ←
      unmarshallDecryptPrivKey C aclKeys.encryptedMetadataKey (C.keyDecrypt iterReadKey)
    let keys' := keys.insert recId
      { aclKeys with readKey := some iterReadKey, metadataPrivKey := some metadataKey }
    if older.isEmpty then
      .ok keys'
    else
      failIf aclKeys.encryptedPreviousReadKey.isNone AclError.incorrectReadKey
      let oldReadKey ←
        unmarshallDecryptReadKey C aclKeys.encryptedPreviousReadKey (C.keyDecrypt iterReadKey)
      unpackKeys C keys' oldReadKey older

/-- `unpackAllKeys`: decrypts and collects all read and metadata keys up to the given encrypted
read key. -/
def AclState.unpackAllKeys (C : Crypto) (st : AclState) (encryptedReadKey : Option Bytes) :
    Except AclError AclState := do
  let iterReadKey ← unmarshallDecryptReadKey C encryptedReadKey (C.privDecrypt st.key)
  let keys ← unpackKeys C st.keys iterReadKey st.readKeyChanges.reverse
  pure { st with keys := keys }

/-! ## The root -/

/-- `newAclStateWithKeys` before the root is applied. -/
def AclState.new (C : Crypto) (rootId : GoString) (key : PrivKey) : AclState :=
  { id := rootId, keys := ∅, accountStates := ∅, invites := ∅, requestRecords := ∅,
    pendingRequests := ∅, readKeyChanges := [], key := key, pubKey := C.getPublic key,
    lastRecordId := [], optionChanges := [], isOneToOne := false }

namespace AclState

/-- `saveKeysFromRoot`. -/
def saveKeysFromRoot (C : Crypto) (st : AclState) (id : GoString) (root : AclRoot) :
    Except AclError AclState := do
  let aclKeys := (st.keys.lookup id).getD AclKeys.zero
  match root.encryptedReadKey with
  | none =>
    match C.deriveReadKey st.key with
    | none => .error .failedToDecrypt
    | some readKey =>
      pure { st with keys := st.keys.insert id { aclKeys with readKey := some readKey } }
  | some encryptedReadKey => do
    let readKey ← unmarshallDecryptReadKey C (some encryptedReadKey) (C.privDecrypt st.key)
    let metadataKey ←
      unmarshallDecryptPrivKey C root.encryptedMetadataPrivKey (C.keyDecrypt readKey)
    pure
      { st with
        keys := st.keys.insert id
          { aclKeys with readKey := some readKey, metadataPrivKey := some metadataKey } }

/-- `deriveOneToOneKeys`: the shared keys of the two writers of a one-to-one space, for the
writer this state belongs to. -/
def deriveOneToOneKeys (C : Crypto) (st : AclState) (rootId : GoString)
    (info : AclOneToOneInfo) : Except AclError AclState := do
  let myPubKeyBytes := C.marshalPublicKey (C.getPublic st.key)
  let bobPubKeyBytes :=
    if myPubKeyBytes ≠ info.writers.headD [] then info.writers.headD []
    else info.writers.tail.headD []
  let bobPubKey ← C.pubKeyFromProto bobPubKeyBytes
  match C.sharedSpaceKey st.key bobPubKey with
  | none => .error .badOneToOneRoot
  | some sharedKey => do
    failIf (info.owner.getD [] ≠ C.marshalPublicKey (C.getPublic sharedKey))
      AclError.badOneToOneRoot
    match C.oneToOneReadKey sharedKey, C.sharedMetadataKey st.key bobPubKey with
    | some readKey, some metadataSharedKey =>
      match C.symEncrypt readKey metadataSharedKey.raw with
      | none => .error .badOneToOneRoot
      | some encMetadataKey =>
        pure
          { st with
            keys := st.keys.insert rootId
              { readKey := some readKey
                metadataPrivKey := some metadataSharedKey
                metadataPubKey := some (C.getPublic metadataSharedKey)
                encryptedPreviousReadKey := none
                encryptedMetadataKey := some encMetadataKey } }
    | _, _ => .error .badOneToOneRoot

/-- An account of a one-to-one space. -/
def addOneToOneAccount (st : AclState) (rootId : GoString) (pubKey : PubKey)
    (permissions : AclPermissions) : AclState :=
  { st with
    accountStates := st.accountStates.insert (mapKeyFromPubKey pubKey)
      { pubKey := some pubKey, permissions := permissions, status := .active,
        requestMetadata := [], keyRecordId := rootId,
        permissionChanges := [⟨rootId, permissions⟩] } }

/-- `setOneToOneAcl`. -/
def setOneToOneAcl (C : Crypto) (st : AclState) (rootId : GoString) (info : AclOneToOneInfo) :
    Except AclError AclState := do
  failIf (info.writers.length ≠ 2) AclError.badOneToOneRoot
  failIf info.owner.isNone AclError.badOneToOneRoot
  let foundMe := info.writers.any (· = C.marshalPublicKey (C.getPublic st.key))
  let st ← if foundMe then st.deriveOneToOneKeys C rootId info else pure st
  let sharedPk ← C.pubKeyFromProto (info.owner.getD [])
  let st := st.addOneToOneAccount rootId sharedPk .owner
  let st ← info.writers.foldlM (fun st writer => do
    let writerPk ← C.pubKeyFromProto writer
    pure (st.addOneToOneAccount rootId writerPk .writer)) st
  pure { st with readKeyChanges := [rootId], lastRecordId := rootId, isOneToOne := true }

/-- The keys of a root, as far as everyone can see them. A derived root has no read key. -/
def rootKeys (C : Crypto) (root : AclRoot) : Except AclError AclKeys :=
  match root.encryptedReadKey with
  | some _ => do
    let mkPubKey ← C.pubKeyFromProto root.metadataPubKey
    pure { AclKeys.zero with
      metadataPubKey := some mkPubKey
      encryptedMetadataKey := root.encryptedMetadataPrivKey }
  | none => pure AclKeys.zero

/-- The keys of a root that only its author can decrypt. -/
def saveKeysIfOurs (C : Crypto) (st : AclState) (record : AclRootRecord) :
    Except AclError AclState :=
  if st.pubKey = record.identity then st.saveKeysFromRoot C record.id record.model else pure st

/-- `applyRoot`. -/
def applyRoot (C : Crypto) (st : AclState) (record : AclRootRecord) :
    Except AclError AclState :=
  let root := record.model
  match root.oneToOneInfo with
  | some info => st.setOneToOneAcl C record.id info
  | none => do
    let aclKeys ← rootKeys C root
    let st ← { st with keys := st.keys.insert record.id aclKeys }.saveKeysIfOurs C record
    pure
      { st with
        accountStates := st.accountStates.insert (mapKeyFromPubKey record.identity)
          { pubKey := some record.identity, permissions := .owner, status := .active,
            requestMetadata := root.encryptedOwnerMetadata, keyRecordId := record.id,
            permissionChanges := [⟨record.id, .owner⟩] }
        readKeyChanges := [record.id]
        lastRecordId := record.id
        optionChanges := match root.options with
          | some options => [⟨record.id, some options⟩]
          | none => st.optionChanges }

end AclState

/-- `newAclStateWithKeys`. -/
def newAclStateWithKeys (C : Crypto) (rootRecord : AclRootRecord) (key : PrivKey) :
    Except AclError AclState :=
  (AclState.new C rootRecord.id key).applyRoot C rootRecord

end Acl
