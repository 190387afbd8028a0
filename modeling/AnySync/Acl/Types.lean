import AnySync.Go.Basic

/-!
# Access control list: permissions, records and accounts

The data of the access control list (ACL) of a space: `commonspace/object/acl/list/models.go`,
the messages of `aclrecordproto` and the record types of `aclstate.go`.

The messages are the values the generated decoder produces: a `bytes` field whose `nil` value
the source tests for is an `Option Bytes`, an enum may hold a value this build does not know,
and a sub-message may be absent.

Keys come from `util/crypto`, which wraps libraries outside the repository. `Crypto` collects
the functions the ACL calls; every definition takes it as an argument.
-/

namespace Acl

/-- The errors of the ACL package, and `panicked` for a call that does not return because it
dereferences a missing sub-message, account or key. -/
inductive AclError
  | noSuchAccount
  | pendingRequest
  | unexpectedContentType
  | incorrectIdentity
  | failedToDecrypt
  | noMetadataKey
  | noSuchRecord
  | noSuchRequest
  | noSuchInvite
  | insufficientPermissions
  | isOwner
  | incorrectNumberOfAccounts
  | duplicateAccounts
  | noReadKey
  | incorrectReadKey
  | invalidSignature
  | incorrectRoot
  | incorrectRecordSequence
  | metadataTooLarge
  | addRecordOneToOne
  | noAclContent
  | incorrectCID
  | recordAlreadyExists
  | emptyRecordId
  | badPublicKey
  | badOneToOneRoot
  | malformedRecord
  | acceptorNotVerified
  | storageFailed
  | panicked
deriving DecidableEq, Repr

/-- `MaxMetadataLen`. -/
def maxMetadataLen : ℕ := 1024

/-! ## Keys -/

/-- An ed25519 public key: its 32 bytes, which `Equals` compares and `Storage` returns. -/
structure PubKey where
  /-- The raw key. -/
  raw : Bytes
deriving DecidableEq, Repr

/-- An ed25519 private key. -/
structure PrivKey where
  /-- The raw key. -/
  raw : Bytes
deriving DecidableEq, Repr

/-- A symmetric key. -/
structure SymKey where
  /-- The raw key. -/
  raw : Bytes
deriving DecidableEq, Repr

/-- `mapKeyFromPubKey`: the key under which maps of the state hold what belongs to `pubKey`. -/
def mapKeyFromPubKey (pubKey : PubKey) : GoString := pubKey.raw

/-- Two public keys never share an account entry. -/
theorem mapKeyFromPubKey_injective : Function.Injective mapKeyFromPubKey := by
  rintro ⟨a⟩ ⟨b⟩ h
  exact congrArg PubKey.mk h

@[simp]
theorem mapKeyFromPubKey_inj {a b : PubKey} : mapKeyFromPubKey a = mapKeyFromPubKey b ↔ a = b :=
  mapKeyFromPubKey_injective.eq_iff

/-- What the ACL uses of `util/crypto`. Decoding and decryption may fail. -/
structure Crypto where
  /-- `UnmarshalEd25519PublicKeyProto`. -/
  unmarshalPublicKey : Bytes → Option PubKey
  /-- `PubKey.Marshall`. -/
  marshalPublicKey : PubKey → Bytes
  /-- `PrivKey.GetPublic`. -/
  getPublic : PrivKey → PubKey
  /-- `PubKey.Verify`. -/
  verify : PubKey → Bytes → Bytes → Bool
  /-- `box.Open` of `DecryptX25519` on a message of at least 32 bytes. -/
  decrypt : PrivKey → Bytes → Option Bytes
  /-- `SymKey.Decrypt`, which fails on a message that is too short. -/
  symDecrypt : SymKey → Bytes → Option Bytes
  /-- `SymKey.Encrypt`. -/
  symEncrypt : SymKey → Bytes → Option Bytes
  /-- `UnmarshallAESKeyProto`. -/
  unmarshalSymKey : Bytes → Option SymKey
  /-- `UnmarshalEd25519PrivateKeyProto`. -/
  unmarshalPrivateKey : Bytes → Option PrivKey
  /-- `AclState.deriveKey`: the read key of a derived ACL. -/
  deriveReadKey : PrivKey → Option SymKey
  /-- `GenerateSharedKey` for the path of a one-to-one space. -/
  sharedSpaceKey : PrivKey → PubKey → Option PrivKey
  /-- `GenerateSharedKey` for the metadata path of a one-to-one space. -/
  sharedMetadataKey : PrivKey → PubKey → Option PrivKey
  /-- `DeriveSymmetricKey` for the read key path of a one-to-one space. -/
  oneToOneReadKey : PrivKey → Option SymKey

/-- `KeyStorage.PubKeyFromProto`; its cache does not change the result. -/
def Crypto.pubKeyFromProto (C : Crypto) (protoBytes : Bytes) : Except AclError PubKey :=
  match C.unmarshalPublicKey protoBytes with
  | some key => .ok key
  | none => .error .badPublicKey

/-- `PrivKey.Decrypt`. A message starts with the 32 bytes of an ephemeral key, which
`DecryptX25519` slices off before it looks at anything else: a shorter message panics. -/
def Crypto.privDecrypt (C : Crypto) (key : PrivKey) (msg : Bytes) : Except AclError Bytes :=
  if msg.length < 32 then .error .panicked
  else
    match C.decrypt key msg with
    | none => .error .failedToDecrypt
    | some decrypted => .ok decrypted

/-- `SymKey.Decrypt`. -/
def Crypto.keyDecrypt (C : Crypto) (key : SymKey) (msg : Bytes) : Except AclError Bytes :=
  match C.symDecrypt key msg with
  | none => .error .failedToDecrypt
  | some decrypted => .ok decrypted

/-! ## Permissions -/

/-- `AclPermissions`, the enum `AclUserPermissions`. Proto3 enums are open: a decoded message
may carry a number outside the known values. -/
inductive AclPermissions
  | none
  | owner
  | admin
  | writer
  | reader
  | guest
  | unknown (value : ℤ) (h : value < 0 ∨ 5 < value)
deriving DecidableEq, Repr

namespace AclPermissions

variable {p : AclPermissions}

/-- `NoPermissions`. -/
def noPermissions (p : AclPermissions) : Bool := p = .none

/-- `IsOwner`. -/
def isOwner (p : AclPermissions) : Bool := p = .owner

/-- `IsGuest`. -/
def isGuest (p : AclPermissions) : Bool := p = .guest

/-- `IsAdmin`. -/
def isAdmin (p : AclPermissions) : Bool := p = .admin

/-- `CanWrite`. -/
def canWrite : AclPermissions → Bool
  | .admin | .writer | .owner => true
  | _ => false

/-- `CanManageAccounts`. -/
def canManageAccounts : AclPermissions → Bool
  | .admin | .owner => true
  | _ => false

/-- `CanRequestRemove`. -/
def canRequestRemove : AclPermissions → Bool
  | .guest => false
  | _ => true

/-- `IsLessOrEqual`. -/
def isLessOrEqual (p q : AclPermissions) : Bool :=
  match p with
  | .none => true
  | .reader => q ≠ .none
  | .writer => q = .writer || q = .admin
  | .admin => p = q
  | _ => false

@[simp]
theorem noPermissions_iff : p.noPermissions = true ↔ p = .none := by
  simp [noPermissions]

@[simp]
theorem noPermissions_eq_false : p.noPermissions = false ↔ p ≠ .none := by
  simp [noPermissions]

@[simp]
theorem isOwner_iff : p.isOwner = true ↔ p = .owner := by
  simp [isOwner]

@[simp]
theorem isOwner_eq_false : p.isOwner = false ↔ p ≠ .owner := by
  simp [isOwner]

@[simp]
theorem isGuest_iff : p.isGuest = true ↔ p = .guest := by
  simp [isGuest]

@[simp]
theorem isGuest_eq_false : p.isGuest = false ↔ p ≠ .guest := by
  simp [isGuest]

@[simp]
theorem isAdmin_iff : p.isAdmin = true ↔ p = .admin := by
  simp [isAdmin]

/-- Admins and the owner manage accounts, nobody else. -/
@[simp]
theorem canManageAccounts_iff :
    p.canManageAccounts = true ↔ p = .admin ∨ p = .owner := by
  cases p <;> simp [canManageAccounts]

/-- Everybody but a guest may ask to leave. -/
@[simp]
theorem canRequestRemove_iff :
    p.canRequestRemove = true ↔ p ≠ .guest := by
  cases p <;> simp [canRequestRemove]

end AclPermissions

/-! ## Accounts, requests and invites -/

/-- `AclStatus`. -/
inductive AclStatus
  | none
  | joining
  | active
  | removed
  | declined
  | removing
  | canceled
deriving DecidableEq, Repr

/-- `RequestType`. -/
inductive RequestType
  | remove
  | join
deriving DecidableEq, Repr

/-- `AclInviteType`, open as every proto3 enum. -/
inductive AclInviteType
  | requestToJoin
  | anyoneCanJoin
  | unknown (value : ℤ) (h : value < 0 ∨ 1 < value)
deriving DecidableEq, Repr

/-- `PermissionChange`: the record that gave an account a permission. -/
structure PermissionChange where
  /-- The record. -/
  recordId : GoString
  /-- The permission it gave. -/
  permission : AclPermissions
deriving DecidableEq, Repr

/-- `AccountState`. -/
structure AccountState where
  /-- `nil` in the zero value that `updatePermissions` starts from for an unknown account. -/
  pubKey : Option PubKey
  /-- The current permissions. -/
  permissions : AclPermissions
  /-- The current status. -/
  status : AclStatus
  /-- The metadata of the join request. -/
  requestMetadata : Bytes
  /-- The read key change that was current when the account was created. -/
  keyRecordId : GoString
  /-- The changes of the account's permissions, oldest first. -/
  permissionChanges : List PermissionChange
deriving DecidableEq, Repr

/-- The zero value of `AccountState`. -/
def AccountState.zero : AccountState :=
  { pubKey := none, permissions := .none, status := .none, requestMetadata := [],
    keyRecordId := [], permissionChanges := [] }

/-- `RequestRecord`. -/
structure RequestRecord where
  /-- Who made the request. -/
  requestIdentity : PubKey
  /-- The metadata of a join request. -/
  requestMetadata : Bytes
  /-- The read key change that was current when the request was made. -/
  keyRecordId : GoString
  /-- The record that made the request. -/
  recordId : GoString
  /-- A request to join or to be removed. -/
  type : RequestType
deriving DecidableEq, Repr

/-- `Invite`. -/
structure Invite where
  /-- The public invite key. -/
  key : PubKey
  /-- With or without approval. -/
  type : AclInviteType
  /-- The permissions a join without approval gives. -/
  permissions : AclPermissions
  /-- The record that made the invite. -/
  id : GoString
  /-- The read key of the space, encrypted with the invite key. -/
  encryptedReadKey : Option Bytes
deriving DecidableEq, Repr

/-- `AclKeys`. -/
structure AclKeys where
  /-- The read key, once this account knows it. -/
  readKey : Option SymKey
  /-- The metadata private key, once this account knows it. -/
  metadataPrivKey : Option PrivKey
  /-- The metadata public key. -/
  metadataPubKey : Option PubKey
  /-- The previous read key, encrypted with the read key. -/
  encryptedPreviousReadKey : Option Bytes
  /-- The metadata private key, encrypted with the read key. -/
  encryptedMetadataKey : Option Bytes
deriving DecidableEq, Repr

/-- The zero value of `AclKeys`. -/
def AclKeys.zero : AclKeys :=
  { readKey := none, metadataPrivKey := none, metadataPubKey := none,
    encryptedPreviousReadKey := none, encryptedMetadataKey := none }

/-- `AclSpaceOptions`. -/
structure AclSpaceOptions where
  /-- Whether deletion is restricted. -/
  deleteRestricted : Bool
deriving DecidableEq, Repr

/-- `OptionChange`. -/
structure OptionChange where
  /-- The record that changed the options. -/
  recordId : GoString
  /-- The new options. -/
  options : Option AclSpaceOptions
deriving DecidableEq, Repr

/-! ## Messages -/

/-- `AclAccountInvite`. -/
structure AclAccountInvite where
  inviteKey : Bytes
  inviteType : AclInviteType
  permissions : AclPermissions
  encryptedReadKey : Option Bytes
deriving DecidableEq, Repr

/-- `AclAccountInviteChange`. -/
structure AclAccountInviteChange where
  inviteRecordId : GoString
  permissions : AclPermissions
deriving DecidableEq, Repr

/-- `AclOwnershipChange`. -/
structure AclOwnershipChange where
  newOwnerIdentity : Bytes
  oldOwnerPermissions : AclPermissions
deriving DecidableEq, Repr

/-- `AclAccountRequestJoin`. -/
structure AclAccountRequestJoin where
  inviteIdentity : Bytes
  inviteRecordId : GoString
  inviteIdentitySignature : Bytes
  metadata : Bytes
deriving DecidableEq, Repr

/-- `AclAccountInviteJoin`. -/
structure AclAccountInviteJoin where
  identity : Bytes
  inviteRecordId : GoString
  inviteIdentitySignature : Bytes
  metadata : Bytes
  encryptedReadKey : Option Bytes
  permissions : AclPermissions
deriving DecidableEq, Repr

/-- `AclAccountRequestAccept`. -/
structure AclAccountRequestAccept where
  identity : Bytes
  requestRecordId : GoString
  encryptedReadKey : Option Bytes
  permissions : AclPermissions
deriving DecidableEq, Repr

/-- `AclAccountRequestDecline`. -/
structure AclAccountRequestDecline where
  requestRecordId : GoString
deriving DecidableEq, Repr

/-- `AclAccountInviteRevoke`. -/
structure AclAccountInviteRevoke where
  inviteRecordId : GoString
deriving DecidableEq, Repr

/-- `AclEncryptedReadKey`. -/
structure AclEncryptedReadKey where
  identity : Bytes
  encryptedReadKey : Option Bytes
deriving DecidableEq, Repr

/-- `AclAccountPermissionChange`. -/
structure AclAccountPermissionChange where
  identity : Bytes
  permissions : AclPermissions
deriving DecidableEq, Repr

/-- `AclAccountPermissionChanges`. -/
structure AclAccountPermissionChanges where
  changes : List AclAccountPermissionChange
deriving DecidableEq, Repr

/-- `AclAccountAdd`. -/
structure AclAccountAdd where
  identity : Bytes
  permissions : AclPermissions
  metadata : Bytes
  encryptedReadKey : Option Bytes
deriving DecidableEq, Repr

/-- `AclAccountsAdd`. -/
structure AclAccountsAdd where
  additions : List AclAccountAdd
deriving DecidableEq, Repr

/-- `AclAccountRequestCancel`. -/
structure AclAccountRequestCancel where
  recordId : GoString
deriving DecidableEq, Repr

/-- `AclReadKeyChange`. -/
structure AclReadKeyChange where
  accountKeys : List AclEncryptedReadKey
  metadataPubKey : Bytes
  encryptedMetadataPrivKey : Option Bytes
  encryptedOldReadKey : Option Bytes
  inviteKeys : List AclEncryptedReadKey
deriving DecidableEq, Repr

/-- `AclAccountRemove`. -/
structure AclAccountRemove where
  identities : List Bytes
  readKeyChange : Option AclReadKeyChange
deriving DecidableEq, Repr

/-- `AclSpaceOptionsChange`. -/
structure AclSpaceOptionsChange where
  options : Option AclSpaceOptions
deriving DecidableEq, Repr

/-- `AclContentValue`: a value of one of the sixteen content types, or `unset` for a value whose
type is missing or was added after this build. -/
inductive AclContentValue
  | invite (ch : AclAccountInvite)
  | inviteRevoke (ch : AclAccountInviteRevoke)
  | requestJoin (ch : AclAccountRequestJoin)
  | requestAccept (ch : AclAccountRequestAccept)
  | permissionChange (ch : AclAccountPermissionChange)
  | accountRemove (ch : AclAccountRemove)
  | readKeyChange (ch : AclReadKeyChange)
  | requestDecline (ch : AclAccountRequestDecline)
  | accountRequestRemove
  | permissionChanges (ch : AclAccountPermissionChanges)
  | accountsAdd (ch : AclAccountsAdd)
  | requestCancel (ch : AclAccountRequestCancel)
  | inviteJoin (ch : AclAccountInviteJoin)
  | inviteChange (ch : AclAccountInviteChange)
  | ownershipChange (ch : AclOwnershipChange)
  | spaceOptionsChange (ch : AclSpaceOptionsChange)
  | unset
deriving DecidableEq, Repr

/-- `AclData`. -/
structure AclData where
  aclContent : List AclContentValue
deriving DecidableEq, Repr

/-- `AclOneToOneInfo`. -/
structure AclOneToOneInfo where
  owner : Option Bytes
  writers : List Bytes
deriving DecidableEq, Repr

/-- The part of `AclRoot` that `applyRoot` reads. -/
structure AclRoot where
  encryptedReadKey : Option Bytes
  metadataPubKey : Bytes
  encryptedMetadataPrivKey : Option Bytes
  encryptedOwnerMetadata : Bytes
  oneToOneInfo : Option AclOneToOneInfo
  options : Option AclSpaceOptions
deriving DecidableEq, Repr

/-- `AclRecord` with its decoded model. Before the network accepts a record its `id` is the hash
of its payload, afterwards the id the network assigned. -/
structure AclRecord where
  /-- The id of the record. -/
  id : GoString
  /-- The id of the record before it. -/
  prevId : GoString
  /-- The author. -/
  identity : PubKey
  /-- The content. -/
  model : AclData
deriving DecidableEq, Repr

/-- The record that starts an ACL. -/
structure AclRootRecord where
  /-- The id of the record, which is the id of the ACL. -/
  id : GoString
  /-- The author. -/
  identity : PubKey
  /-- The content. -/
  model : AclRoot
deriving DecidableEq, Repr

end Acl
