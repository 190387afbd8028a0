import AnySync.Acl.State

/-!
# Content validation

`validator.go`: the checks a content value has to pass before it is applied. A validator whose
verifier does not validate accepts everything; the admission validator, which checks a record
before it enters the log, also rejects records without content and content of unknown type.

The checks are made in the order of the source, so that the error is the source's as well.
-/

namespace Acl

open AclError

/-- `contentValidator`: whether its verifier asks for validation, and whether it checks a record
that is not in the log yet. -/
structure ContentValidator where
  /-- `verifier.ShouldValidate()`. -/
  shouldValidate : Bool
  /-- `admission`. -/
  admission : Bool
deriving DecidableEq, Repr

/-- `newAdmissionValidator`. -/
def newAdmissionValidator : ContentValidator :=
  { shouldValidate := true, admission := true }

/-- `newContentValidator` for a list with the given verifier. -/
def newContentValidator (shouldValidate : Bool) : ContentValidator :=
  { shouldValidate := shouldValidate, admission := false }

/-- A batch of permission changes checks its author per change, so an empty one checks
nothing. -/
def AclContentValue.isEmptyBatch : AclContentValue → Bool
  | .permissionChanges ch => ch.changes.isEmpty
  | _ => false

namespace ContentValidator

variable (C : Crypto) (v : ContentValidator) (st : AclState) (authorIdentity : PubKey)

/-- The start of every validator: a verifier that does not validate accepts. -/
def check (body : Except AclError Unit) : Except AclError Unit :=
  if !v.shouldValidate then .ok () else body

/-- `ValidateAclData`. -/
def validateAclData (data : AclData) : Except AclError Unit :=
  if !v.admission then .ok () else do
    failIf data.aclContent.isEmpty noAclContent
    failIf (data.aclContent.any (·.isEmptyBatch)) noAclContent

/-- `ValidateUnexpectedContent`. -/
def validateUnexpectedContent : Except AclError Unit :=
  if !v.admission then .ok () else .error .unexpectedContentType

/-- `ValidateOwnershipChange`. -/
def validateOwnershipChange (ch : AclOwnershipChange) : Except AclError Unit :=
  v.check do
    failIf (!(st.permissions authorIdentity).isOwner) insufficientPermissions
    let identity ← C.pubKeyFromProto ch.newOwnerIdentity
    let newOwnerPerms := st.permissions identity
    failIf newOwnerPerms.noPermissions noSuchAccount
    let newOwnerStatus :=
      (st.accountStates.lookup (mapKeyFromPubKey identity)).getD AccountState.zero
    failIf (newOwnerStatus.status ≠ .active || newOwnerPerms.isOwner ||
      ch.oldOwnerPermissions.isOwner || ch.oldOwnerPermissions.noPermissions)
      insufficientPermissions

/-- The checks of `ValidateAccountsAdd` on one addition. -/
def validateAccountAdd (authorPerms : AclPermissions) (ch : AclAccountAdd) :
    Except AclError Unit := do
  let identity ← C.pubKeyFromProto ch.identity
  failIf (!(st.permissions identity).noPermissions) duplicateAccounts
  failIf ch.permissions.isOwner isOwner
  failIf ch.permissions.noPermissions insufficientPermissions
  failIf (ch.permissions.isAdmin && !authorPerms.isOwner) insufficientPermissions

/-- `ValidateAccountsAdd`. -/
def validateAccountsAdd (ch : AclAccountsAdd) : Except AclError Unit :=
  v.check do
    let authorPerms := st.permissions authorIdentity
    failIf (!authorPerms.canManageAccounts) insufficientPermissions
    ch.additions.forM (validateAccountAdd C st authorPerms)

/-- `ValidateInviteJoin`. -/
def validateInviteJoin (ch : AclAccountInviteJoin) : Except AclError Unit :=
  v.check do
    failIf (!(st.permissions authorIdentity).noPermissions) insufficientPermissions
    match st.invites.lookup ch.inviteRecordId with
    | none => .error .noSuchInvite
    | some invite => do
      failIf (invite.type ≠ .anyoneCanJoin) noSuchInvite
      failIf (!ch.permissions.isLessOrEqual invite.permissions)
        insufficientPermissions
      failIf (!(st.permissions authorIdentity).noPermissions) insufficientPermissions
      let inviteIdentity ← C.pubKeyFromProto ch.identity
      failIf (authorIdentity ≠ inviteIdentity) incorrectIdentity
      failIf (!C.verify invite.key inviteIdentity.raw ch.inviteIdentitySignature)
        invalidSignature
      failIf (maxMetadataLen < ch.metadata.length) metadataTooLarge
      failIf ch.encryptedReadKey.isNone incorrectReadKey

/-- `ValidatePermissionChange`. -/
def validatePermissionChange (ch : AclAccountPermissionChange) : Except AclError Unit :=
  v.check do
    let authorPerms := st.permissions authorIdentity
    failIf (!authorPerms.canManageAccounts) insufficientPermissions
    let chIdentity ← C.pubKeyFromProto ch.identity
    match st.accountStates.lookup (mapKeyFromPubKey chIdentity) with
    | none => .error .noSuchAccount
    | some currentState => do
      failIf (currentState.permissions = .guest) insufficientPermissions
      failIf (currentState.permissions = .owner) insufficientPermissions
      failIf (currentState.permissions.isAdmin && !authorPerms.isOwner)
        insufficientPermissions
      failIf (ch.permissions = .owner) insufficientPermissions
      failIf (ch.permissions = .admin && !authorPerms.isOwner)
        insufficientPermissions
      failIf (ch.permissions = .guest && currentState.permissions ≠ .reader)
        insufficientPermissions

/-- `ValidateInvite`. -/
def validateInvite (ch : AclAccountInvite) : Except AclError Unit :=
  v.check do
    let authorPerms := st.permissions authorIdentity
    failIf (!authorPerms.canManageAccounts) insufficientPermissions
    if ch.inviteType = .anyoneCanJoin then
      failIf (ch.permissions.isOwner || ch.permissions.noPermissions || ch.permissions.isGuest)
        insufficientPermissions
      failIf (ch.permissions.isAdmin && !authorPerms.isOwner) insufficientPermissions
      failIf ch.encryptedReadKey.isNone incorrectReadKey
    let _ ← C.pubKeyFromProto ch.inviteKey

/-- `ValidateInviteChange`. -/
def validateInviteChange (ch : AclAccountInviteChange) : Except AclError Unit :=
  v.check do
    let authorPerms := st.permissions authorIdentity
    failIf (!authorPerms.canManageAccounts) insufficientPermissions
    match st.invites.lookup ch.inviteRecordId with
    | none => .error .noSuchInvite
    | some invite => do
      failIf (invite.type ≠ .anyoneCanJoin) noSuchInvite
      failIf (invite.permissions = ch.permissions) insufficientPermissions
      failIf (ch.permissions.isOwner || ch.permissions.noPermissions || ch.permissions.isGuest)
        insufficientPermissions
      failIf (ch.permissions.isAdmin && !authorPerms.isOwner) insufficientPermissions

/-- `ValidateInviteRevoke`. -/
def validateInviteRevoke (ch : AclAccountInviteRevoke) : Except AclError Unit :=
  v.check do
    failIf (!(st.permissions authorIdentity).canManageAccounts) insufficientPermissions
    failIf (st.invites.lookup ch.inviteRecordId).isNone noSuchInvite

/-- `ValidateRequestJoin`. -/
def validateRequestJoin (ch : AclAccountRequestJoin) : Except AclError Unit :=
  v.check <| match st.invites.lookup ch.inviteRecordId with
    | none => .error .noSuchInvite
    | some invite => do
      failIf (!(st.permissions authorIdentity).noPermissions) insufficientPermissions
      failIf (invite.type ≠ .requestToJoin) noSuchInvite
      let inviteIdentity ← C.pubKeyFromProto ch.inviteIdentity
      failIf (st.pendingRequests.lookup (mapKeyFromPubKey inviteIdentity)).isSome
        pendingRequest
      failIf (authorIdentity ≠ inviteIdentity) incorrectIdentity
      failIf (!C.verify invite.key inviteIdentity.raw ch.inviteIdentitySignature)
        invalidSignature
      failIf (maxMetadataLen < ch.metadata.length) metadataTooLarge

/-- `ValidateRequestAccept`. -/
def validateRequestAccept (ch : AclAccountRequestAccept) : Except AclError Unit :=
  v.check do
    let authorPerms := st.permissions authorIdentity
    failIf (!authorPerms.canManageAccounts) insufficientPermissions
    match st.requestRecords.lookup ch.requestRecordId with
    | none => .error .noSuchRequest
    | some record => do
      let acceptIdentity ← C.pubKeyFromProto ch.identity
      failIf (acceptIdentity ≠ record.requestIdentity) incorrectIdentity
      failIf (ch.permissions = .owner) insufficientPermissions
      failIf (ch.permissions = .admin && !authorPerms.isOwner)
        insufficientPermissions

/-- `ValidateRequestDecline`. -/
def validateRequestDecline (ch : AclAccountRequestDecline) : Except AclError Unit :=
  v.check do
    failIf (!(st.permissions authorIdentity).canManageAccounts) insufficientPermissions
    match st.requestRecords.lookup ch.requestRecordId with
    | none => .error .noSuchRequest
    | some rec => failIf (rec.type ≠ .join) noSuchRequest

/-- `ValidateRequestCancel`. -/
def validateRequestCancel (ch : AclAccountRequestCancel) : Except AclError Unit :=
  v.check <| match st.requestRecords.lookup ch.recordId with
    | none => .error .noSuchRequest
    | some rec => failIf (rec.requestIdentity ≠ authorIdentity) insufficientPermissions

/-- `ValidateRequestRemove`. -/
def validateRequestRemove : Except AclError Unit :=
  v.check do
    failIf (st.permissions authorIdentity).noPermissions insufficientPermissions
    failIf (st.permissions authorIdentity).isOwner isOwner
    failIf (st.pendingRequests.lookup (mapKeyFromPubKey authorIdentity)).isSome
      pendingRequest

/-- `ValidateSpaceOptionsChange`. -/
def validateSpaceOptionsChange : Except AclError Unit :=
  v.check <|
    failIf (!(st.permissions authorIdentity).isOwner) insufficientPermissions

/-- The map key of an account, which panics on the zero value. -/
def accountKey (accState : AccountState) : Except AclError GoString :=
  match accState.pubKey with
  | none => .error .panicked
  | some pubKey => .ok (mapKeyFromPubKey pubKey)

/-- `activeUsers` of `validateReadKeyChange`: the accounts with permissions that are not being
removed. -/
def activeUsers (removedUsers : List GoString) : Except AclError (List GoString) := do
  let users ← (st.currentAccounts.filter (!·.permissions.noPermissions)).mapM accountKey
  pure (users.filter (· ∉ removedUsers))

/-- `activeInvites` of `validateReadKeyChange`: the keys of the invites anyone can join by. -/
def activeInvites : List GoString :=
  ((st.invites.entries.map Sigma.snd).filter (·.type = .anyoneCanJoin)).map
    (fun invite => mapKeyFromPubKey invite.key)

/-- The map keys of the identities a list of encrypted read keys is addressed to. -/
def addressees (keys : List AclEncryptedReadKey) : Except AclError (List GoString) :=
  keys.mapM fun encKeys => do
    let identity ← C.pubKeyFromProto encKeys.identity
    pure (mapKeyFromPubKey identity)

/-- `validateReadKeyChange`, for the accounts that remain once `removedUsers` are removed. -/
def validateReadKeyChangeRemoving (ch : Option AclReadKeyChange)
    (removedUsers : List GoString) : Except AclError Unit :=
  v.check <| match ch with
    | none => .error .panicked
    | some ch => do
      failIf (C.unmarshalPublicKey ch.metadataPubKey).isNone noMetadataKey
      failIf (ch.encryptedMetadataPrivKey.isNone || ch.encryptedOldReadKey.isNone)
        incorrectReadKey
      let activeUsers ← activeUsers st removedUsers
      let updatedUsers ← addressees C ch.accountKeys
      let updatedInvites ← addressees C ch.inviteKeys
      failIf (activeUsers.length ≠ updatedUsers.length) incorrectNumberOfAccounts
      failIf ((activeInvites st).length ≠ updatedInvites.length)
        incorrectNumberOfAccounts
      failIf (sortStrings activeUsers ≠ sortStrings updatedUsers ||
        sortStrings (activeInvites st) ≠ sortStrings updatedInvites)
        incorrectNumberOfAccounts

/-- `ValidateReadKeyChange`. -/
def validateReadKeyChange (ch : AclReadKeyChange) : Except AclError Unit :=
  v.check do
    failIf (!(st.permissions authorIdentity).canManageAccounts) insufficientPermissions
    validateReadKeyChangeRemoving C v st (some ch) []

/-- The checks of `ValidateAccountRemove` on one identity, given those seen before it. -/
def validateRemovedIdentity (authorPerms : AclPermissions) (seenIdentities : List GoString)
    (rawIdentity : Bytes) : Except AclError (List GoString) := do
  let identity ← C.pubKeyFromProto rawIdentity
  failIf (identity = authorIdentity) insufficientPermissions
  let permissions := st.permissions identity
  failIf permissions.noPermissions noSuchAccount
  failIf permissions.isOwner insufficientPermissions
  failIf (permissions.isAdmin && !authorPerms.isOwner) insufficientPermissions
  failIf (mapKeyFromPubKey identity ∈ seenIdentities) duplicateAccounts
  pure (mapKeyFromPubKey identity :: seenIdentities)

/-- `ValidateAccountRemove`. -/
def validateAccountRemove (ch : AclAccountRemove) : Except AclError Unit :=
  v.check do
    let authorPerms := st.permissions authorIdentity
    failIf (!authorPerms.canManageAccounts) insufficientPermissions
    let seenIdentities ←
      ch.identities.foldlM (validateRemovedIdentity C st authorIdentity authorPerms) []
    validateReadKeyChangeRemoving C v st ch.readKeyChange seenIdentities

end ContentValidator

end Acl
