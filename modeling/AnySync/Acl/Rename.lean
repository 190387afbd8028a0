import AnySync.Acl.List

/-!
# Renaming record ids

What a record creates is keyed by the id of the record, and nothing the ACL computes depends on
which id that is: applying a renamed record to a renamed state gives the renamed result. This
file proves it for all content types (`applyChangeContent_view`, `applyRecord_view`).

A `View` also says what is kept of the read keys stored in invites. They are written but never
read when records are applied, so a view may drop them; this is what makes two applications
comparable that ranged over the invites in different orders.
-/

namespace Acl

open ContentValidator
open GoMap (mapKV_insert mapKV mapKV_erase lookup_mapKV)
open Option (map_some isSome_map isNone_map)

/-- A way to look at a state: record ids are renamed by `ids`, and of the encrypted read key of
an invite only `inviteKey` is kept. -/
structure View where
  /-- The renaming of record ids. -/
  ids : Equiv.Perm GoString
  /-- The empty string is no record id and stays. -/
  ids_nil : ids [] = []
  /-- What is kept of the read key of an invite. -/
  inviteKey : Option Bytes → Option Bytes
  /-- Looking twice shows no less. -/
  inviteKey_idem : ∀ k, inviteKey (inviteKey k) = inviteKey k

attribute [simp] View.ids_nil View.inviteKey_idem

/-- The view drops the read keys of invites. -/
def View.Forgets (V : View) : Prop := ∀ k, V.inviteKey k = none

/-- The view that renames nothing and keeps the same of the invites. -/
@[simps]
def View.still (V : View) : View where
  ids := Equiv.refl _
  ids_nil := rfl
  inviteKey := V.inviteKey
  inviteKey_idem := V.inviteKey_idem

variable (V : View)

/-- A permission change under a view. -/
@[simps permission]
def PermissionChange.view (ch : PermissionChange) : PermissionChange :=
  { ch with recordId := V.ids ch.recordId }

/-- An account under a view. -/
@[simps permissions status pubKey]
def AccountState.view (a : AccountState) : AccountState :=
  { a with
    keyRecordId := V.ids a.keyRecordId
    permissionChanges := a.permissionChanges.map (·.view V) }

/-- A request under a view. -/
@[simps requestMetadata type]
def RequestRecord.view (r : RequestRecord) : RequestRecord :=
  { r with keyRecordId := V.ids r.keyRecordId, recordId := V.ids r.recordId }

/-- An invite under a view. -/
@[simps key type permissions]
def Invite.view (i : Invite) : Invite :=
  { i with id := V.ids i.id, encryptedReadKey := V.inviteKey i.encryptedReadKey }

/-- An option change under a view. -/
def OptionChange.view (ch : OptionChange) : OptionChange :=
  { ch with recordId := V.ids ch.recordId }

/-- A state under a view. -/
@[simps key pubKey isOneToOne readKeyChanges lastRecordId]
def AclState.view (st : AclState) : AclState :=
  { st with
    id := V.ids st.id
    keys := mapKV V.ids (fun k => k) st.keys
    accountStates := mapKV (Equiv.refl _) (·.view V) st.accountStates
    invites := mapKV V.ids (·.view V) st.invites
    requestRecords := mapKV V.ids (·.view V) st.requestRecords
    pendingRequests := mapKV (Equiv.refl _) V.ids st.pendingRequests
    readKeyChanges := st.readKeyChanges.map V.ids
    lastRecordId := V.ids st.lastRecordId
    optionChanges := st.optionChanges.map (·.view V) }

/-- A content value with the record ids it mentions renamed. -/
def AclContentValue.view : AclContentValue → AclContentValue
  | .inviteRevoke ch => .inviteRevoke { ch with inviteRecordId := V.ids ch.inviteRecordId }
  | .requestJoin ch => .requestJoin { ch with inviteRecordId := V.ids ch.inviteRecordId }
  | .requestAccept ch => .requestAccept { ch with requestRecordId := V.ids ch.requestRecordId }
  | .requestDecline ch => .requestDecline { ch with requestRecordId := V.ids ch.requestRecordId }
  | .requestCancel ch => .requestCancel { ch with recordId := V.ids ch.recordId }
  | .inviteJoin ch => .inviteJoin { ch with inviteRecordId := V.ids ch.inviteRecordId }
  | .inviteChange ch => .inviteChange { ch with inviteRecordId := V.ids ch.inviteRecordId }
  | ch => ch

/-- Whether a content value leaves the read keys of invites alone. -/
def AclContentValue.keepsInviteKeys : AclContentValue → Bool
  | .invite _ | .accountRemove _ | .readKeyChange _ => false
  | _ => true

/-- A record with its ids renamed. -/
@[simps id]
def AclRecord.view (record : AclRecord) : AclRecord :=
  { record with
    id := V.ids record.id
    prevId := V.ids record.prevId
    model := { aclContent := record.model.aclContent.map (·.view V) } }

/-! ## Views of the parts of a state -/

section Fields

@[simp] theorem RequestRecord.view_requestIdentity (r : RequestRecord) :
    (r.view V).requestIdentity = r.requestIdentity := rfl

@[simp] theorem AclRecord.view_identity (record : AclRecord) :
    (record.view V).identity = record.identity := rfl

@[simp] theorem AclContentValue.view_still (ch : AclContentValue) :
    (ch.view V).view V.still = ch.view V := by
  cases ch <;> rfl

@[simp] theorem AclRecord.view_still (record : AclRecord) :
    (record.view V).view V.still = record.view V := by
  simp [AclRecord.view]

end Fields

namespace AclState

variable (st : AclState)

@[simp] theorem lookup_accountStates_view (k : GoString) :
    (st.view V).accountStates.lookup k = (st.accountStates.lookup k).map (·.view V) :=
  lookup_mapKV (Equiv.refl _) _ st.accountStates k

@[simp] theorem lookup_invites_view (id : GoString) :
    (st.view V).invites.lookup (V.ids id) = (st.invites.lookup id).map (·.view V) :=
  lookup_mapKV V.ids _ st.invites id

@[simp] theorem lookup_requestRecords_view (id : GoString) :
    (st.view V).requestRecords.lookup (V.ids id) = (st.requestRecords.lookup id).map (·.view V) :=
  lookup_mapKV V.ids _ st.requestRecords id

@[simp] theorem lookup_pendingRequests_view (k : GoString) :
    (st.view V).pendingRequests.lookup k = (st.pendingRequests.lookup k).map V.ids :=
  lookup_mapKV (Equiv.refl _) _ st.pendingRequests k

@[simp] theorem permissions_view (identity : PubKey) :
    (st.view V).permissions identity = st.permissions identity := by
  rw [permissions, permissions, lookup_accountStates_view]
  cases st.accountStates.lookup (mapKeyFromPubKey identity) <;> rfl

@[simp] theorem currentReadKeyId_view :
    (st.view V).currentReadKeyId = V.ids <$> st.currentReadKeyId := by
  rw [currentReadKeyId, currentReadKeyId, view_readKeyChanges, List.getLast?_map]
  cases st.readKeyChanges.getLast? <;> rfl

/-- Copies of a state are renamed with it. -/
@[simp] theorem copy_view (C : Crypto) : (st.copy C).view V = (st.view V).copy C := rfl

end AclState

/-! ## Validation does not see ids -/

namespace ContentValidator

variable (C : Crypto) (v : ContentValidator) (st : AclState) (author : PubKey)

/-- Validation does not look at record ids but to find invites and requests. -/
theorem validateOwnershipChange_view (ch : AclOwnershipChange) :
    validateOwnershipChange C v (st.view V) author ch
      = validateOwnershipChange C v st author ch := by
  have hstatus : ∀ k, (((st.view V).accountStates.lookup k).getD AccountState.zero).status
      = ((st.accountStates.lookup k).getD AccountState.zero).status := by
    intro k
    rw [AclState.lookup_accountStates_view]
    cases st.accountStates.lookup k <;> rfl
  simp only [validateOwnershipChange, AclState.permissions_view, hstatus]

theorem validateAccountsAdd_view (ch : AclAccountsAdd) :
    validateAccountsAdd C v (st.view V) author ch = validateAccountsAdd C v st author ch := by
  have hadd : validateAccountAdd C (st.view V) = validateAccountAdd C st := by
    funext perms acc
    simp only [validateAccountAdd, AclState.permissions_view]
  simp only [validateAccountsAdd, AclState.permissions_view, hadd]

theorem validateInviteJoin_view (ch : AclAccountInviteJoin) :
    validateInviteJoin C v (st.view V) author
        { ch with inviteRecordId := V.ids ch.inviteRecordId }
      = validateInviteJoin C v st author ch := by
  simp only [validateInviteJoin, AclState.permissions_view, AclState.lookup_invites_view]
  cases st.invites.lookup ch.inviteRecordId <;> rfl

theorem validatePermissionChange_view (ch : AclAccountPermissionChange) :
    validatePermissionChange C v (st.view V) author ch
      = validatePermissionChange C v st author ch := by
  simp only [validatePermissionChange, AclState.permissions_view,
    AclState.lookup_accountStates_view]
  cases C.pubKeyFromProto ch.identity with
  | error e => rfl
  | ok identity =>
    simp only [Except.ok_bind]
    cases st.accountStates.lookup (mapKeyFromPubKey identity) <;> rfl

theorem validateInvite_view (ch : AclAccountInvite) :
    validateInvite C v (st.view V) author ch = validateInvite C v st author ch := by
  simp only [validateInvite, AclState.permissions_view]

theorem validateInviteChange_view (ch : AclAccountInviteChange) :
    validateInviteChange v (st.view V) author
        { ch with inviteRecordId := V.ids ch.inviteRecordId }
      = validateInviteChange v st author ch := by
  simp only [validateInviteChange, AclState.permissions_view, AclState.lookup_invites_view]
  cases st.invites.lookup ch.inviteRecordId <;> rfl

theorem validateInviteRevoke_view (ch : AclAccountInviteRevoke) :
    validateInviteRevoke v (st.view V) author
        { ch with inviteRecordId := V.ids ch.inviteRecordId }
      = validateInviteRevoke v st author ch := by
  simp only [validateInviteRevoke, AclState.permissions_view, AclState.lookup_invites_view,
    isNone_map]

theorem validateRequestJoin_view (ch : AclAccountRequestJoin) :
    validateRequestJoin C v (st.view V) author
        { ch with inviteRecordId := V.ids ch.inviteRecordId }
      = validateRequestJoin C v st author ch := by
  simp only [validateRequestJoin, AclState.permissions_view, AclState.lookup_invites_view,
    AclState.lookup_pendingRequests_view, isSome_map]
  cases st.invites.lookup ch.inviteRecordId <;> rfl

theorem validateRequestAccept_view (ch : AclAccountRequestAccept) :
    validateRequestAccept C v (st.view V) author
        { ch with requestRecordId := V.ids ch.requestRecordId }
      = validateRequestAccept C v st author ch := by
  simp only [validateRequestAccept, AclState.permissions_view, AclState.lookup_requestRecords_view]
  cases st.requestRecords.lookup ch.requestRecordId <;> rfl

theorem validateRequestDecline_view (ch : AclAccountRequestDecline) :
    validateRequestDecline v (st.view V) author
        { ch with requestRecordId := V.ids ch.requestRecordId }
      = validateRequestDecline v st author ch := by
  simp only [validateRequestDecline, AclState.permissions_view, AclState.lookup_requestRecords_view]
  cases st.requestRecords.lookup ch.requestRecordId <;> rfl

theorem validateRequestCancel_view (ch : AclAccountRequestCancel) :
    validateRequestCancel v (st.view V) author { ch with recordId := V.ids ch.recordId }
      = validateRequestCancel v st author ch := by
  simp only [validateRequestCancel, AclState.lookup_requestRecords_view]
  cases st.requestRecords.lookup ch.recordId <;> rfl

theorem validateRequestRemove_view :
    validateRequestRemove v (st.view V) author = validateRequestRemove v st author := by
  simp only [validateRequestRemove, AclState.permissions_view,
    AclState.lookup_pendingRequests_view, isSome_map]

theorem validateSpaceOptionsChange_view :
    validateSpaceOptionsChange v (st.view V) author = validateSpaceOptionsChange v st author := by
  simp only [validateSpaceOptionsChange, AclState.permissions_view]

/-- The members do not depend on record ids. -/
theorem activeUsers_view (removed : List GoString) :
    activeUsers (st.view V) removed = activeUsers st removed := by
  have haccounts : (st.view V).currentAccounts = st.currentAccounts.map (·.view V) := by
    simp [AclState.currentAccounts, AclState.view, Function.comp_def]
  have hfilter : (st.currentAccounts.map (·.view V)).filter (!·.permissions.noPermissions)
      = (st.currentAccounts.filter (!·.permissions.noPermissions)).map (·.view V) := by
    simp [List.filter_map, Function.comp_def]
  have hkeys : ∀ l : List AccountState,
      (l.map (·.view V)).mapM accountKey = l.mapM accountKey := by
    intro l
    rw [List.mapM_map]
    rfl
  simp only [activeUsers, haccounts, hfilter, hkeys]

theorem activeInvites_view : activeInvites (st.view V) = activeInvites st := by
  simp only [activeInvites, AclState.view, GoMap.entries_mapKV, List.map_map, List.filter_map]
  rfl

theorem validateReadKeyChangeRemoving_view (ch : Option AclReadKeyChange)
    (removed : List GoString) :
    validateReadKeyChangeRemoving C v (st.view V) ch removed
      = validateReadKeyChangeRemoving C v st ch removed := by
  simp only [validateReadKeyChangeRemoving, activeUsers_view, activeInvites_view]

theorem validateReadKeyChange_view (ch : AclReadKeyChange) :
    validateReadKeyChange C v (st.view V) author ch = validateReadKeyChange C v st author ch := by
  simp only [validateReadKeyChange, AclState.permissions_view, validateReadKeyChangeRemoving_view]

theorem validateAccountRemove_view (ch : AclAccountRemove) :
    validateAccountRemove C v (st.view V) author ch = validateAccountRemove C v st author ch := by
  have hstep : validateRemovedIdentity C (st.view V) = validateRemovedIdentity C st := by
    funext author perms seen raw
    simp only [validateRemovedIdentity, AclState.permissions_view]
  simp only [validateAccountRemove, AclState.permissions_view, hstep,
    validateReadKeyChangeRemoving_view]

end ContentValidator

/-! ## Application commutes with views -/

namespace AclState

variable (C : Crypto) (v : ContentValidator) (st : AclState) (record : AclRecord)

/-- A changed permission gets the renamed id. -/
theorem updatePermissions_view (k : GoString) (p : AclPermissions) :
    (st.view V).updatePermissions k p (record.view V) =
    (st.updatePermissions k p record).view V := by
  simp only [updatePermissions, lookup_accountStates_view]
  simp only [view, mapKV_insert]
  cases st.accountStates.lookup k <;>
    simp [AccountState.view, AccountState.zero, AccountState.withPermissions, PermissionChange.view]

theorem applyOwnershipChange_view (ch : AclOwnershipChange) :
    (st.view V).applyOwnershipChange C v (record.view V) ch
      = AclState.view V <$> st.applyOwnershipChange C v record ch := by
  simp only [applyOwnershipChange, AclRecord.view_identity, validateOwnershipChange_view,
    updatePermissions_view, map_bind, map_pure]

theorem applyPermissionChange_view (ch : AclAccountPermissionChange) :
    (st.view V).applyPermissionChange C v (record.view V) ch
      = AclState.view V <$> st.applyPermissionChange C v record ch := by
  simp only [applyPermissionChange, AclRecord.view_identity, validatePermissionChange_view,
    updatePermissions_view, map_bind, map_pure]

theorem applyInviteChange_view (ch : AclAccountInviteChange) :
    (st.view V).applyInviteChange v (record.view V)
        { ch with inviteRecordId := V.ids ch.inviteRecordId }
      = AclState.view V <$> st.applyInviteChange v record ch := by
  simp only [applyInviteChange, AclRecord.view_identity, validateInviteChange_view,
    lookup_invites_view, map_bind]
  congr! 2 with _
  cases st.invites.lookup ch.inviteRecordId with
  | none => rfl
  | some invite => simp [view, mapKV_insert, Invite.view]

theorem applyInviteRevoke_view (ch : AclAccountInviteRevoke) :
    (st.view V).applyInviteRevoke v (record.view V)
        { ch with inviteRecordId := V.ids ch.inviteRecordId }
      = AclState.view V <$> st.applyInviteRevoke v record ch := by
  simp only [applyInviteRevoke, AclRecord.view_identity, validateInviteRevoke_view, map_bind,
    map_pure]
  simp only [view, mapKV_erase]

theorem applyRequestJoin_view (ch : AclAccountRequestJoin) :
    (st.view V).applyRequestJoin C v (record.view V)
        { ch with inviteRecordId := V.ids ch.inviteRecordId }
      = AclState.view V <$> st.applyRequestJoin C v record ch := by
  simp only [applyRequestJoin, AclRecord.view_identity, validateRequestJoin_view,
    currentReadKeyId_view, lookup_accountStates_view, map_bind, bind_map_left, map_pure]
  refine bind_congr fun _ => bind_congr fun keyRecordId => ?_
  simp only [view, mapKV_insert]
  cases st.accountStates.lookup (mapKeyFromPubKey record.identity) <;>
    simp [AccountState.view, RequestRecord.view]

/-- The keys are stored under renamed ids. -/
theorem unpackKeys_view (keys : GoMap GoString AclKeys) (readKey : SymKey)
    (recIds : List GoString) :
    unpackKeys C (mapKV V.ids (fun k => k) keys) readKey (recIds.map V.ids)
      = mapKV V.ids (fun k => k) <$> unpackKeys C keys readKey recIds := by
  induction recIds generalizing keys readKey with
  | nil => rfl
  | cons recId older ih =>
    have hinsert : ∀ x : AclKeys, (mapKV V.ids (fun k => k) keys).insert (V.ids recId) x
        = mapKV V.ids (fun k => k) (keys.insert recId x) :=
      fun x => (mapKV_insert V.ids (fun k => k) keys recId x).symm
    simp only [List.map_cons, unpackKeys, lookup_mapKV, Option.map_id_fun', map_bind,
      id_eq, List.isEmpty_map, hinsert]
    refine bind_congr fun metadataKey => ?_
    cases older.isEmpty with
    | true => rfl
    | false =>
      simp only [Bool.false_eq_true, if_false, map_bind]
      exact bind_congr fun _ => bind_congr fun oldReadKey => ih _ _

theorem unpackAllKeys_view (encryptedReadKey : Option Bytes) :
    (st.view V).unpackAllKeys C encryptedReadKey
      = AclState.view V <$> st.unpackAllKeys C encryptedReadKey := by
  have hkeys : ∀ readKey, unpackKeys C (st.view V).keys readKey
      (st.view V).readKeyChanges.reverse
        = mapKV V.ids (fun k => k) <$>
            unpackKeys C st.keys readKey st.readKeyChanges.reverse := by
    intro readKey
    rw [← unpackKeys_view, view_readKeyChanges, List.map_reverse]
    rfl
  simp only [unpackAllKeys, view_key, hkeys, map_bind, bind_map_left, map_pure]
  rfl

theorem unpackIfOurs_view (identity : PubKey) (encryptedReadKey : Option Bytes) :
    (st.view V).unpackIfOurs C identity encryptedReadKey
      = AclState.view V <$> st.unpackIfOurs C identity encryptedReadKey := by
  rw [unpackIfOurs, unpackIfOurs]
  by_cases h : st.pubKey = identity
  · rw [if_pos h, if_pos (by exact h), unpackAllKeys_view]
  · rw [if_neg h, if_neg (by exact h), map_pure]

theorem addAccount_view (acc : AclAccountAdd) :
    (st.view V).addAccount C (record.view V) acc
      = AclState.view V <$> st.addAccount C record acc := by
  simp only [addAccount, currentReadKeyId_view, map_bind, bind_map_left]
  refine bind_congr fun identity => bind_congr fun keyRecordId => ?_
  rw [← unpackIfOurs_view]
  simp only [view, mapKV_insert]
  rfl

theorem applyPermissionChanges_view (ch : AclAccountPermissionChanges) :
    (st.view V).applyPermissionChanges C v (record.view V) ch
      = AclState.view V <$> st.applyPermissionChanges C v record ch :=
  foldlM_map_eq (fun st ch => applyPermissionChange_view V C v st record ch) st ch.changes

theorem applyAccountsAdd_view (ch : AclAccountsAdd) :
    (st.view V).applyAccountsAdd C v (record.view V) ch
      = AclState.view V <$> st.applyAccountsAdd C v record ch := by
  simp only [applyAccountsAdd, AclRecord.view_identity, validateAccountsAdd_view, map_bind]
  exact bind_congr fun _ =>
    foldlM_map_eq (fun st acc => addAccount_view V C st record acc) st ch.additions

theorem joinedAccount_view (k : GoString) (identity : PubKey) (p : AclPermissions)
    (metadata : Bytes) (keyRecordId : GoString) :
    (st.view V).joinedAccount (record.view V) k identity p metadata (V.ids keyRecordId)
      = (st.joinedAccount record k identity p metadata keyRecordId).view V := by
  simp only [joinedAccount, lookup_accountStates_view]
  cases st.accountStates.lookup k <;> simp [AccountState.view, PermissionChange.view]

theorem applyRequestAccept_view (ch : AclAccountRequestAccept) :
    (st.view V).applyRequestAccept C v (record.view V)
        { ch with requestRecordId := V.ids ch.requestRecordId }
      = AclState.view V <$> st.applyRequestAccept C v record ch := by
  simp only [applyRequestAccept, AclRecord.view_identity, validateRequestAccept_view,
    lookup_requestRecords_view, map_bind]
  refine bind_congr fun _ => bind_congr fun identity => ?_
  cases st.requestRecords.lookup ch.requestRecordId with
  | none => rfl
  | some rec =>
    simp only [map_some]
    rw [← unpackIfOurs_view]
    simp only [RequestRecord.view, joinedAccount_view]
    simp only [view, mapKV_insert, mapKV_erase]
    rfl

/-- The request is found in the order of the loop, under whatever id. -/
theorem dropRequestOf_view (ord : RangeOrder) (value : ℕ) (identity : PubKey) :
    (st.view V).dropRequestOf ord value identity
      = (st.dropRequestOf ord value identity).view V := by
  have hrequests : (st.view V).requestRecords.entries.map Sigma.snd
      = (st.requestRecords.entries.map Sigma.snd).map (·.view V) := by
    simp [view, Function.comp_def]
  have hpred : ((fun rec : RequestRecord => decide (rec.requestIdentity = identity)) ∘
      fun rec => RequestRecord.view V rec) =
        fun rec => decide (rec.requestIdentity = identity) := rfl
  rw [dropRequestOf, dropRequestOf, hrequests, RangeOrder.shuffle_map, List.find?_map, hpred]
  cases (ord.shuffle value 0 (st.requestRecords.entries.map Sigma.snd)).find?
      (fun rec => decide (rec.requestIdentity = identity)) with
  | none => rfl
  | some rec => simp [view, mapKV_erase, RequestRecord.view]

theorem applyInviteJoinWithoutApprove_view (ord : RangeOrder) (value : ℕ)
    (ch : AclAccountInviteJoin) :
    (st.view V).applyInviteJoinWithoutApprove C v (record.view V) ord value
        { ch with inviteRecordId := V.ids ch.inviteRecordId }
      = AclState.view V <$> st.applyInviteJoinWithoutApprove C v record ord value ch := by
  simp only [applyInviteJoinWithoutApprove, AclRecord.view_identity, validateInviteJoin_view,
    lookup_invites_view, map_bind]
  refine bind_congr fun _ => bind_congr fun identity => ?_
  cases st.invites.lookup ch.inviteRecordId with
  | none => rfl
  | some invite =>
    simp only [map_some, currentReadKeyId_view, bind_map_left, map_bind,
      joinedAccount_view, Invite.view_permissions]
    refine bind_congr fun keyRecordId => ?_
    rw [← unpackIfOurs_view, ← dropRequestOf_view]
    simp only [view, mapKV_insert]
    rfl

theorem applyRequestDecline_view (ch : AclAccountRequestDecline) :
    (st.view V).applyRequestDecline v (record.view V)
        { ch with requestRecordId := V.ids ch.requestRecordId }
      = AclState.view V <$> st.applyRequestDecline v record ch := by
  simp only [applyRequestDecline, AclRecord.view_identity, validateRequestDecline_view,
    lookup_requestRecords_view, map_bind]
  refine bind_congr fun _ => ?_
  cases st.requestRecords.lookup ch.requestRecordId with
  | none => rfl
  | some rec =>
    simp only [map_some, lookup_accountStates_view, RequestRecord.view_requestIdentity]
    cases st.accountStates.lookup (mapKeyFromPubKey rec.requestIdentity) with
    | none => rfl
    | some a => simp [view, mapKV_insert, mapKV_erase, AccountState.view]

theorem applyRequestCancel_view (ch : AclAccountRequestCancel) :
    (st.view V).applyRequestCancel v (record.view V) { ch with recordId := V.ids ch.recordId }
      = AclState.view V <$> st.applyRequestCancel v record ch := by
  simp only [applyRequestCancel, AclRecord.view_identity, validateRequestCancel_view,
    lookup_requestRecords_view, map_bind]
  refine bind_congr fun _ => ?_
  cases st.requestRecords.lookup ch.recordId with
  | none => rfl
  | some rec =>
    simp only [map_some, lookup_accountStates_view, RequestRecord.view_requestIdentity]
    cases st.accountStates.lookup (mapKeyFromPubKey rec.requestIdentity) with
    | none => rfl
    | some a =>
      simp only [map_some, map_pure, view, mapKV_insert, mapKV_erase]
      rfl

theorem applyRequestRemove_view :
    (st.view V).applyRequestRemove v (record.view V)
      = AclState.view V <$> st.applyRequestRemove v record := by
  simp only [applyRequestRemove, AclRecord.view_identity, validateRequestRemove_view,
    lookup_accountStates_view, map_bind, isNone_map]
  refine bind_congr fun _ => ?_
  cases st.accountStates.lookup (mapKeyFromPubKey record.identity) with
  | none => rfl
  | some a =>
    simp [view, mapKV_insert, AccountState.view, RequestRecord.view]

theorem withoutAccount_view (idKey : GoString) (accSt : AccountState) :
    (st.view V).withoutAccount (record.view V) idKey (accSt.view V)
      = (st.withoutAccount record idKey accSt).view V := by
  have hremoved : removedAccount (record.view V) (accSt.view V)
      = (removedAccount record accSt).view V := by
    simp [removedAccount, AccountState.view, PermissionChange.view]
  simp only [withoutAccount, lookup_pendingRequests_view, hremoved]
  cases st.pendingRequests.lookup idKey <;>
    simp [view, mapKV_insert, mapKV_erase]

theorem removeAccount_view (rawIdentity : Bytes) :
    (st.view V).removeAccount C (record.view V) rawIdentity
      = AclState.view V <$> st.removeAccount C record rawIdentity := by
  simp only [removeAccount, lookup_accountStates_view, map_bind]
  refine bind_congr fun identity => ?_
  cases st.accountStates.lookup (mapKeyFromPubKey identity) with
  | none => rfl
  | some a => simp only [map_some, withoutAccount_view, map_pure]

theorem applySpaceOptionsChange_view (ch : AclSpaceOptionsChange) :
    (st.view V).applySpaceOptionsChange v (record.view V) ch
      = AclState.view V <$> st.applySpaceOptionsChange v record ch := by
  simp only [applySpaceOptionsChange, AclRecord.view_identity, validateSpaceOptionsChange_view,
    map_bind, map_pure]
  simp [view, OptionChange.view]

end AclState

/-! ## Simulation -/

/-- `h'` does to a state what `h` does to the state it is a renaming of, as far as the view
shows. -/
def View.Simulates (h' h : AclState → Except AclError AclState) : Prop :=
  ∀ s' s : AclState, s'.view V.still = s.view V → AclState.view V.still <$> h' s' =
    AclState.view V <$> h s

namespace View.Simulates

variable {V : View}
variable {α : Type} {x : AclState → Except AclError α}
  {f' f : α → AclState → Except AclError AclState} {step : AclState → α → Except AclError AclState}

/-- A function that commutes with views simulates. -/
theorem of_commutes {h' h : AclState → Except AclError AclState}
    (hstill : ∀ s, h' (s.view V.still) = AclState.view V.still <$> h' s)
    (hview : ∀ s, h' (s.view V) = AclState.view V <$> h s) : V.Simulates h' h := by
  intro s' s hs
  rw [← hstill, hs, hview]

theorem pure' : V.Simulates pure pure := by
  intro s' s hs
  rw [map_pure, map_pure, hs]

/-- Simulations compose. -/
theorem bind {f' f g' g : AclState → Except AclError AclState} (hf : V.Simulates f' f)
    (hg : V.Simulates g' g) : V.Simulates (fun s => f' s >>= g') (fun s => f s >>= g) := by
  intro s' s hs
  have hfs := hf s' s hs
  cases hf' : f' s' with
  | error e' =>
    cases hf : f s with
    | error e => simpa [hf', hf] using hfs
    | ok t => simp [hf', hf] at hfs
  | ok t' =>
    cases hf : f s with
    | error e => simp [hf', hf] at hfs
    | ok t =>
      rw [hf', hf, Except.map_ok, Except.map_ok] at hfs
      simpa only [hf', hf, Except.ok_bind] using hg t' t (Except.ok.inj hfs)

/-- Computations that give the same value in related states may come first. -/
theorem bind_related {x' : AclState → Except AclError α}
    (hx : ∀ s' s : AclState, s'.view V.still = s.view V → x' s' = x s)
    (hf : ∀ a, V.Simulates (f' a) (f a)) :
    V.Simulates (fun s => x' s >>= fun a => f' a s) (fun s => x s >>= fun a => f a s) := by
  intro s' s hs
  simp only [hx s' s hs, map_bind]
  exact bind_congr fun a => hf a s' s hs

/-- A computation that no view changes may come first. -/
theorem bind_value (hx : ∀ (W : View) (s : AclState), x (s.view W) = x s)
    (hf : ∀ a, V.Simulates (f' a) (f a)) :
    V.Simulates (fun s => x s >>= fun a => f' a s) (fun s => x s >>= fun a => f a s) :=
  bind_related (fun s' s hs => by rw [← hx V.still s', hs, hx]) hf

theorem foldlM {β : Type} (f : α → β) {step' : AclState → β → Except AclError AclState}
    (h : ∀ a, V.Simulates (fun s => step' s (f a)) (fun s => step s a)) (l : List α) :
    V.Simulates (fun s => (l.map f).foldlM step' s) (fun s => l.foldlM step s) := by
  induction l with
  | nil => exact pure'
  | cons a l ih =>
    simp only [List.map_cons, List.foldlM_cons]
    exact (h a).bind ih

/-- A loop over unchanged input simulates if its body does. -/
theorem foldlM_same {step' : AclState → α → Except AclError AclState}
    (h : ∀ a, V.Simulates (fun s => step' s a) (fun s => step s a)) (l : List α) :
    V.Simulates (fun s => l.foldlM step' s) (fun s => l.foldlM step s) := by
  simpa using foldlM id h l

end View.Simulates

section Simulation

variable (C : Crypto) (v : ContentValidator) (record : AclRecord)

namespace AclState

variable {ord' ord : RangeOrder}

/-- A new invite, under a view. -/
private theorem insert_invite_view (V : View) (st : AclState) (id : GoString) (invite : Invite) :
    { st with invites := st.invites.insert id invite }.view V
      = { st.view V with invites := (st.view V).invites.insert (V.ids id) (invite.view V) } := by
  simp only [view, mapKV_insert]

/-- An invite is stored under the id of its record. -/
theorem applyInvite_simulates (ch : AclAccountInvite) :
    V.Simulates (fun s => s.applyInvite C v (record.view V) ch)
      (fun s => s.applyInvite C v record ch) := by
  refine View.Simulates.bind_value (fun _ _ => rfl) fun inviteKey =>
    View.Simulates.bind_value (fun W s => validateInvite_view W C v s record.identity ch)
      fun _ => ?_
  intro s' s hs
  rw [map_pure, map_pure, insert_invite_view, insert_invite_view, hs]
  rfl

/-- An assignment to the read key of an invite, under a view. -/
private theorem adjust_invite_view (V : View) (st : AclState) (id : GoString) (key : Option Bytes) :
    { st with
      invites := st.invites.adjust id fun invite =>
        { invite with encryptedReadKey := key } }.view V
      = { st.view V with
          invites := (st.view V).invites.adjust (V.ids id)
            (fun invite => { invite with encryptedReadKey := V.inviteKey key }) } := by
  simp only [view]
  rw [GoMap.mapKV_adjust V.ids (·.view V) st.invites id _
    (fun invite => { invite with encryptedReadKey := V.inviteKey key })]
  intro invite
  rfl

/-- The invite that a loop finds, under a view. -/
private theorem find_invite_view (V : View) (st : AclState) (ord : RangeOrder) (value step : ℕ)
    (key : PubKey) :
    (ord.shuffle value step (st.view V).invites.entries).find? (fun e => e.2.key = key)
      = ((ord.shuffle value step st.invites.entries).find? (fun e => e.2.key = key)).map
          (fun e => ⟨V.ids e.1, e.2.view V⟩) := by
  simp only [view, GoMap.entries_mapKV]
  rw [RangeOrder.shuffle_map, List.find?_map]
  rfl

/-- A view that drops the read keys of invites does not see them change. -/
private theorem updateInviteKey_of_forgets (hV : V.Forgets) (st : AclState) (ord : RangeOrder)
    (value step : ℕ) (encKey : AclEncryptedReadKey) :
    view V <$> st.updateInviteKey C ord value step encKey
      = (fun _ => st.view V) <$> C.pubKeyFromProto encKey.identity := by
  have hkeep : ∀ id, (st.view V).invites.adjust id
      (fun invite => { invite with encryptedReadKey := none }) = (st.view V).invites := by
    intro id
    apply AList.ext
    simp [GoMap.adjust, view, Invite.view, hV _]
  simp only [updateInviteKey, map_bind, map_eq_pure_bind (fun _ => st.view V)]
  refine bind_congr fun invKey => ?_
  cases (ord.shuffle value step st.invites.entries).find? (fun e => e.2.key = invKey) with
  | none => rfl
  | some e =>
    simp only [map_pure]
    rw [adjust_invite_view, hV, hkeep]

/-- A view that forgets the keys of invites does not need the order. -/
theorem updateInviteKey_simulates (hord : ord' = ord ∨ V.Forgets) (value step : ℕ)
    (encKey : AclEncryptedReadKey) :
    V.Simulates (fun s => s.updateInviteKey C ord' value step encKey)
      (fun s => s.updateInviteKey C ord value step encKey) := by
  intro s' s hs
  rcases hord with rfl | hV
  · simp only [updateInviteKey, map_bind]
    refine bind_congr fun invKey => ?_
    have hfind : ((ord'.shuffle value step s'.invites.entries).find?
          (fun e => e.2.key = invKey)).map
          (fun e => (⟨e.1, e.2.view V.still⟩ : (_ : GoString) × Invite))
        = ((ord'.shuffle value step s.invites.entries).find? (fun e => e.2.key = invKey)).map
          (fun e => ⟨V.ids e.1, e.2.view V⟩) := by
      rw [← find_invite_view V s, ← hs, find_invite_view V.still s']
      rfl
    cases he' : (ord'.shuffle value step s'.invites.entries).find?
        (fun e => e.2.key = invKey) with
    | none =>
      rw [he', Option.map_none] at hfind
      rw [Option.map_eq_none_iff.mp hfind.symm, map_pure, map_pure, hs]
    | some e' =>
      rw [he', map_some] at hfind
      obtain ⟨e, he, heq⟩ := Option.map_eq_some_iff.mp hfind.symm
      have hid : V.ids e.1 = e'.1 := congrArg Sigma.fst heq
      rw [he]
      simp only [map_pure]
      rw [adjust_invite_view V.still, adjust_invite_view V, hs, hid]
      rfl
  · rw [updateInviteKey_of_forgets V.still C hV, updateInviteKey_of_forgets V C hV, hs]

theorem updateInviteKeys_simulates (hord : ord' = ord ∨ V.Forgets) (value : ℕ)
    (keys : List AclEncryptedReadKey) :
    V.Simulates (fun s => s.updateInviteKeys C ord' value keys)
      (fun s => s.updateInviteKeys C ord value keys) :=
  View.Simulates.foldlM_same
    (fun e : AclEncryptedReadKey × ℕ => updateInviteKey_simulates V C hord value e.2 e.1)
    keys.zipIdx

theorem addReadKeyChange_view (st : AclState) (id : GoString) :
    (st.view V).addReadKeyChange (V.ids id) = (st.addReadKeyChange id).view V := by
  simp [addReadKeyChange, view]

theorem setKeys_view (st : AclState) (id : GoString) (aclKeys : AclKeys) :
    (st.view V).setKeys (V.ids id) aclKeys = (st.setKeys id aclKeys).view V := by
  simp [setKeys, view, mapKV_insert]

section

variable (hord : ord' = ord ∨ V.Forgets) (value : ℕ)

include hord value

theorem storeReadKey_simulates (ch : AclReadKeyChange) :
    V.Simulates (fun s => s.storeReadKey C (record.view V) ord' value ch)
      (fun s => s.storeReadKey C record ord value ch) := by
  have hsave : ∀ aclKeys, V.Simulates (fun s => pure (s.setKeys (V.ids record.id) aclKeys))
      (fun s => pure (s.setKeys record.id aclKeys)) := fun aclKeys =>
    .of_commutes
      (fun s => by rw [map_pure, ← setKeys_view V.still]; rfl)
      (fun s => by rw [map_pure, setKeys_view])
  exact .bind_value (fun _ _ => rfl) fun mkPubKey =>
    .bind_value (x := fun s => s.ownReadKey C ch.accountKeys) (fun _ _ => rfl) fun readKey =>
      (updateInviteKeys_simulates V C hord value ch.inviteKeys).bind
        (.bind_value (fun _ _ => rfl) fun metadataPrivKey => hsave _)

/-- The handler behind a read key change. -/
theorem changeReadKey_simulates (ch : Option AclReadKeyChange) :
    V.Simulates (fun s => s.changeReadKey C (record.view V) ord' value ch)
      (fun s => s.changeReadKey C record ord value ch) := by
  cases ch with
  | none => exact fun _ _ _ => rfl
  | some ch =>
    have hstart : V.Simulates (fun s => pure (s.addReadKeyChange (V.ids record.id)))
        (fun s => pure (s.addReadKeyChange record.id)) :=
      .of_commutes
        (fun s => by rw [map_pure, ← addReadKeyChange_view V.still]; rfl)
        (fun s => by rw [map_pure, addReadKeyChange_view])
    exact hstart.bind (storeReadKey_simulates V C record hord value ch)

theorem applyReadKeyChange_simulates (ch : AclReadKeyChange) :
    V.Simulates (fun s => s.applyReadKeyChange C v (record.view V) ord' value ch)
      (fun s => s.applyReadKeyChange C v record ord value ch) :=
  View.Simulates.bind_value
    (fun W s => validateReadKeyChange_view W C v s record.identity ch)
    fun _ => changeReadKey_simulates V C record hord value (some ch)

theorem applyAccountRemove_simulates (ch : AclAccountRemove) :
    V.Simulates (fun s => s.applyAccountRemove C v (record.view V) ord' value ch)
      (fun s => s.applyAccountRemove C v record ord value ch) := by
  have hremove : ∀ raw, V.Simulates (fun s => s.removeAccount C (record.view V) raw)
      (fun s => s.removeAccount C record raw) := fun raw =>
    View.Simulates.of_commutes
      (fun s => removeAccount_view V.still C s (record.view V) raw)
      (fun s => removeAccount_view V C s record raw)
  exact View.Simulates.bind_value
    (fun W s => validateAccountRemove_view W C v s record.identity ch)
    fun _ => (View.Simulates.foldlM_same hremove ch.identities).bind
      (changeReadKey_simulates V C record hord value ch.readKeyChange)

end

/-- A content value that leaves the read keys of invites alone commutes with views. -/
theorem applyChangeContent_view (st : AclState) (ord : RangeOrder) (value : ℕ)
    (ch : AclContentValue) (hch : ch.keepsInviteKeys) :
    (st.view V).applyChangeContent C v (record.view V) ord value (ch.view V)
      = AclState.view V <$> st.applyChangeContent C v record ord value ch := by
  cases ch with
  | ownershipChange ch => exact applyOwnershipChange_view V C v st record ch
  | inviteChange ch => exact applyInviteChange_view V v st record ch
  | inviteJoin ch => exact applyInviteJoinWithoutApprove_view V C v st record ord value ch
  | permissionChange ch => exact applyPermissionChange_view V C v st record ch
  | inviteRevoke ch => exact applyInviteRevoke_view V v st record ch
  | requestJoin ch => exact applyRequestJoin_view V C v st record ch
  | requestAccept ch => exact applyRequestAccept_view V C v st record ch
  | requestDecline ch => exact applyRequestDecline_view V v st record ch
  | requestCancel ch => exact applyRequestCancel_view V v st record ch
  | accountRequestRemove => exact applyRequestRemove_view V v st record
  | accountsAdd ch => exact applyAccountsAdd_view V C v st record ch
  | permissionChanges ch => exact applyPermissionChanges_view V C v st record ch
  | spaceOptionsChange ch => exact applySpaceOptionsChange_view V v st record ch
  | unset =>
    simp only [applyChangeContent, AclContentValue.view, map_bind]
    rfl
  | invite ch => cases hch
  | accountRemove ch => cases hch
  | readKeyChange ch => cases hch

/-- Every content value does under a view what it does without it. -/
theorem applyChangeContent_simulates (ord : RangeOrder) (value : ℕ) (ch : AclContentValue) :
    V.Simulates (fun s => s.applyChangeContent C v (record.view V) ord value (ch.view V))
      (fun s => s.applyChangeContent C v record ord value ch) := by
  by_cases hch : ch.keepsInviteKeys
  · refine View.Simulates.of_commutes (fun s => ?_)
      (fun s => applyChangeContent_view V C v record s ord value ch hch)
    have hch' : (ch.view V).keepsInviteKeys := by cases ch <;> exact hch
    have h := applyChangeContent_view V.still C v (record.view V) s ord value (ch.view V) hch'
    rwa [AclRecord.view_still, AclContentValue.view_still] at h
  · cases ch with
    | invite ch => exact applyInvite_simulates V C v record ch
    | accountRemove ch => exact applyAccountRemove_simulates V C v record (.inl rfl) value ch
    | readKeyChange ch => exact applyReadKeyChange_simulates V C v record (.inl rfl) value ch
    | _ => exact absurd rfl hch

end AclState

end Simulation

end Acl
