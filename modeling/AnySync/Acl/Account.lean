import AnySync.Acl.Requests

/-!
# What a content value can do to one account

`AccountChange C st record k ch a' r'` lists the ways in which the validated application of `ch`
can leave the account under the key `k`: `a'` is the account afterwards and `r'` the type of its
open request. It is read off `Transition` once (`Transition.accountChange`); the statements about
ownership, administration, history and status are case analyses of it.

`InvitesWF` says what the permissions of an invite that anyone can join by can be.
-/

namespace Acl

variable {st : AclState} {a : AccountState}

/-- The recorded permission changes of an account that may be unknown. -/
def historyIn : Option AccountState → List PermissionChange
  | none => []
  | some state => state.permissionChanges

/-- The recorded permission changes of the account under `k`. -/
def AclState.history (st : AclState) (k : GoString) : List PermissionChange :=
  historyIn (st.accountStates.lookup k)

/-- Accepting a request and joining by an invite add to the history. -/
@[simp]
theorem AclState.joinedAccount_permissionChanges (st : AclState) (record : AclRecord) (k : GoString)
    (identity : PubKey) (permissions : AclPermissions) (metadata : Bytes) (keyRecordId : GoString) :
    (st.joinedAccount record k identity permissions metadata keyRecordId).permissionChanges
      = st.history k ++ [⟨record.id, permissions⟩] := by
  simp only [AclState.joinedAccount, AclState.history]
  cases st.accountStates.lookup k <;> rfl

@[simp]
theorem AclState.joinedAccount_permissions (st : AclState) (record : AclRecord) (k : GoString)
    (identity : PubKey) (permissions : AclPermissions) (metadata : Bytes) (keyRecordId : GoString) :
    (st.joinedAccount record k identity permissions metadata keyRecordId).permissions
      = permissions := rfl

/-- The permissions of an account that may be unknown. -/
def permissionsIn : Option AccountState → AclPermissions
  | none => .none
  | some state => state.permissions

@[simp]
theorem permissionsIn_none : permissionsIn none = .none := rfl

@[simp]
theorem permissionsIn_some (a : AccountState) : permissionsIn (some a) = a.permissions := rfl

/-- The permissions of the account under `k`. -/
def AclState.permissionsOf (st : AclState) (k : GoString) : AclPermissions :=
  permissionsIn (st.accountStates.lookup k)

theorem AclState.permissions_eq (st : AclState) (identity : PubKey) :
    st.permissions identity = st.permissionsOf (mapKeyFromPubKey identity) := rfl

theorem AclState.permissionsOf_of_lookup {k : GoString} (h : st.accountStates.lookup k = some a) :
    st.permissionsOf k = a.permissions := by
  rw [AclState.permissionsOf, h, permissionsIn_some]

theorem AclState.permissionsOf_insert {st' : AclState} {key : GoString}
    (h : st'.accountStates = st.accountStates.insert key a) (k : GoString) :
    st'.permissionsOf k = if k = key then a.permissions else st.permissionsOf k := by
  unfold AclState.permissionsOf
  rw [h, GoMap.lookup_insert_eq]
  by_cases hk : k = key
  · rw [if_pos hk, if_pos hk, permissionsIn_some]
  · rw [if_neg hk, if_neg hk]

/-- The ways in which a content value can change the account under `k`. -/
inductive AccountChange (C : Crypto) (st : AclState) (record : AclRecord) (k : GoString) :
    AclContentValue → Option AccountState → Option RequestType → Prop
  | same {ch : AclContentValue} :
      AccountChange C st record k ch (st.accountStates.lookup k) (st.requestType k)
  | permission {ch : AclAccountPermissionChange} {target : PubKey} {state : AccountState}
      (author : st.CanManage record.identity)
      (identity : C.unmarshalPublicKey ch.identity = some target)
      (key : k = mapKeyFromPubKey target)
      (known : st.accountStates.lookup k = some state)
      (not_owner : state.permissions ≠ .owner)
      (was_admin : state.permissions = .admin → st.permissions record.identity = .owner)
      (new_not_owner : ch.permissions ≠ .owner)
      (new_admin : ch.permissions = .admin → st.permissions record.identity = .owner) :
      AccountChange C st record k (.permissionChange ch)
        (some (state.withPermissions record ch.permissions)) (st.requestType k)
  | oldOwner {ch : AclOwnershipChange} {state : AccountState}
      (key : k = mapKeyFromPubKey record.identity)
      (known : st.accountStates.lookup k = some state) (owner : state.permissions = .owner)
      (not_owner : ch.oldOwnerPermissions ≠ .owner) (granted : ch.oldOwnerPermissions ≠ .none) :
      AccountChange C st record k (.ownershipChange ch)
        (some (state.withPermissions record ch.oldOwnerPermissions)) (st.requestType k)
  | newOwner {ch : AclOwnershipChange} {newOwner : PubKey} {state : AccountState}
      (author : st.permissions record.identity = .owner)
      (identity : C.unmarshalPublicKey ch.newOwnerIdentity = some newOwner)
      (key : k = mapKeyFromPubKey newOwner)
      (known : st.accountStates.lookup k = some state) (active : state.status = .active)
      (granted : state.permissions ≠ .none) (not_owner : state.permissions ≠ .owner) :
      AccountChange C st record k (.ownershipChange ch)
        (some (state.withPermissions record .owner)) (st.requestType k)
  | added {ch : AclAccountsAdd} {acc : AclAccountAdd} {account : PubKey} {keyRecordId : GoString}
      (author : st.CanManage record.identity) (mem : acc ∈ ch.additions)
      (identity : C.unmarshalPublicKey acc.identity = some account)
      (key : k = mapKeyFromPubKey account)
      (no_permissions : st.permissionsOf k = .none)
      (not_owner : acc.permissions ≠ .owner) (granted : acc.permissions ≠ .none)
      (admin : acc.permissions = .admin → st.permissions record.identity = .owner) :
      AccountChange C st record k (.accountsAdd ch)
        (some (AclState.addedAccount record keyRecordId account acc)) (st.requestType k)
  | requested {ch : AclAccountRequestJoin} {keyRecordId : GoString}
      (key : k = mapKeyFromPubKey record.identity)
      (no_permissions : st.permissionsOf k = .none)
      (no_request : st.requestType k = none) :
      AccountChange C st record k (.requestJoin ch)
        (some
          { pubKey := some record.identity, permissions := .none, status := .joining,
            requestMetadata := ch.metadata, keyRecordId := keyRecordId,
            permissionChanges := st.history k }) (some .join)
  | accepted {ch : AclAccountRequestAccept} {request : RequestRecord}
      (author : st.CanManage record.identity)
      (found : st.IsRequest ch.requestRecordId request)
      (key : k = mapKeyFromPubKey request.requestIdentity)
      (type : st.requestType k = some request.type)
      (not_owner : ch.permissions ≠ .owner)
      (admin : ch.permissions = .admin → st.permissions record.identity = .owner)
      (identity : C.unmarshalPublicKey ch.identity = some request.requestIdentity) :
      AccountChange C st record k (.requestAccept ch)
        (some (st.joinedAccount record k request.requestIdentity ch.permissions
          request.requestMetadata request.keyRecordId)) none
  | inviteJoined {ch : AclAccountInviteJoin} {invite : Invite} {keyRecordId : GoString}
      (key : k = mapKeyFromPubKey record.identity)
      (no_permissions : st.permissionsOf k = .none)
      (found : st.invites.lookup ch.inviteRecordId = some invite)
      (type : invite.type = .anyoneCanJoin)
      (le : ch.permissions.isLessOrEqual invite.permissions = true)
      (identity : C.unmarshalPublicKey ch.identity = some record.identity)
      (has_key : ch.encryptedReadKey.isSome) :
      AccountChange C st record k (.inviteJoin ch)
        (some (st.joinedAccount record k record.identity
          (if ch.permissions = .none then invite.permissions else ch.permissions)
          ch.metadata keyRecordId)) none
  | declined {ch : AclAccountRequestDecline} {request : RequestRecord} {state : AccountState}
      (author : st.CanManage record.identity)
      (found : st.IsRequest ch.requestRecordId request)
      (key : k = mapKeyFromPubKey request.requestIdentity)
      (type : st.requestType k = some .join)
      (known : st.accountStates.lookup k = some state) :
      AccountChange C st record k (.requestDecline ch)
        (some { state with status := .declined }) none
  | canceled {ch : AclAccountRequestCancel} {request : RequestRecord} {state : AccountState}
      (found : st.IsRequest ch.recordId request)
      (key : k = mapKeyFromPubKey record.identity)
      (type : st.requestType k = some request.type)
      (known : st.accountStates.lookup k = some state) :
      AccountChange C st record k (.requestCancel ch)
        (some
          { state with
            status := if request.type = .join then AclStatus.canceled else AclStatus.active })
        none
  | removing {state : AccountState} (key : k = mapKeyFromPubKey record.identity)
      (known : st.accountStates.lookup k = some state) (granted : state.permissions ≠ .none)
      (no_request : st.requestType k = none) :
      AccountChange C st record k .accountRequestRemove
        (some { state with status := .removing }) (some .remove)
  | removed {ch : AclAccountRemove} {account : PubKey} {state : AccountState}
      (author : st.CanManage record.identity)
      (removable : Removable st record.identity account)
      (key : k = mapKeyFromPubKey account)
      (known : st.accountStates.lookup k = some state) :
      AccountChange C st record k (.accountRemove ch)
        (some (AclState.removedAccount record state)) none

namespace Transition

variable {C : Crypto} {st st' : AclState} {record : AclRecord} {ch : AclContentValue}
variable {key : GoString} {a : AccountState}

/-- A transition that assigns to one account. -/
private theorem accountChange_of_insert
    (haccounts : st'.accountStates = st.accountStates.insert key a)
    (hother : ∀ k ≠ key, st'.requestType k = st.requestType k)
    (hkey : AccountChange C st record key ch (some a) (st'.requestType key)) (k : GoString) :
    AccountChange C st record k ch (st'.accountStates.lookup k) (st'.requestType k) := by
  rw [haccounts, GoMap.lookup_insert_eq]
  by_cases hk : k = key
  · rw [if_pos hk, hk]
    exact hkey
  · rw [if_neg hk, hother k hk]
    exact .same

/-- A transition that assigns to one account and closes its request. -/
private theorem accountChange_of_closes (hwf : st.RequestsWF)
    (haccounts : st'.accountStates = st.accountStates.insert key a) (hclose : st.Closes st' [key])
    (hkey : AccountChange C st record key ch (some a) none) (k : GoString) :
    AccountChange C st record k ch (st'.accountStates.lookup k) (st'.requestType k) := by
  have hrequest := AclState.requestType_of_closes hwf hclose
  refine accountChange_of_insert haccounts (fun k hk => ?_) ?_ k
  · rw [hrequest, if_neg (by simpa using hk)]
  · rw [hrequest, if_pos (by simp)]
    exact hkey

/-- A transition that assigns to the author's account and opens a request for it. -/
private theorem accountChange_of_opens (hwf : st.RequestsWF) (hown : st.OwnRequest record)
    {request : RequestRecord}
    (haccounts : st'.accountStates = st.accountStates.insert (mapKeyFromPubKey record.identity) a)
    (hopen : st.Opens st' record.id request) (hauthor : request.requestIdentity = record.identity)
    (hkey : AccountChange C st record (mapKeyFromPubKey record.identity) ch (some a)
      (some request.type)) (k : GoString) :
    AccountChange C st record k ch (st'.accountStates.lookup k) (st'.requestType k) := by
  have hrequest := AclState.requestType_of_opens hwf hopen
    (fun request' h => (hown request' h).trans hauthor.symm)
  rw [hauthor] at hrequest
  refine accountChange_of_insert haccounts (fun k hk => ?_) ?_ k
  · rw [hrequest, if_neg hk]
  · rw [hrequest, if_pos rfl]
    exact hkey

/-- Every account is changed by a transition in one of the listed ways. -/
theorem accountChange (hwf : st.RequestsWF) (hown : st.OwnRequest record)
    (t : Transition C st record ch st') (k : GoString) :
    AccountChange C st record k ch (st'.accountStates.lookup k) (st'.requestType k) := by
  cases t with
  | @ownershipChange ch newOwner state hauthor hid hstate hactive hgranted hnot hold hold' =>
    have hsome : st.permissions record.identity ≠ .none := by simp [hauthor]
    obtain ⟨owner, howner, hperms⟩ := AclState.lookup_of_permissions_ne_none hsome
    -- the new owner was not the owner, so the two accounts differ
    have hne : mapKeyFromPubKey newOwner ≠ mapKeyFromPubKey record.identity := by
      intro heq
      rw [heq, howner] at hstate
      obtain rfl := Option.some.inj hstate
      exact hnot (hperms.trans hauthor)
    simp only [AclState.updatePermissions, GoMap.lookup_insert_eq, if_neg hne, hstate, howner,
      Option.getD_some]
    by_cases hnew : k = mapKeyFromPubKey newOwner
    · rw [if_pos hnew]
      exact .newOwner hauthor hid hnew (hnew ▸ hstate) hactive hgranted hnot
    · rw [if_neg hnew]
      by_cases hk : k = mapKeyFromPubKey record.identity
      · rw [if_pos hk]
        exact .oldOwner hk (hk ▸ howner) (hperms.trans hauthor) hold hold'
      · rw [if_neg hk]
        exact .same
  | @permissionChange ch target state hauthor hid hstate _ hnot hadmin hnew hnewAdmin _ =>
    have hset : (st.updatePermissions (mapKeyFromPubKey target) ch.permissions
        record).accountStates = st.accountStates.insert (mapKeyFromPubKey target)
          (state.withPermissions record ch.permissions) := by
      simp [AclState.updatePermissions, hstate]
    exact accountChange_of_insert hset (fun _ _ => rfl)
      (.permission hauthor hid rfl hstate hnot hadmin hnew hnewAdmin) k
  | @inviteJoin ch invite keyRecordId ord value keys hnone hfound htype hle hid hread _ =>
    have hclose := fun a => AclState.closes_dropRequestOf
      (hwf.insertAccount (mapKeyFromPubKey record.identity) a) ord value record.identity
    exact accountChange_of_closes hwf (AclState.accountStates_dropRequestOf _ _ _ _)
      ⟨(hclose _).pending, (hclose _).requests⟩
      (.inviteJoined rfl hnone hfound htype hle hid hread) k
  | requestJoin hnone _ _ hpending _ =>
    exact accountChange_of_opens hwf hown rfl ⟨hpending, rfl, rfl, rfl⟩ rfl
      (.requested rfl hnone (AclState.requestType_eq_none hpending)) k
  | @requestAccept ch request keys hauthor hfound hid hnot hadmin =>
    exact accountChange_of_closes hwf rfl (AclState.closes_of_erase hwf hfound rfl rfl)
      (.accepted hauthor hfound rfl (hwf.requestType_of_request hfound) hnot hadmin hid) k
  | @requestDecline ch request state hauthor hfound htype hstate =>
    exact accountChange_of_closes hwf rfl (AclState.closes_of_erase hwf hfound rfl rfl)
      (.declined hauthor hfound rfl (htype ▸ hwf.requestType_of_request hfound) hstate) k
  | @requestCancel ch request state hfound hauthor hstate =>
    rw [← hauthor] at hstate ⊢
    exact accountChange_of_closes hwf rfl (AclState.closes_of_erase hwf hfound rfl rfl)
      (.canceled hfound (by rw [hauthor]) (hwf.requestType_of_request hfound) hstate) k
  | @accountRemove ch identities rkc invites aclKeys hauthor hid hnodup hremovable hrkc haddr
      hsame =>
    have hknown := Removable.known hremovable
    have hclose := AclState.closes_withoutAll record hnodup hknown
    change AccountChange C st record k _ ((st.withoutAll record identities).accountStates.lookup k)
      ((st.withoutAll record identities).requestType k)
    rw [AclState.requestType_of_closes hwf hclose k,
      AclState.lookup_accountStates_withoutAll hnodup]
    -- a removed account loses its permissions and its request
    by_cases hk : k ∈ identities.map mapKeyFromPubKey
    · obtain ⟨account, hmem, rfl⟩ := List.mem_map.mp hk
      obtain ⟨state, hstate⟩ := hknown account hmem
      rw [if_pos hk, if_pos hk, hstate]
      exact .removed hauthor (hremovable account hmem) rfl hstate
    · rw [if_neg hk, if_neg hk]
      exact .same
  | accountRequestRemove hstate hgranted _ _ hpending =>
    exact accountChange_of_opens hwf hown rfl ⟨hpending, rfl, rfl, rfl⟩ rfl
      (.removing rfl hstate hgranted (AclState.requestType_eq_none hpending)) k
  | @accountsAdd ch keyRecordId keys hauthor haddable _ =>
    rcases lookup_accountsWith C record keyRecordId k st.accountStates ch.additions with
      ⟨acc, hmem, account, hid, hkey, h⟩ | ⟨_, h⟩
    · obtain ⟨account', hid', hnone, hnot, hgranted, hadmin⟩ := haddable acc hmem
      obtain rfl := Option.some.inj (hid.symm.trans hid')
      rw [h]
      exact .added hauthor hmem hid hkey.symm (hkey ▸ hnone) hnot hgranted hadmin
    · rw [h]
      exact .same
  | _ => exact .same

end Transition

/-! ## Invites -/

variable {st st' : AclState} {p q : AclPermissions}

/-- An invite that anyone can join by gives a permission, and neither ownership nor that of a
guest. -/
def AclState.InvitesWF (st : AclState) : Prop :=
  ∀ id invite, st.invites.lookup id = some invite → invite.type = .anyoneCanJoin →
    invite.permissions ≠ .none ∧ invite.permissions ≠ .owner ∧ invite.permissions ≠ .guest

theorem AclState.InvitesWF.insert (h : st.InvitesWF) {id : GoString} {invite : Invite}
    (hinvites : st'.invites = st.invites.insert id invite) (hinvite : invite.type = .anyoneCanJoin →
      invite.permissions ≠ .none ∧ invite.permissions ≠ .owner ∧ invite.permissions ≠ .guest) :
    st'.InvitesWF := by
  intro id' invite' hlookup htype
  rw [hinvites, GoMap.lookup_insert_eq] at hlookup
  split at hlookup
  · cases hlookup
    exact hinvite htype
  · exact h id' invite' hlookup htype

theorem AclState.InvitesWF.same (h : st.InvitesWF) (hsame : SameInvites st.invites st'.invites) :
    st'.InvitesWF := by
  intro id invite' hlookup htype
  have hinvite := hsame id
  rw [hlookup, Option.map_some, eq_comm, Option.map_eq_some_iff] at hinvite
  obtain ⟨invite, hold, hkeep⟩ := hinvite
  simp only [Invite.withoutKey, Invite.mk.injEq] at hkeep
  obtain ⟨-, hsameType, hperms, -, -⟩ := hkeep
  rw [← hperms]
  exact h id invite hold (hsameType.trans htype)

theorem Transition.invitesWF {C : Crypto} {record : AclRecord} {ch : AclContentValue}
    (t : Transition C st record ch st') (h : st.InvitesWF) : st'.InvitesWF := by
  cases t with
  | inviteChange _ _ _ _ hnot hgranted hguest _ =>
    exact h.insert rfl fun _ => ⟨hgranted, hnot, hguest⟩
  | invite _ _ hnot hgranted hguest _ _ =>
    exact h.insert rfl fun htype => ⟨hgranted htype, hnot htype, hguest htype⟩
  | inviteRevoke _ _ =>
    intro id invite hlookup htype
    simp only [GoMap.lookup_erase_eq] at hlookup
    split at hlookup
    · cases hlookup
    · exact h id invite hlookup htype
  | inviteJoin =>
    apply h.same
    rw [AclState.dropRequestOf_eq]
    exact .refl _
  | accountRemove _ _ _ _ _ _ hsame => exact h.same hsame
  | readKeyChange _ _ hsame => exact h.same hsame
  | _ => exact h

/-- An account that joins by an invite never gets ownership. -/
theorem joinedPermissions_ne_owner (hle : p.isLessOrEqual q = true) (hq : q ≠ .owner) :
    (if p = .none then q else p) ≠ .owner := by
  split
  · exact hq
  · rintro rfl
    simp [AclPermissions.isLessOrEqual] at hle

/-- An account that joins by an invite gets a permission. -/
theorem joinedPermissions_ne_none (hq : q ≠ .none) : (if p = .none then q else p) ≠ .none := by
  split
  · exact hq
  · assumption

end Acl
