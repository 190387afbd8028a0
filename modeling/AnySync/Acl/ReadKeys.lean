import AnySync.Acl.Log

/-!
# Who gets the read key

A read key change addresses its key to accounts; later accounts-adds, accepted requests and joins
by invite hand it on.

The main result is `AcceptedLog.readKeys`.
-/

namespace Acl

open ContentValidator
open Sample

/-! ## Addressed keys -/

/-- The map key of a marshalled identity. -/
def identityKey (C : Crypto) (identity : Bytes) : Option GoString :=
  (C.unmarshalPublicKey identity).map mapKeyFromPubKey

/-- The accounts to which `keys` address a read key. A missing key addresses nobody. -/
def addressed (C : Crypto) (keys : List AclEncryptedReadKey) : List GoString :=
  (keys.filter (·.encryptedReadKey.isSome)).filterMap (identityKey C ·.identity)

/-- The read key change of the event. -/
def Event.rotation (event : Event) : Option AclReadKeyChange :=
  match event.content with
  | .readKeyChange ch => some ch
  | .accountRemove ch => ch.readKeyChange
  | _ => none

/-- The keys that the event hands on to accounts, apart from a read key change. -/
def Event.handedKeys (event : Event) : List AclEncryptedReadKey :=
  match event.content with
  | .accountsAdd ch => ch.additions.map fun acc => ⟨acc.identity, acc.encryptedReadKey⟩
  | .requestAccept ch => [⟨ch.identity, ch.encryptedReadKey⟩]
  | .inviteJoin ch => [⟨ch.identity, ch.encryptedReadKey⟩]
  | _ => []

/-- The accounts to which the current read key was addressed after the event, if it was `holders`
before. -/
def Event.holdersAfter (C : Crypto) (event : Event) (holders : List GoString) : List GoString :=
  match event.rotation with
  | some ch => addressed C ch.accountKeys
  | none => holders ++ addressed C event.handedKeys

/-- The accounts to which a log addressed the current read key. The key of the root is encrypted
for its author or derived by it. -/
def keyHolders (C : Crypto) (root : AclRootRecord) (events : List Event) : List GoString :=
  events.foldl (fun holders event => event.holdersAfter C holders)
    [mapKeyFromPubKey root.identity]

/-- All accounts with permissions are among `holders`. -/
def AclState.CoveredBy (st : AclState) (holders : List GoString) : Prop :=
  ∀ k, st.permissionsOf k ≠ .none → k ∈ holders

/-- The accounts to which the event gives permissions they may not have had. Joining by an invite
is not among them: it always carries a key. -/
def Event.grants (C : Crypto) (event : Event) : List GoString :=
  match event.content with
  | .permissionChange ch =>
    if ch.permissions = .none then [] else (identityKey C ch.identity).toList
  | .requestAccept ch =>
    if ch.permissions = .none then [] else (identityKey C ch.identity).toList
  | .accountsAdd ch => ch.additions.filterMap fun acc => identityKey C acc.identity
  | _ => []

/-- The event gives permissions only to accounts to which the current read key was addressed, and
no key is missing in a read key change. -/
def Event.CarriesKeys (C : Crypto) (event : Event) (holders : List GoString) : Prop :=
  (∀ k ∈ event.grants C, k ∈ event.holdersAfter C holders) ∧
    ∀ ch ∈ event.rotation, ∀ key ∈ ch.accountKeys, key.encryptedReadKey.isSome

instance (C : Crypto) (event : Event) (holders : List GoString) :
    Decidable (event.CarriesKeys C holders) :=
  inferInstanceAs (Decidable (_ ∧ _))

/-! ## Accounts know their key -/

/-- Every account is stored under its public key. -/
def AclState.PubKeysWF (st : AclState) : Prop :=
  ∀ k a, st.accountStates.lookup k = some a → a.pubKey.map mapKeyFromPubKey = some k

section PubKeys

variable {C : Crypto} {st st' : AclState} {event : Event} {k : GoString}
variable {a : AccountState}

/-- An account is stored under the key of its identity. -/
theorem AclState.PubKeysWF.insert (hst : st.PubKeysWF)
    (haccounts : st'.accountStates = st.accountStates.insert k a)
    (ha : a.pubKey.map mapKeyFromPubKey = some k) : st'.PubKeysWF := by
  intro k' a' ha'
  rw [haccounts, GoMap.lookup_insert_eq] at ha'
  split at ha'
  · next hk =>
    obtain rfl := Option.some.inj ha'
    exact hk ▸ ha
  · exact hst k' a' ha'

/-- A known account keeps its identity. -/
theorem AclState.PubKeysWF.replace (hst : st.PubKeysWF) {a' : AccountState}
    (hknown : st.accountStates.lookup k = some a)
    (haccounts : st'.accountStates = st.accountStates.insert k a')
    (hpubKey : a'.pubKey = a.pubKey) : st'.PubKeysWF :=
  hst.insert haccounts (hpubKey ▸ hst k a hknown)

theorem AclState.PubKeysWF.updatePermissions (hst : st.PubKeysWF)
    (hknown : st.accountStates.lookup k = some a) (permissions : AclPermissions)
    (record : AclRecord) : (st.updatePermissions k permissions record).PubKeysWF := by
  have haccounts : (st.updatePermissions k permissions record).accountStates
      = st.accountStates.insert k (a.withPermissions record permissions) := by
    simp [AclState.updatePermissions, hknown]
  exact hst.replace hknown haccounts rfl

theorem Transition.pubKeysWF {record : AclRecord} {ch : AclContentValue}
    (t : Transition C st record ch st') (hst : st.PubKeysWF) : st'.PubKeysWF := by
  cases t with
  | @ownershipChange ch newOwner state hauthor hid hstate =>
    have hgranted : st.permissions record.identity ≠ .none := by simp [hauthor]
    obtain ⟨owner, howner, -⟩ := AclState.lookup_of_permissions_ne_none hgranted
    have hold := hst.updatePermissions howner ch.oldOwnerPermissions record
    have hnew : ∃ a, (st.updatePermissions (mapKeyFromPubKey record.identity)
        ch.oldOwnerPermissions record).accountStates.lookup (mapKeyFromPubKey newOwner)
          = some a := by
      rw [AclState.updatePermissions, GoMap.lookup_insert_eq, hstate]
      split <;> exact ⟨_, rfl⟩
    exact hold.updatePermissions hnew.choose_spec .owner record
  | permissionChange _ _ hknown => exact hst.updatePermissions hknown _ _
  | inviteJoin =>
    refine hst.insert (AclState.accountStates_dropRequestOf _ _ _ _) ?_
    exact rfl
  | requestJoin => exact hst.insert rfl rfl
  | requestAccept => exact hst.insert rfl rfl
  | requestDecline _ _ _ hknown => exact hst.replace hknown rfl rfl
  | requestCancel _ _ hknown => exact hst.replace hknown rfl rfl
  | accountRequestRemove hknown => exact hst.replace hknown rfl rfl
  | @accountRemove ch identities _ _ _ _ _ hnodup =>
    intro k a ha
    change (st.withoutAll record identities).accountStates.lookup k = some a at ha
    rw [AclState.lookup_accountStates_withoutAll hnodup] at ha
    split at ha
    · obtain ⟨old, hold, rfl⟩ := Option.map_eq_some_iff.mp ha
      exact hst k old hold
    · exact hst k a ha
  | @accountsAdd ch keyRecordId =>
    intro k a ha
    rcases lookup_accountsWith C record keyRecordId k st.accountStates ch.additions with
      ⟨acc, -, identity, -, hkey, hadded⟩ | ⟨-, hsame⟩
    · obtain rfl := Option.some.inj (ha.symm.trans hadded)
      exact congrArg some hkey
    · exact hst k a (hsame ▸ ha)
  | inviteChange => exact hst
  | invite => exact hst
  | inviteRevoke => exact hst
  | readKeyChange => exact hst
  | spaceOptionsChange => exact hst
  | unset => exact hst

theorem AclState.pubKeysWF_ofRoot (C : Crypto) (root : AclRootRecord) (key : PrivKey)
    (aclKeys : AclKeys) : (AclState.ofRoot C root key aclKeys).PubKeysWF := by
  intro k a ha
  simp only [AclState.ofRoot, GoMap.lookup_insert_eq] at ha
  split at ha
  · next hk =>
    cases ha
    exact congrArg some hk.symm
  · cases ha

/-- After an accepted log each account has its public key. -/
theorem AcceptedLog.pubKeysWF {validates : Bool} {root : AclRootRecord} {key : PrivKey}
    {log : List LogEntry} {l₀ l : AclList} (h : AcceptedLog C validates root key log l₀ l) :
    l.aclState.PubKeysWF :=
  h.induction (fun _ st => st.PubKeysWF) (AclState.pubKeysWF_ofRoot C root key)
    (fun _ _ _ hevent hst => hevent.transition.pubKeysWF hst) (fun _ _ _ hst => hst)

/-- `activeUsers` lists the accounts with permissions that are not removed, each once. -/
theorem activeUsers_spec (hst : st.PubKeysWF) {removed users : List GoString}
    (h : activeUsers st removed = .ok users) :
    users.Nodup ∧ ∀ k, k ∈ users ↔ st.permissionsOf k ≠ .none ∧ k ∉ removed := by
  let granted := st.accountStates.entries.filter fun e => !e.2.permissions.noPermissions
  have hkey : ∀ e ∈ granted, accountKey e.2 = .ok e.1 := by
    intro e he
    have hpubKey := hst e.1 e.2 (GoMap.lookup_eq_some_iff.mpr (List.mem_filter.mp he).1)
    obtain ⟨pubKey, hpubKey, hk⟩ := Option.map_eq_some_iff.mp hpubKey
    simp [accountKey, hpubKey, hk]
  have hmapM : (st.currentAccounts.filter (!·.permissions.noPermissions)).mapM accountKey
      = .ok (granted.map Sigma.fst) := by
    rw [mapM_eq_ok, AclState.currentAccounts, List.filter_map, List.map_map, List.map_map]
    exact List.map_congr_left hkey
  rw [activeUsers, hmapM, Except.ok_bind] at h
  obtain rfl := Except.ok.inj h
  have hnodup : (granted.map Sigma.fst).Nodup :=
    st.accountStates.nodupKeys.sublist List.filter_sublist
  refine ⟨hnodup.filter _, fun k => ?_⟩
  simp only [List.mem_filter, List.mem_map, decide_eq_true_eq, and_congr_left_iff]
  intro _
  constructor
  · rintro ⟨e, he, rfl⟩
    obtain ⟨he, hgranted⟩ := List.mem_filter.mp he
    rw [AclState.permissionsOf_of_lookup (GoMap.lookup_eq_some_iff.mpr he)]
    simpa using hgranted
  · intro hgranted
    cases ha : st.accountStates.lookup k with
    | none => simp [AclState.permissionsOf, ha] at hgranted
    | some a =>
      rw [AclState.permissionsOf_of_lookup ha] at hgranted
      refine ⟨⟨k, a⟩, List.mem_filter.mpr ⟨GoMap.lookup_eq_some_iff.mp ha, ?_⟩, rfl⟩
      simpa using hgranted

end PubKeys

/-! ## Read key changes -/

section Rotation

variable {C : Crypto} {st st' : AclState} {event : Event} {k : GoString}

theorem addressees_eq_ok {keys : List AclEncryptedReadKey} {users : List GoString}
    (h : addressees C keys = .ok users) : keys.map (identityKey C ·.identity) = users.map some := by
  have hstep : ∀ (key : AclEncryptedReadKey) (user : GoString),
      (C.pubKeyFromProto key.identity >>= fun identity =>
        pure (mapKeyFromPubKey identity) : Except AclError GoString) = .ok user ↔
        identityKey C key.identity = some user := by
    intro key user
    simp only [Except.bind_eq_ok, Crypto.pubKeyFromProto_eq_ok, identityKey,
      Option.map_eq_some_iff, pure, Except.pure, Except.ok.injEq]
  induction keys generalizing users with
  | nil =>
    rw [addressees, mapM_eq_ok] at h
    cases users with
    | nil => rfl
    | cons => cases h
  | cons key keys ih =>
    rw [addressees, mapM_eq_ok] at h
    cases users with
    | nil => cases h
    | cons user users =>
      simp only [List.map_cons, List.cons.injEq] at h ⊢
      exact ⟨(hstep key user).mp h.1, ih (by rw [addressees, mapM_eq_ok]; exact h.2)⟩

/-- What a read key change of an event addresses. -/
structure Event.RotationExact (C : Crypto) (event : Event) (ch : AclReadKeyChange)
    (st' : AclState) : Prop where
  /-- Its key is addressed to each account that then has permissions, once, and to no other. -/
  users : ∃ users, addressees C ch.accountKeys = .ok users ∧ users.Nodup ∧
    ∀ k, k ∈ users ↔ st'.permissionsOf k ≠ .none
  /-- Its key is addressed to each invite that anyone can then join by, and to no other. -/
  invites : ∃ invites, addressees C ch.inviteKeys = .ok invites ∧
    invites.Perm (activeInvites st')

/-- The keys of the invites that anyone can join by do not depend on the stored read keys. -/
theorem activeInvites_perm (h : SameInvites st.invites st'.invites) :
    (activeInvites st').Perm (activeInvites st) := by
  let bare (m : GoMap GoString Invite) : GoMap GoString Invite :=
    GoMap.mapKV (Equiv.refl _) Invite.withoutKey m
  have hbare : ∀ m id, (bare m).lookup id = (m.lookup id).map Invite.withoutKey := fun m id =>
    GoMap.lookup_mapKV (Equiv.refl _) Invite.withoutKey m id
  have hperm : (bare st'.invites).entries.Perm (bare st.invites).entries := by
    refine List.lookup_ext (bare st'.invites).nodupKeys (bare st.invites).nodupKeys fun id i => ?_
    change (bare st'.invites).lookup id = some i ↔ (bare st.invites).lookup id = some i
    rw [hbare, hbare, h id]
  have hkeys : ∀ s : AclState, activeInvites s
      = ((((bare s.invites).entries.map Sigma.snd).filter (·.type = .anyoneCanJoin)).map
          fun invite => mapKeyFromPubKey invite.key) := by
    intro s
    simp only [activeInvites, bare, GoMap.entries_mapKV, List.map_map, List.filter_map]
    rfl
  rw [hkeys, hkeys]
  exact ((hperm.map _).filter _).map _

/-- A read key change addresses exactly the accounts and invites that are left with it. -/
theorem Event.Leads.rotationExact (h : event.Leads C st') (hst : event.state.PubKeysWF)
    {ch : AclReadKeyChange} (hch : event.rotation = some ch) : event.RotationExact C ch st' := by
  have hexact : ∀ removed, RotationAddresses C event.state removed ch →
      SameInvites event.state.invites st'.invites →
      (∀ k, st'.permissionsOf k ≠ .none ↔
        event.state.permissionsOf k ≠ .none ∧ k ∉ removed) → event.RotationExact C ch st' := by
    rintro removed ⟨users, updatedUsers, updatedInvites, husers, hupdated, hinvites, hperm,
      hpermInvites⟩ hsame hgranted
    obtain ⟨hnodup, hmem⟩ := activeUsers_spec hst husers
    refine ⟨⟨updatedUsers, hupdated, hperm.nodup hnodup, fun k => ?_⟩,
      ⟨updatedInvites, hinvites, hpermInvites.symm.trans (activeInvites_perm hsame).symm⟩⟩
    rw [← hperm.mem_iff, hmem, hgranted]
  have ht := h.transition
  obtain ⟨record, order, position, st, content⟩ := event
  cases ht with
  | readKeyChange _ haddresses hsame =>
    cases hch
    exact hexact [] haddresses hsame (by simp [AclState.permissionsOf])
  | @accountRemove ch' identities rkc invites aclKeys _ _ hnodup _ hrkc haddresses hsame =>
    obtain rfl := Option.some.inj (hrkc.symm.trans hch)
    refine hexact (identities.map mapKeyFromPubKey) haddresses hsame fun k => ?_
    simp only [AclState.permissionsOf, AclState.lookup_accountStates_withoutAll hnodup]
    by_cases hk : k ∈ identities.map mapKeyFromPubKey
    · rw [if_pos hk]
      cases st.accountStates.lookup k <;> simp [AclState.removedAccount, hk]
    · rw [if_neg hk]
      simp [hk]
  | _ => cases hch

end Rotation

/-! ## Coverage -/

section Coverage

variable {C : Crypto} {st' : AclState} {event : Event} {k : GoString} {holders : List GoString}

theorem mem_addressed {keys : List AclEncryptedReadKey} :
    k ∈ addressed C keys ↔
      ∃ key ∈ keys, key.encryptedReadKey.isSome ∧ identityKey C key.identity = some k := by
  simp [addressed, and_assoc]

theorem identityKey_of_unmarshal {identity : Bytes} {pubKey : PubKey}
    (h : C.unmarshalPublicKey identity = some pubKey) :
    identityKey C identity = some (mapKeyFromPubKey pubKey) := by
  rw [identityKey, h, Option.map_some]

/-- A read key change reaches all accounts it addresses iff none of its keys is missing. -/
theorem Event.RotationExact.coveredBy_iff {ch : AclReadKeyChange}
    (h : event.RotationExact C ch st') :
    st'.CoveredBy (addressed C ch.accountKeys) ↔
      ∀ key ∈ ch.accountKeys, key.encryptedReadKey.isSome := by
  obtain ⟨users, husers, hnodup, hmem⟩ := h.users
  have hkeys := addressees_eq_ok husers
  have huser : ∀ k, k ∈ users ↔ ∃ key ∈ ch.accountKeys, identityKey C key.identity = some k := by
    intro k
    have hmap : some k ∈ users.map some ↔ k ∈ users := by simp
    rw [← hmap, ← hkeys, List.mem_map]
  constructor
  · intro hcovered key hkey
    obtain ⟨k, hk⟩ : ∃ k, identityKey C key.identity = some k := by
      have hin : identityKey C key.identity ∈ users.map some :=
        hkeys ▸ List.mem_map_of_mem (f := fun key : AclEncryptedReadKey =>
          identityKey C key.identity) hkey
      obtain ⟨k, _, hk⟩ := List.mem_map.mp hin
      exact ⟨k, hk.symm⟩
    have hgranted := (hmem k).mp ((huser k).mpr ⟨key, hkey, hk⟩)
    obtain ⟨key', hkey', hsome, hk'⟩ := mem_addressed.mp (hcovered k hgranted)
    -- the addressees are distinct, so the key found for the account is this one
    have hdistinct : (ch.accountKeys.map (identityKey C ·.identity)).Nodup :=
      hkeys ▸ hnodup.map (Option.some_injective _)
    rw [List.inj_on_of_nodup_map hdistinct hkey hkey' (hk.trans hk'.symm)]
    exact hsome
  · intro hsome k hgranted
    obtain ⟨key, hkey, hk⟩ := (huser k).mp ((hmem k).mpr hgranted)
    exact mem_addressed.mpr ⟨key, hkey, hsome key hkey, hk⟩

/-- An account to which an event gives permissions has them afterwards. -/
theorem Event.Leads.granted_of_mem_grants (h : event.Leads C st') (hk : k ∈ event.grants C) :
    st'.permissionsOf k ≠ .none := by
  have ht := h.transition
  obtain ⟨record, order, position, st, ch⟩ := event
  cases ht with
  | @permissionChange ch target state _ hid =>
    simp only [grants, identityKey_of_unmarshal hid] at hk
    split at hk
    · cases hk
    · obtain rfl := List.mem_singleton.mp hk
      rw [AclState.permissionsOf_insert rfl, if_pos rfl]
      assumption
  | @requestAccept ch request _ _ _ hid =>
    simp only [grants, identityKey_of_unmarshal hid] at hk
    split at hk
    · cases hk
    · obtain rfl := List.mem_singleton.mp hk
      rw [AclState.permissionsOf_insert rfl, if_pos rfl]
      assumption
  | @accountsAdd ch keyRecordId keys _ haddable _ =>
    simp only [grants, List.mem_filterMap, identityKey, Option.map_eq_some_iff] at hk
    obtain ⟨acc, hmem, identity, hid, hkey⟩ := hk
    rcases lookup_accountsWith C record keyRecordId k st.accountStates ch.additions with
      ⟨acc', hmem', _, _, _, hadded⟩ | ⟨hnot, _⟩
    · obtain ⟨_, _, _, _, hgranted, _⟩ := haddable acc' hmem'
      simpa [AclState.permissionsOf, hadded, AclState.addedAccount] using hgranted
    · exact absurd hkey (hnot acc hmem identity hid)
  | _ => cases hk

/-- Without a read key change, an account that has permissions after an event had them before, or
was given them by it, or joined by an invite and was handed the key. -/
theorem AccountChange.granted {a' : Option AccountState} {r' : Option RequestType}
    (h : AccountChange C event.state event.record k event.content a' r')
    (hgranted : permissionsIn a' ≠ .none) :
    event.state.permissionsOf k ≠ .none ∨ k ∈ event.grants C ∨
      k ∈ addressed C event.handedKeys := by
  obtain ⟨record, order, position, st, ch⟩ := event
  cases h with
  | same => exact .inl hgranted
  | @permission ch target state _ hid hkey =>
    have hne : ch.permissions ≠ .none := hgranted
    refine .inr (.inl ?_)
    simp only [Event.grants, identityKey_of_unmarshal hid]
    rw [if_neg hne]
    simp [hkey]
  | oldOwner _ hknown howner =>
    exact .inl (by simp [AclState.permissionsOf_of_lookup hknown, howner])
  | newOwner _ _ _ hknown _ hold =>
    exact .inl (by simpa [AclState.permissionsOf_of_lookup hknown] using hold)
  | added _ hmem hid hkey =>
    refine .inr (.inl (List.mem_filterMap.mpr ⟨_, hmem, ?_⟩))
    rw [identityKey_of_unmarshal hid, hkey]
  | requested => simp at hgranted
  | @accepted ch request _ _ hkey _ _ _ hid =>
    have hne : ch.permissions ≠ .none := hgranted
    refine .inr (.inl ?_)
    simp only [Event.grants, identityKey_of_unmarshal hid]
    rw [if_neg hne]
    simp [hkey]
  -- whoever joins by an invite brings the read key along
  | inviteJoined hkey _ _ _ _ hid hread =>
    refine .inr (.inr (mem_addressed.mpr ⟨_, List.mem_singleton_self _, hread, ?_⟩))
    rw [identityKey_of_unmarshal hid, hkey]
  | declined _ _ _ _ hknown => exact .inl (by simpa [AclState.permissionsOf, hknown] using hgranted)
  | canceled _ _ _ hknown => exact .inl (by simpa [AclState.permissionsOf, hknown] using hgranted)
  | removing _ hknown hold => exact .inl (by simpa [AclState.permissionsOf, hknown] using hold)
  | removed => simp [AclState.removedAccount] at hgranted

/-- If all accounts with permissions are key holders before an event, they are afterwards iff the
event carries its keys. -/
theorem Event.Leads.coveredBy_iff (h : event.Leads C st') (hst : event.state.PubKeysWF)
    (hcovered : event.state.CoveredBy holders) :
    st'.CoveredBy (event.holdersAfter C holders) ↔ event.CarriesKeys C holders := by
  cases hrotation : event.rotation with
  | some ch =>
    have hgrants : event.grants C = [] := by
      obtain ⟨record, order, position, st, content⟩ := event
      cases content <;> first | rfl | cases hrotation
    simp only [CarriesKeys, holdersAfter, hrotation, hgrants]
    rw [(h.rotationExact hst hrotation).coveredBy_iff]
    simp
  | none =>
    simp only [CarriesKeys, holdersAfter, hrotation]
    constructor
    · intro hafter
      exact ⟨fun k hk => hafter k (h.granted_of_mem_grants hk), nofun⟩
    · rintro ⟨hgrants, -⟩ k hgranted
      rcases (h.accountChange k).granted hgranted with hold | hnew | hjoined
      · exact List.mem_append_left _ (hcovered k hold)
      · exact hgrants k hnew
      · exact List.mem_append_right _ hjoined

/-- Before each event all accounts with permissions are key holders. -/
def CoveredThroughout (C : Crypto) (root : AclRootRecord) (events : List Event) : Prop :=
  ∀ before event after, events = before ++ event :: after →
    event.state.CoveredBy (keyHolders C root before)

/-- Each event carries its keys. -/
def KeysCarried (C : Crypto) (root : AclRootRecord) (events : List Event) : Prop :=
  ∀ before event after, events = before ++ event :: after →
    event.CarriesKeys C (keyHolders C root before)

/-- Along an accepted log, before each content value and at the end, the current read key was
addressed to all accounts with permissions iff each content value carries its keys. And each read
key change addresses its key to exactly the accounts that have permissions and the invites that
anyone can join by once its content value is applied. -/
theorem AcceptedLog.readKeys {validates : Bool} {root : AclRootRecord} {key : PrivKey}
    {log : List LogEntry} {l₀ l : AclList} (h : AcceptedLog C validates root key log l₀ l) :
    ((CoveredThroughout C root (logEvents C l₀ log) ∧
        l.aclState.CoveredBy (keyHolders C root (logEvents C l₀ log))) ↔
      KeysCarried C root (logEvents C l₀ log)) ∧
    ∀ event ∈ logEvents C l₀ log, ∀ ch, event.rotation = some ch →
      ∃ st', event.apply C = .ok st' ∧ event.RotationExact C ch st' := by
  have hroot := AclState.pubKeysWF_ofRoot C root key
  constructor
  · refine (h.induction (fun events st => st.PubKeysWF ∧
      ((CoveredThroughout C root events ∧ st.CoveredBy (keyHolders C root events)) ↔
        KeysCarried C root events))
      (fun aclKeys => ⟨hroot aclKeys, ?_⟩) (fun events event st' hevent hG => ?_)
      (fun events st id hG => hG)).2
    · -- the author of the root holds its key
      have hcovered : (AclState.ofRoot C root key aclKeys).CoveredBy (keyHolders C root []) := by
        intro k hk
        simp only [AclState.permissionsOf, AclState.ofRoot, GoMap.lookup_insert_eq] at hk
        split at hk
        · next heq => simp [keyHolders, heq]
        · exact absurd rfl hk
      simp [hcovered, CoveredThroughout, KeysCarried]
    · obtain ⟨hst, hiff⟩ := hG
      have hholders : keyHolders C root (events ++ [event])
          = event.holdersAfter C (keyHolders C root events) := by
        simp [keyHolders]
      -- both sides split into what is before the event and the event
      have hcoveredSplit : CoveredThroughout C root (events ++ [event]) ↔
          CoveredThroughout C root events ∧ event.state.CoveredBy (keyHolders C root events) :=
        forall_split_concat
      have hcarriedSplit : KeysCarried C root (events ++ [event]) ↔
          KeysCarried C root events ∧ event.CarriesKeys C (keyHolders C root events) :=
        forall_split_concat
      refine ⟨hevent.transition.pubKeysWF hst, ?_⟩
      rw [hcoveredSplit, hcarriedSplit, hholders, ← hiff]
      exact and_congr_right fun hcovered => hevent.coveredBy_iff hst hcovered.2
  · intro event hmem ch hch
    obtain ⟨before, after, hsplit⟩ := List.append_of_mem hmem
    obtain ⟨hst, st', hevent⟩ := h.of_event (fun _ st => st.PubKeysWF) hroot
      (fun _ _ _ hevent hst => hevent.transition.pubKeysWF hst) (fun _ _ _ hst => hst) hsplit
    exact ⟨st', hevent.apply, hevent.rotationExact hst hch⟩

end Coverage

/-- The owner adds `alice`, then changes the read key, and then removes `alice`. -/
def rotationLog : List LogEntry :=
  log
    [(owner, [accountAdd alice .writer]), (owner, [.readKeyChange (readKeyChange [owner, alice])]),
     (owner, [accountRemove alice [owner]])]

/-- The owner and `alice` get the second key, and only the owner the third. -/
theorem readKeys_rotationLog :
    ∃ l₀ l, AcceptedLog Sample.C true root observerKey rotationLog l₀ l ∧
      (logEvents Sample.C l₀ rotationLog).map Event.rotation =
        [none, some (readKeyChange [owner, alice]), some (readKeyChange [owner])] ∧
      l.aclState.CoveredBy (keyHolders Sample.C root (logEvents Sample.C l₀ rotationLog)) ∧
      ∀ event ∈ logEvents Sample.C l₀ rotationLog, ∀ ch, event.rotation = some ch →
        ∃ st', event.apply Sample.C = .ok st' ∧ event.RotationExact Sample.C ch st' := by
  have hrun : acceptedLogWith Sample.C true root observerKey rotationLog
      (fun l₀ _ => match logEvents Sample.C l₀ rotationLog with
        | [e₁, e₂, e₃] => decide (e₁.CarriesKeys Sample.C (keyHolders Sample.C root []) ∧
            e₂.CarriesKeys Sample.C (keyHolders Sample.C root [e₁]) ∧
            e₃.CarriesKeys Sample.C (keyHolders Sample.C root [e₁, e₂]) ∧
            [e₁, e₂, e₃].map Event.rotation =
              [none, some (readKeyChange [owner, alice]), some (readKeyChange [owner])])
        | _ => false) = true := by
    decide +kernel
  obtain ⟨l₀, l, h, htest⟩ := acceptedLog_of_acceptedLogWith hrun
  split at htest
  · next e₁ e₂ e₃ hevents =>
    obtain ⟨h₁, h₂, h₃, hrotations⟩ := of_decide_eq_true htest
    obtain ⟨hiff, hexact⟩ := h.readKeys
    rw [hevents] at hiff
    have hcarried : KeysCarried Sample.C root (([] ++ [e₁] ++ [e₂]) ++ [e₃]) :=
      forall_split_concat.mpr ⟨forall_split_concat.mpr
        ⟨forall_split_concat.mpr ⟨by simp, h₁⟩, h₂⟩, h₃⟩
    exact ⟨l₀, l, h, hevents ▸ hrotations, hevents ▸ (hiff.mpr hcarried).2, hexact⟩
  · cases htest

/-- `alice` asks to join, and the owner gives permissions without accepting the request. -/
def grantedByChangeLog : List LogEntry :=
  log
    [(owner, [invite]), (alice, [requestJoin alice aliceSignature (recordId 1)]),
     (owner, [permissionChange alice .writer])]

/-- `alice` is a writer, but no read key was ever addressed to that account. -/
theorem not_coveredBy_grantedByChangeLog :
    ∃ l₀ l, AcceptedLog Sample.C true root observerKey grantedByChangeLog l₀ l ∧
      l.aclState.permissions alice = .writer ∧
      ¬ l.aclState.CoveredBy
        (keyHolders Sample.C root (logEvents Sample.C l₀ grantedByChangeLog)) := by
  have hrun : acceptedLogWith Sample.C true root observerKey grantedByChangeLog
      (fun l₀ l => decide (l.aclState.permissions alice = .writer ∧ mapKeyFromPubKey alice ∉
          keyHolders Sample.C root (logEvents Sample.C l₀ grantedByChangeLog))) = true := by
    decide +kernel
  obtain ⟨l₀, l, h, htest⟩ := acceptedLog_of_acceptedLogWith hrun
  obtain ⟨hwriter, hnot⟩ := of_decide_eq_true htest
  refine ⟨l₀, l, h, hwriter, fun hcovered => hnot (hcovered _ ?_)⟩
  rw [← AclState.permissions_eq, hwriter]
  simp

end Acl
