import AnySync.Acl.Bookkeeping

/-!
# What an account without management rights can change

Joining, requesting to join or to leave and canceling a request name identities, requests and
invites in the body of the record. This file proves that each of them reaches only what belongs to
the author.

The main result is `AcceptedLog.changesOnly_of_not_canManage`.
-/

namespace Acl

/-- The state `st'` is `st` up to the account and the requests of `identity`, and, if the state
belongs to `identity`, up to the keys that were decrypted. -/
structure AclState.ChangesOnly (identity : PubKey) (st st' : AclState) : Prop where
  accounts : ∀ k ≠ mapKeyFromPubKey identity,
    st'.accountStates.lookup k = st.accountStates.lookup k
  pending : ∀ k ≠ mapKeyFromPubKey identity,
    st'.pendingRequests.lookup k = st.pendingRequests.lookup k
  requests : ∀ r request, request.requestIdentity ≠ identity →
    (st'.IsRequest r request ↔ st.IsRequest r request)
  invites : st'.invites = st.invites
  readKeyChanges : st'.readKeyChanges = st.readKeyChanges
  optionChanges : st'.optionChanges = st.optionChanges
  keys : SameKeys st.keys st'.keys
  others_keys : st.pubKey ≠ identity → st'.keys = st.keys

section Requests

variable {st st' : AclState} {identity : PubKey}
variable {r : GoString} {request : RequestRecord}

/-- Closing the request of `identity` keeps the requests of others. -/
theorem AclState.RequestsWF.isRequest_of_closes (hwf : st.RequestsWF)
    (hclose : st.Closes st' [mapKeyFromPubKey identity])
    (hne : request.requestIdentity ≠ identity) : st'.IsRequest r request ↔
    st.IsRequest r request := by
  rw [AclState.IsRequest, hclose.requests]
  split
  · next hopen =>
    obtain ⟨k, hk, hpending⟩ := hopen
    rw [List.mem_singleton.mp hk] at hpending
    obtain ⟨request', hrequest', hkey⟩ := hwf.pending _ r hpending
    -- the only request under `r` is the one of `identity`
    constructor
    · intro h
      cases h
    · intro h
      apply absurd ?_ hne
      rw [← mapKeyFromPubKey_injective hkey, Option.some.inj (h.symm.trans hrequest')]
  · rfl

/-- Opening a request of `identity` under a new id keeps the requests of others. -/
theorem AclState.isRequest_of_opens {id : GoString} {opened : RequestRecord}
    (hown : ∀ request, st.IsRequest id request → request.requestIdentity = identity)
    (hopen : st.Opens st' id opened) (hidentity : opened.requestIdentity = identity)
    (hne : request.requestIdentity ≠ identity) : st'.IsRequest r request ↔
    st.IsRequest r request := by
  rw [AclState.IsRequest, hopen.requests, GoMap.lookup_insert_eq]
  split
  · next heq =>
    subst heq
    refine ⟨fun h => absurd ?_ hne, fun h => absurd (hown request h) hne⟩
    rw [← Option.some.inj h, hidentity]
  · rfl

/-- The account and the request of `identity` are replaced. -/
theorem AclState.ChangesOnly.of_insert {a : AccountState}
    (haccounts : st'.accountStates = st.accountStates.insert (mapKeyFromPubKey identity) a)
    (hpending : ∀ k ≠ mapKeyFromPubKey identity,
      st'.pendingRequests.lookup k = st.pendingRequests.lookup k)
    (hrequests : ∀ r request, request.requestIdentity ≠ identity →
      (st'.IsRequest r request ↔ st.IsRequest r request)) (hkeys : SameKeys st.keys st'.keys)
    (hother : st.pubKey ≠ identity → st'.keys = st.keys)
    (hframe : st'.invites = st.invites ∧ st'.readKeyChanges = st.readKeyChanges ∧
      st'.optionChanges = st.optionChanges) : st.ChangesOnly identity st' where
  accounts k hk := by rw [haccounts, GoMap.lookup_insert_eq, if_neg hk]
  pending := hpending
  requests := hrequests
  invites := hframe.1
  readKeyChanges := hframe.2.1
  optionChanges := hframe.2.2
  keys := hkeys
  others_keys := hother

theorem AclState.ChangesOnly.refl (identity : PubKey) (st : AclState) :
    st.ChangesOnly identity st :=
  ⟨fun _ _ => rfl, fun _ _ => rfl, fun _ _ _ => Iff.rfl, rfl, rfl, rfl, .refl _, fun _ => rfl⟩

end Requests

section Content

variable {C : Crypto} {v : ContentValidator} {st st' : AclState} {record : AclRecord}
  {ord : RangeOrder} {value : ℕ} {known : List GoString} {ch : AclContentValue}

/-- One content value of an author who may not manage accounts. -/
theorem AclState.WFDuring.changesOnly (hwf : st.WFDuring C known record) (hkeys : st.KeysWF)
    (hv : v.shouldValidate = true) (hsingle : ∀ changes, ch ≠ .permissionChanges changes)
    (happly : st.applyChangeContent C v record ord value ch = .ok st')
    (hauthor : ¬ st.CanManage record.identity) : st.ChangesOnly record.identity st' := by
  have ht := transition_of_apply hv hsingle happly
  -- most content values need an author who can manage accounts
  cases ht with
  | ownershipChange howner => exact absurd (.inr howner) hauthor
  | inviteChange hmanage => exact absurd hmanage hauthor
  | permissionChange hmanage => exact absurd hmanage hauthor
  | invite hmanage => exact absurd hmanage hauthor
  | inviteRevoke hmanage => exact absurd hmanage hauthor
  | requestAccept hmanage => exact absurd hmanage hauthor
  | requestDecline hmanage => exact absurd hmanage hauthor
  | accountRemove hmanage => exact absurd hmanage hauthor
  | readKeyChange hmanage => exact absurd hmanage hauthor
  | accountsAdd hmanage => exact absurd hmanage hauthor
  | spaceOptionsChange howner => exact absurd (.inr howner) hauthor
  | unset => exact .refl _ _
  -- what is left changes the account and the request of the author
  | inviteJoin =>
    obtain ⟨hsame, hother⟩ := AclState.inviteJoin_keys hkeys hv happly
    have hclose := fun a ord value => AclState.closes_dropRequestOf
      (hwf.requests.insertAccount (mapKeyFromPubKey record.identity) a) ord value record.identity
    refine .of_insert (AclState.accountStates_dropRequestOf _ _ _ _) (fun k hk => ?_)
      (fun r request hne => ?_) hsame hother ?_
    · exact ((hclose _ _ _).pending k).trans (if_neg (by simpa using hk))
    · exact hwf.requests.isRequest_of_closes ⟨(hclose _ _ _).pending, (hclose _ _ _).requests⟩ hne
    · rw [AclState.dropRequestOf_eq]
      exact ⟨rfl, rfl, rfl⟩
  | requestJoin _ _ _ hno _ =>
    refine .of_insert rfl (fun k hk => ?_) (fun r request hne => ?_) (.refl _) (fun _ => rfl)
      ⟨rfl, rfl, rfl⟩
    · rw [GoMap.lookup_insert_eq, if_neg hk]
    · exact AclState.isRequest_of_opens hwf.ownRequest ⟨hno, rfl, rfl, rfl⟩ rfl hne
  | accountRequestRemove _ _ _ _ hno =>
    refine .of_insert rfl (fun k hk => ?_) (fun r request hne => ?_) (.refl _) (fun _ => rfl)
      ⟨rfl, rfl, rfl⟩
    · rw [GoMap.lookup_insert_eq, if_neg hk]
    · exact AclState.isRequest_of_opens hwf.ownRequest ⟨hno, rfl, rfl, rfl⟩ rfl hne
  | @requestCancel ch canceled state hfound hidentity hstate =>
    refine .of_insert rfl (fun k hk => ?_) (fun r request hne => ?_) (.refl _) (fun _ => rfl)
      ⟨rfl, rfl, rfl⟩
    · rw [GoMap.lookup_erase_eq, if_neg hk]
    · have hclose : AclState.Closes st { st with
          pendingRequests := st.pendingRequests.erase (mapKeyFromPubKey record.identity)
          requestRecords := st.requestRecords.erase ch.recordId } _ :=
        AclState.closes_of_erase hwf.requests hfound (by rw [hidentity]) rfl
      rw [hidentity] at hclose
      exact hwf.requests.isRequest_of_closes ⟨hclose.pending, hclose.requests⟩ hne

/-- What holds while the content of a record is applied, a batch of permission changes or not. -/
theorem AclState.WFDuring.content (hwf : st.WFDuring C known record) (hkeys : st.KeysWF)
    (hv : v.shouldValidate = true)
    (happly : st.applyChangeContent C v record ord value ch = .ok st') :
    st'.WFDuring C known record ∧ st'.KeysWF := by
  rw [← AclState.applyChangeContent_flatten] at happly
  refine foldlM_invariant_of_trace (fun s => s.WFDuring C known record ∧ s.KeysWF)
    (fun x => x.2 ∈ ch.flatten) (fun s ch' s' hs hmem hstep => ?_) ⟨hwf, hkeys⟩
    (fun x hx => mem_of_mem_runTrace hx) happly
  have hsingle := AclContentValue.ne_permissionChanges_of_mem_flatten hmem
  exact ⟨hs.1.single hv hsingle hstep, hs.2.single hv hsingle hstep⟩

end Content

section Log

variable {C : Crypto} {validates : Bool} {root : AclRootRecord} {key : PrivKey}
  {log : List LogEntry} {l₀ l : AclList} {record : AclRecord} {ord : RangeOrder}
  {before : List (AclContentValue × ℕ)} {st st' : AclState}

/-- The states that the content of a new record passes through. -/
theorem AcceptedLog.during (h : AcceptedLog C validates root key log l₀ l)
    (hnew : l.hasHead record.id = false) (hne : record.id ≠ [])
    (hbefore : before.foldlM (AclState.applyStep C newAdmissionValidator record ord) l.aclState
      = .ok st) : st.WFDuring C (record.id :: l.indexes.keys) record ∧ st.KeysWF := by
  have hbook := h.bookkeeping
  exact foldlM_invariant (fun s => s.WFDuring C (record.id :: l.indexes.keys) record ∧ s.KeysWF)
    (fun s x s' hs hstep => hs.1.content hs.2 rfl hstep) ⟨hbook.wf.during hnew hne, hbook.keys⟩
    hbefore

/-- After an accepted log and any content values `before` of a new record, a content value that
passes admission and whose author may not manage accounts changes only what belongs to the
author. -/
theorem AcceptedLog.changesOnly_of_not_canManage (h : AcceptedLog C validates root key log l₀ l)
    (hnew : l.hasHead record.id = false) (hne : record.id ≠ [])
    (hbefore : before.foldlM (AclState.applyStep C newAdmissionValidator record ord) l.aclState
      = .ok st) {value : ℕ} {ch : AclContentValue}
    (happly : st.applyChangeContent C newAdmissionValidator record ord value ch = .ok st')
    (hauthor : (st.permissions record.identity).canManageAccounts = false) :
    st.ChangesOnly record.identity st' := by
  obtain ⟨hwf, hkeys⟩ := h.during hnew hne hbefore
  have hmanage : ¬ st.CanManage record.identity := by
    intro hmanage
    rw [AclPermissions.canManageAccounts_iff.mpr hmanage] at hauthor
    cases hauthor
  cases ch with
  | permissionChanges batch =>
    -- the first change of the batch would check the author
    cases hchanges : batch.changes with
    | nil =>
      simp only [AclState.applyChangeContent, AclState.applyPermissionChanges, hchanges] at happly
      obtain rfl := Except.ok.inj happly
      exact .refl _ _
    | cons change rest =>
      simp only [AclState.applyChangeContent, AclState.applyPermissionChanges, hchanges] at happly
      obtain ⟨m, hm, -⟩ := foldlM_cons_eq_ok.mp happly
      cases transition_of_permissionChange rfl hm with
      | permissionChange hauthor => exact absurd hauthor hmanage
  | _ => exact hwf.changesOnly hkeys rfl (by intro _ h; cases h) happly hmanage

end Log

/-! ## A join by an invite -/

namespace Sample

/-- The private key of `alice`: its seed and its public key. -/
def aliceKey : PrivKey := ⟨List.replicate 32 2 ++ alice.raw⟩

/-- The read key of the space. -/
def readKey : SymKey := ⟨List.replicate 32 0x11⟩

/-- The private metadata key of the space: its seed and its public key. -/
def metadataPrivKey : PrivKey := ⟨List.replicate 32 6 ++ metadataKey.raw⟩

/-- The marshalled read key. -/
def readKeyProto : Bytes := [0x08, 0x02, 0x12, 0x20] ++ readKey.raw

/-- The marshalled private metadata key. -/
def metadataPrivKeyProto : Bytes := [0x08, 0x01, 0x12, 0x40] ++ metadataPrivKey.raw

/-- The read key, sealed for the owner. -/
def readKeyForOwner : Bytes :=
  bytesOfNat 28 0xf77ff4b10788bfdca62ca0bb160d427cf5762d85f2b5cad6807ec9c3 ++
    bytesOfNat 28 0xfebbde0972d551d462f3d04350ecfd97338e9483bb2d1c2ad9b6b0cf ++
    bytesOfNat 28 0xc5e6970bd3b5d8b80febf8248bb8b9b8512f31d2284048233056d465

/-- The read key, sealed for the invite. -/
def readKeyForInvite : Bytes :=
  bytesOfNat 28 0x73b2d8b76aa9b53660032bc8f5d8bee3a3ae4e3b3a7fd49ade81f734 ++
    bytesOfNat 28 0x7a34aa6873563ee5ed6685d2304126ab71735daa352d51b4a1ccfb9b ++
    bytesOfNat 28 0x9f68bdda8cafb93ccfd59956eaa1f894629665ee160e75078e8e8636

/-- The read key, sealed for `alice`. -/
def readKeyForAlice : Bytes :=
  bytesOfNat 28 0x57db4b359f23ae5e146e4e2512056704722506348c150c14753d0c93 ++
    bytesOfNat 28 0x3d04d4214bc6cda84b97a0859b6525bbb113bbe9a2a248a970b600de ++
    bytesOfNat 28 0x3b81dfe8cfb0ba9f12a6736537920b548bd9b8038d916a7ca7a95158

/-- The private metadata key, encrypted with the read key. -/
def encryptedMetadataKey : Bytes :=
  bytesOfHalves 0x0303030303030303030303033a78463c268e0bc0818bc4af774d6cacc459d28a
    0xc74fd447c12175c11feb9f7bf170a6201a08bb3af48e4eff5f8dd289c1c4d169 ++
    bytesOfNat 32 0xe5b51e9cac883a324e134869633ca583d5ff059b3b17578cc50c0fa9e85d9d2c

/-- The keys of the accounts above, with `alice` able to decrypt. -/
def aliceC : Crypto :=
  { crypto [(aliceKey, alice)] [(inviteKey, alice.raw, aliceSignature)] with
    decrypt := fun k msg => if k = aliceKey ∧ msg = readKeyForAlice then some readKeyProto else none
    symDecrypt := fun k msg =>
      if k = readKey ∧ msg = encryptedMetadataKey then some metadataPrivKeyProto else none
    unmarshalSymKey := fun b =>
      if b.take 4 = [0x08, 0x02, 0x12, 0x20] ∧ b.length = 36 then some ⟨b.drop 4⟩ else none
    unmarshalPrivateKey := fun b =>
      if b.take 4 = [0x08, 0x01, 0x12, 0x40] ∧ b.length = 68 then some ⟨b.drop 4⟩ else none }

/-- The root of a space with a read key. -/
def sharedRoot : AclRootRecord :=
  { id := recordId 0, identity := owner
    model :=
      { encryptedReadKey := some readKeyForOwner, metadataPubKey := proto metadataKey,
        encryptedMetadataPrivKey := some encryptedMetadataKey, encryptedOwnerMetadata := [3],
        oneToOneInfo := none, options := none } }

/-- The owner opens the space. -/
def openedLog : List LogEntry :=
  log [(owner, [.invite { inviteKey := proto inviteKey, inviteType := .anyoneCanJoin,
                          permissions := .writer, encryptedReadKey := some readKeyForInvite }])]

/-- The record by which `alice` joins. -/
def joinRecord : AclRecord :=
  { id := recordId 2, prevId := recordId 1, identity := alice
    model := ⟨[.inviteJoin { identity := proto alice, inviteRecordId := recordId 1,
                             inviteIdentitySignature := aliceSignature, metadata := [],
                             encryptedReadKey := some readKeyForAlice, permissions := .writer }]⟩ }

/-- The state after the content of `joinRecord`, if it passes admission. -/
def joined (C : Crypto) (st : AclState) : Except AclError AclState :=
  joinRecord.steps.foldlM (AclState.applyStep C newAdmissionValidator joinRecord .listed) st

end Sample

open Sample

/-- On the list of an account that only watches, the join of `alice` changes only the account of
`alice`. -/
theorem changesOnly_joinRecord :
    ∃ l₀ l st', AcceptedLog Sample.C true sharedRoot observerKey openedLog
        l₀ l ∧ joined Sample.C l.aclState = .ok st' ∧
      l.aclState.ChangesOnly alice st' := by
  have hrun : acceptedLogWith Sample.C true sharedRoot observerKey openedLog
      (fun _ l => !l.hasHead joinRecord.id &&
        !(l.aclState.permissions alice).canManageAccounts &&
        (joined Sample.C l.aclState).isOk) = true := by
    decide +kernel
  obtain ⟨l₀, l, h, htest⟩ := acceptedLog_of_acceptedLogWith hrun
  simp only [Bool.and_eq_true, Bool.not_eq_true'] at htest
  cases hjoined : joined Sample.C l.aclState with
  | error e =>
    rw [hjoined] at htest
    cases htest.2
  | ok st' =>
    refine ⟨l₀, l, st', h, hjoined, ?_⟩
    have hbefore : ([] : List (AclContentValue × ℕ)).foldlM (AclState.applyStep Sample.C
        newAdmissionValidator joinRecord .listed) l.aclState = .ok l.aclState := rfl
    obtain ⟨m, hm, hrest⟩ := foldlM_cons_eq_ok.mp hjoined
    obtain rfl := Except.ok.inj hrest
    exact h.changesOnly_of_not_canManage htest.1.1 (by decide) hbefore hm htest.1.2

/-- On the own list of `alice`, the join also fills in the read key and the private metadata key of
the space. -/
theorem keys_ne_joinRecord :
    ∃ l₀ l st', AcceptedLog aliceC true sharedRoot aliceKey openedLog
        l₀ l ∧ (l.aclState.permissions alice).canManageAccounts = false ∧
      joined aliceC l.aclState = .ok st' ∧
      (l.aclState.keys.lookup sharedRoot.id).bind AclKeys.readKey = none ∧
      (st'.keys.lookup sharedRoot.id).bind AclKeys.readKey = some readKey := by
  have hrun : acceptedLogWith aliceC true sharedRoot aliceKey openedLog
      (fun _ l => !(l.aclState.permissions alice).canManageAccounts &&
        decide ((l.aclState.keys.lookup sharedRoot.id).bind AclKeys.readKey = none) &&
        (joined aliceC l.aclState).toOption.any fun st' =>
          decide ((st'.keys.lookup sharedRoot.id).bind AclKeys.readKey
            = some readKey)) = true := by
    decide +kernel
  obtain ⟨l₀, l, h, htest⟩ := acceptedLog_of_acceptedLogWith hrun
  simp only [Bool.and_eq_true, Bool.not_eq_true', decide_eq_true_eq] at htest
  obtain ⟨⟨hauthor, hbefore⟩, hafter⟩ := htest
  cases hjoined : joined aliceC l.aclState with
  | error e =>
    rw [hjoined] at hafter
    cases hafter
  | ok st' =>
    rw [hjoined] at hafter
    exact ⟨l₀, l, st', h, hauthor, hjoined, hbefore, of_decide_eq_true hafter⟩

end Acl
