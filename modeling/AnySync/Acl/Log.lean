import AnySync.Acl.Replay

/-!
# Accepted logs

A log is an ordinary root and entries that a list accepted one after the other.

`AcceptedLog.induction` is the rule for invariants of accepted logs.
-/

namespace Acl

/-- The entries of `log` were accepted one after the other by the list `l₀`, which `build` made
of the ordinary root `root` for the account with the private key `key`, and led to the list `l`.
The list validates what it adds or not (`validates`). -/
structure AcceptedLog (C : Crypto) (validates : Bool) (root : AclRootRecord) (key : PrivKey)
    (log : List LogEntry) (l₀ l : AclList) : Prop where
  ordinary : root.model.oneToOneInfo = none
  build : AclList.build C validates root key = .ok l₀
  accepts : log.foldlM (AclList.accept C) l₀ = .ok l
  fresh : ∀ x ∈ runTrace (AclList.accept C) l₀ log, x.2.Fresh x.1

/-- A content value that took effect, with its record and the state it took effect in. -/
structure Event where
  /-- The record it belongs to. -/
  record : AclRecord
  /-- The map order of the record. -/
  order : RangeOrder
  /-- Its position in the record. -/
  position : ℕ
  /-- The state it took effect in. -/
  state : AclState
  /-- The content value; a batch of permission changes counts as single ones. -/
  content : AclContentValue

namespace Event

variable {C : Crypto} {event : Event} {st' : AclState}

/-- The validated application of the content value. -/
def apply (C : Crypto) (event : Event) : Except AclError AclState :=
  event.state.applyChangeContent C newAdmissionValidator event.record event.order event.position
    event.content

/-- The content value of the event passed validation in a well-formed state and led to `st'`. -/
structure Leads (C : Crypto) (event : Event) (st' : AclState) : Prop where
  wf : ∃ known, event.state.WFDuring C known event.record
  apply : event.apply C = .ok st'
  transition : Transition C event.state event.record event.content st'

/-- What an event does to the account under `k`. -/
theorem Leads.accountChange (h : event.Leads C st') (k : GoString) :
    AccountChange C event.state event.record k event.content (st'.accountStates.lookup k)
      (st'.requestType k) := by
  obtain ⟨known, hwf⟩ := h.wf
  exact h.transition.accountChange hwf.requests hwf.ownRequest k

theorem Leads.invitesWF (h : event.Leads C st') : event.state.InvitesWF :=
  h.wf.elim fun _ hwf => hwf.invites

end Event

/-- The events of an entry that the list accepts. -/
def AclList.events (C : Crypto) (l : AclList) (e : LogEntry) : List Event :=
  (runTrace (AclState.applyStep C newAdmissionValidator e.record e.replayOrder) l.aclState
    e.record.steps).map fun x => ⟨e.record, e.replayOrder, x.2.2, x.1, x.2.1⟩

/-- The events of a log that starts with the list `l₀`. -/
def logEvents (C : Crypto) (l₀ : AclList) (log : List LogEntry) : List Event :=
  (runTrace (AclList.accept C) l₀ log).flatMap fun x => x.1.events C x.2

section Induction

variable {C : Crypto} {validates : Bool} {root : AclRootRecord} {key : PrivKey}
  {log : List LogEntry} {l₀ l l' : AclList} {e : LogEntry}

/-- What one validated content value preserves, an accepted entry preserves. -/
theorem AclList.events_induction (G : List Event → AclState → Prop)
    (hstep : ∀ events event st', event.record = e.record → event.Leads C st' →
      G events event.state → G (events ++ [event]) st')
    (hlast : ∀ events st id, G events st → G events { st with lastRecordId := id }) (hwf : l.WF C)
    (hfresh : e.Fresh l) (h : l.accept C e = .ok l') {t : List Event} (hG : G t l.aclState) :
    G (t ++ l.events C e) l'.aclState := by
  obtain ⟨hnew, hne, m, hrun, rfl⟩ := AclList.accept_spec hwf hfresh h
  refine hlast _ m e.record.id ?_
  have hinner := foldlM_trace_induction
    (fun steps st => st.WFDuring C (e.record.id :: l.indexes.keys) e.record ∧
      G (t ++ steps.map fun x => ⟨e.record, e.replayOrder, x.2.2, x.1, x.2.1⟩) st)
    (fun x => x.2 ∈ e.record.steps)
    (fun steps st x st' hst hx happly => ?_) (t := [])
    ⟨hwf.during hnew hne, by simpa using hG⟩ (fun x hx => mem_of_mem_runTrace hx) hrun
  · exact hinner.2
  · refine ⟨hst.1.step rfl hx happly, ?_⟩
    have ht := transition_of_apply rfl (AclRecord.steps_single hx) happly
    have hnext := hstep _ ⟨e.record, e.replayOrder, x.2, st, x.1⟩ st' rfl ⟨⟨_, hst.1⟩, happly, ht⟩
      hst.2
    simpa [List.append_assoc] using hnext

/-- The events of an accepted entry are its content values, one after the other. -/
theorem AclList.events_content (hwf : l.WF C) (hfresh : e.Fresh l) (h : l.accept C e = .ok l') :
    (l.events C e).map Event.content = e.record.steps.map Prod.fst := by
  obtain ⟨_, _, m, hrun, _⟩ := AclList.accept_spec hwf hfresh h
  have hsteps := congrArg (List.map Prod.fst) (map_snd_runTrace hrun)
  simpa [AclList.events, Function.comp_def] using hsteps

section

variable (h : AcceptedLog C validates root key log l₀ l) (G : List Event → AclState → Prop)
  (hroot : ∀ aclKeys, G [] (AclState.ofRoot C root key aclKeys))
  (hstep : ∀ events event st', event.Leads C st' → G events event.state → G (events ++ [event]) st')
  (hlast : ∀ events st id, G events st → G events { st with lastRecordId := id })

include h G hroot hstep hlast

/-- What one validated content value preserves holds of an accepted log. -/
theorem AcceptedLog.induction :
    G (logEvents C l₀ log) l.aclState := by
  have hinit : l₀.WF C ∧ G [] l₀.aclState := by
    refine ⟨AclList.WF.build h.ordinary h.build, ?_⟩
    obtain ⟨aclKeys, rfl⟩ := AclList.build_spec h.ordinary h.build
    exact hroot aclKeys
  have houter := foldlM_trace_induction
    (fun entries l => l.WF C ∧ G (entries.flatMap fun x => x.1.events C x.2) l.aclState)
    (fun x => x.2.Fresh x.1)
    (fun entries l e l' hl hfresh haccept => ?_) (t := []) hinit h.fresh h.accepts
  · exact houter.2
  · refine ⟨hl.1.accept hfresh haccept, ?_⟩
    rw [List.flatMap_append, List.flatMap_singleton]
    exact AclList.events_induction G (fun events event st' _ => hstep events event st') hlast hl.1
      hfresh haccept hl.2

/-- Every event of an accepted log leads to a state, and what one validated content value
preserves holds before the event. -/
theorem AcceptedLog.of_event {before after : List Event} {event : Event}
    (hevents : logEvents C l₀ log = before ++ event :: after) :
    G before event.state ∧ ∃ st', event.Leads C st' := by
  let Split (events : List Event) : Prop := ∀ before event after,
    events = before ++ event :: after → G before event.state ∧ ∃ st', event.Leads C st'
  have hsplit := h.induction (fun events st => G events st ∧ Split events)
    (fun aclKeys => ⟨hroot aclKeys, by simp [Split]⟩)
    (fun events event st' hevent hG => ?_)
    (fun events st id hG => ⟨hlast events st id hG.1, hG.2⟩)
  · exact hsplit.2 before event after hevents
  · exact ⟨hstep events event st' hevent hG.1, forall_split_concat.mpr ⟨hG.2, hG.1, st', hevent⟩⟩

end

end Induction

/-! ## Running logs -/

instance (e : LogEntry) (l : AclList) : Decidable (e.Fresh l) :=
  decidable_of_iff (l.hasHead e.provisionalId = false ∧
    ∀ ch ∈ e.record.model.aclContent, e.provisionalId ∉ ch.recordIds)
    ⟨fun h => ⟨h.1, h.2⟩, fun h => ⟨h.1, h.2⟩⟩

/-- Whether the log is accepted and leads to lists that pass `test`. -/
def acceptedLogWith (C : Crypto) (validates : Bool) (root : AclRootRecord) (key : PrivKey)
    (log : List LogEntry) (test : AclList → AclList → Bool) : Bool :=
  match AclList.build C validates root key with
  | .error _ => false
  | .ok l₀ =>
    match log.foldlM (AclList.accept C) l₀ with
    | .error _ => false
    | .ok l =>
      root.model.oneToOneInfo.isNone &&
        (runTrace (AclList.accept C) l₀ log).all (fun x => decide (x.2.Fresh x.1)) && test l₀ l

theorem acceptedLog_of_acceptedLogWith {C : Crypto} {validates : Bool} {root : AclRootRecord}
    {key : PrivKey} {log : List LogEntry} {test : AclList → AclList → Bool}
    (h : acceptedLogWith C validates root key log test = true) :
    ∃ l₀ l, AcceptedLog C validates root key log l₀ l ∧ test l₀ l = true := by
  unfold acceptedLogWith at h
  split at h
  · cases h
  · next l₀ hbuild =>
    split at h
    · cases h
    · next l haccepts =>
      simp only [Bool.and_eq_true, Option.isNone_iff_eq_none, List.all_eq_true,
        decide_eq_true_eq] at h
      exact ⟨l₀, l, ⟨h.1.1, hbuild, haccepts, h.1.2⟩, h.2⟩

/-- Runs a log and tests its last event and the state it leads to. -/
def lastEventWith (C : Crypto) (l₀ : AclList) (log : List LogEntry)
    (test : Event → AclState → Bool) : Bool :=
  match (logEvents C l₀ log).getLast? with
  | none => false
  | some event =>
    match event.apply C with
    | .error _ => false
    | .ok st' => test event st'

theorem exists_of_lastEventWith {C : Crypto} {l₀ : AclList} {log : List LogEntry}
    {test : Event → AclState → Bool} (h : lastEventWith C l₀ log test = true) :
    ∃ before event st', logEvents C l₀ log = before ++ [event] ∧ event.apply C = .ok st' ∧
      test event st' = true := by
  unfold lastEventWith at h
  split at h
  · cases h
  · next event hlast =>
    split at h
    · cases h
    · next st' happly =>
      obtain ⟨before, hbefore⟩ := List.getLast?_eq_some_iff.mp hlast
      exact ⟨before, event, st', hbefore, happly, h⟩

namespace Sample

/-- Keys as `util/crypto` encodes them, with a table of key pairs and one of valid signatures.
An account that is not addressed decrypts nothing. -/
def crypto (keyPairs : List (PrivKey × PubKey)) (signatures : List (PubKey × Bytes × Bytes)) :
    Crypto where
  unmarshalPublicKey b :=
    if b.take 2 = [0x12, 0x20] ∧ b.length = 34 then some ⟨b.drop 2⟩ else none
  marshalPublicKey k := [0x12, 0x20] ++ k.raw
  getPublic k := ((keyPairs.find? (·.1 = k)).map Prod.snd).getD ⟨[]⟩
  verify k msg sig := (k, msg, sig) ∈ signatures
  decrypt _ _ := none
  symDecrypt _ _ := none
  symEncrypt _ _ := none
  unmarshalSymKey _ := none
  unmarshalPrivateKey _ := none
  deriveReadKey _ := none
  sharedSpaceKey _ _ := none
  sharedMetadataKey _ _ := none
  oneToOneReadKey _ := none

/-- A public key from its number. -/
def pubKey (n : ℕ) : PubKey := ⟨bytesOfNat 32 n⟩

def owner : PubKey :=
  pubKey 0x8a88e3dd7409f195fd52db2d3cba5d72ca6709bf1d94121bf3748801b40f6f5c

def alice : PubKey :=
  pubKey 0x8139770ea87d175f56a35466c34c7ecccb8d8a91b4ee37a25df60f5b8fc9b394

def bob : PubKey :=
  pubKey 0xed4928c628d1c2c6eae90338905995612959273a5c63f93636c14614ac8737d1

/-- The key of an invite. -/
def inviteKey : PubKey :=
  pubKey 0xca93ac1705187071d67b83c7ff0efe8108e8ec4530575d7726879333dbdabe7c

/-- The account whose list runs the log. It is not a member. -/
def observer : PubKey :=
  pubKey 0x6e7a1cdd29b0b78fd13af4c5598feff4ef2a97166e3ca6f2e4fbfccd80505bf1

/-- The private key of `observer`: its seed and its public key. -/
def observerKey : PrivKey := ⟨List.replicate 32 5 ++ observer.raw⟩

/-- The metadata key of the space. -/
def metadataKey : PubKey :=
  pubKey 0x8a875fff1eb38451577acd5afee405456568dd7c89e090863a0557bc7af49f17

/-- The signature of the key of `alice` with the invite key. -/
def aliceSignature : Bytes :=
  bytesOfHalves 0xd0e60c1e808026b79bb8d49acbce7b06244341d44ff1e8c78d3a1170994e9d08
    0x6f24ceb71fc6204413864f928a6c715ec2185b771a792df22d694f114b18a30e

/-- The signature of the key of `bob` with the invite key. -/
def bobSignature : Bytes :=
  bytesOfHalves 0xca7c06be36947901dc0aa79e7e0b4f18618570aded2e9577fa1937615cf4ae3c
    0xbf917504ef023ff55454c1a7260d2619c76bd0575729ae11f8439ae6bff0990b

/-- The keys and signatures of these accounts. -/
def C : Crypto :=
  crypto [(observerKey, observer)]
    [(inviteKey, alice.raw, aliceSignature), (inviteKey, bob.raw, bobSignature)]

/-- The marshalled key. -/
def proto (k : PubKey) : Bytes := C.marshalPublicKey k

/-- The id of the `n`-th record; the root is the first. -/
def recordId (n : ℕ) : GoString := [0x72, UInt8.ofNat n]

/-- The root of the logs below. -/
def root : AclRootRecord :=
  { id := recordId 0, identity := owner
    model :=
      { encryptedReadKey := some [1], metadataPubKey := proto metadataKey,
        encryptedMetadataPrivKey := some [2], encryptedOwnerMetadata := [3], oneToOneInfo := none,
        options := none } }

/-- A log whose records have the given authors and contents. -/
def log (records : List (PubKey × List AclContentValue)) : List LogEntry :=
  records.zipIdx.map fun x =>
    { record :=
        { id := recordId (x.2 + 1), prevId := recordId x.2, identity := x.1.1, model := ⟨x.1.2⟩ }
      provisionalId := [0x68, UInt8.ofNat x.2]
      admissionOrder := .listed
      replayOrder := .listed }

/-- An invite that needs approval. -/
def invite : AclContentValue :=
  .invite { inviteKey := proto inviteKey, inviteType := .requestToJoin, permissions := .none,
            encryptedReadKey := none }

/-- The request of `k` to join by the invite of the record `inviteRecordId`. -/
def requestJoin (k : PubKey) (signature : Bytes) (inviteRecordId : GoString) : AclContentValue :=
  .requestJoin { inviteIdentity := proto k, inviteRecordId := inviteRecordId,
                 inviteIdentitySignature := signature, metadata := [] }

/-- An invite that anyone can join by. -/
def openInvite (permissions : AclPermissions) : AclContentValue :=
  .invite { inviteKey := proto inviteKey, inviteType := .anyoneCanJoin,
            permissions := permissions, encryptedReadKey := some [6] }

/-- The join of `k` by the invite of the record `inviteRecordId`. -/
def inviteJoin (k : PubKey) (signature : Bytes) (inviteRecordId : GoString) : AclContentValue :=
  .inviteJoin { identity := proto k, inviteRecordId := inviteRecordId,
                inviteIdentitySignature := signature, metadata := [],
                encryptedReadKey := some [7], permissions := .none }

/-- The acceptance of the request of `k` in the record `requestRecordId`. -/
def requestAccept (k : PubKey) (requestRecordId : GoString) (permissions : AclPermissions) :
    AclContentValue :=
  .requestAccept { identity := proto k, requestRecordId := requestRecordId,
                   encryptedReadKey := some [4], permissions := permissions }

/-- The addition of `k`. -/
def accountAdd (k : PubKey) (permissions : AclPermissions) : AclContentValue :=
  .accountsAdd ⟨[{ identity := proto k, permissions := permissions, metadata := [],
                   encryptedReadKey := some [5] }]⟩

/-- A read key change for the accounts `users` in a space without open invites. -/
def readKeyChange (users : List PubKey) : AclReadKeyChange :=
  { accountKeys := users.map fun k => { identity := proto k, encryptedReadKey := some [8] }
    metadataPubKey := proto metadataKey
    encryptedMetadataPrivKey := some [9]
    encryptedOldReadKey := some [10]
    inviteKeys := [] }

/-- The removal of `k`, which leaves the accounts `users`. -/
def accountRemove (k : PubKey) (users : List PubKey) : AclContentValue :=
  .accountRemove { identities := [proto k], readKeyChange := some (readKeyChange users) }

/-- The change of the permissions of `k`. -/
def permissionChange (k : PubKey) (permissions : AclPermissions) : AclContentValue :=
  .permissionChange { identity := proto k, permissions := permissions }

/-- The transfer of ownership to `k`. -/
def ownershipChange (k : PubKey) (oldOwnerPermissions : AclPermissions) : AclContentValue :=
  .ownershipChange { newOwnerIdentity := proto k, oldOwnerPermissions := oldOwnerPermissions }

end Sample

end Acl
