import AnySync.Acl.Log

/-!
# Raw records

`Unmarshall` and `UnmarshallWithId` of `aclrecordbuilder.go`, and `ValidateRawRecord` and
`AddRawRecord` of `list.go`: the way of a signed record from its bytes into the list.

The main result is `AclList.addRawRecord_of_validateRawRecord`.
-/

namespace Acl

open AclError

/-! ## Bytes -/

/-- `consensusproto.RawRecord`: a signed payload, and the signature of the network that accepted
it. -/
structure RawRecord where
  payload : Bytes
  signature : Bytes
  acceptorIdentity : Bytes
  acceptorSignature : Bytes
deriving DecidableEq, Repr

/-- `consensusproto.RawRecordWithId`: a marshalled raw record and its id. -/
structure RawRecordWithId where
  payload : Bytes
  id : GoString
deriving DecidableEq, Repr

/-- `consensusproto.Record`. -/
structure Record where
  prevId : GoString
  identity : Bytes
  data : Bytes
deriving DecidableEq, Repr

/-- The decoders of `consensusproto` and `aclrecordproto` and the hash of `cidutil`. -/
structure Codec where
  /-- `RawRecord.UnmarshalVT`. -/
  unmarshalRawRecord : Bytes → Option RawRecord
  /-- `Record.UnmarshalVT`. -/
  unmarshalRecord : Bytes → Option Record
  /-- `AclData.UnmarshalVT`. -/
  unmarshalAclData : Bytes → Option AclData
  /-- `keepIdentityFast`: decodes canonical read key records without the keys of others. -/
  keepIdentityFast : Bytes → (Bytes → Bool) → Option AclData
  /-- `NewCidFromBytes`. -/
  newCidFromBytes : Bytes → Option GoString
  /-- The fast path is an optimization of `fullDecodeFilter`. -/
  keepIdentityFast_eq : ∀ bytes isOurs data, keepIdentityFast bytes isOurs = some data →
    (unmarshalAclData bytes).map (·.filterKeys isOurs) = some data
  /-- No hash is empty. -/
  newCidFromBytes_ne_nil : ∀ bytes id, newCidFromBytes bytes = some id → id ≠ []

namespace Codec

variable (C : Crypto) (D : Codec)

/-- The result of a decoder. -/
def decoded {α : Type} : Option α → Except AclError α
  | some a => .ok a
  | none => .error .malformedRecord

/-- `fullDecodeFilter`. -/
def fullDecodeFilter (data : Bytes) (isOurs : Bytes → Bool) : Option AclData :=
  (D.unmarshalAclData data).map (·.filterKeys isOurs)

/-- `unmarshalAclDataKeepIdentity`. -/
def unmarshalAclDataKeepIdentity (data : Bytes) (isOurs : Bytes → Bool) : Option AclData :=
  match D.keepIdentityFast data isOurs with
  | some out => some out
  | none => D.fullDecodeFilter data isOurs

theorem unmarshalAclDataKeepIdentity_eq (data : Bytes) (isOurs : Bytes → Bool) :
    D.unmarshalAclDataKeepIdentity data isOurs = D.fullDecodeFilter data isOurs := by
  unfold unmarshalAclDataKeepIdentity
  split
  · next out hfast => exact (D.keepIdentityFast_eq data isOurs out hfast).symm
  · rfl

/-- `Unmarshall`: decodes a record that has no id yet. The hash of its payload stands in for it. -/
def unmarshall (raw : RawRecord) : Except AclError AclRecord := do
  let aclRecord ← decoded (D.unmarshalRecord raw.payload)
  let pubKey ← C.pubKeyFromProto aclRecord.identity
  let aclData ← decoded (D.unmarshalAclData aclRecord.data)
  failIf (!C.verify pubKey raw.payload raw.signature) invalidSignature
  let id ← decoded (D.newCidFromBytes raw.payload)
  pure { id := id, prevId := aclRecord.prevId, identity := pubKey, model := aclData }

/-- `verifyRaw`. -/
def verifyRaw (pubKey : PubKey) (raw : RawRecord) (rawWithId : RawRecordWithId) :
    Except AclError Unit := do
  failIf (!C.verify pubKey raw.payload raw.signature) invalidSignature
  failIf (D.newCidFromBytes rawWithId.payload ≠ some rawWithId.id) incorrectCID

/-- `decodeAclData` of a list of the account with the key `pubKey`. -/
def decodeAclData (shouldValidate : Bool) (pubKey : PubKey) (data : Bytes) : Option AclData :=
  if shouldValidate then D.unmarshalAclData data
  else D.unmarshalAclDataKeepIdentity data (isOurIdentity C pubKey)

/-- `UnmarshallWithId` for a record other than the root. -/
def unmarshallWithId (verifyAcceptor : RawRecord → Bool) (shouldValidate : Bool) (pubKey : PubKey)
    (rawWithId : RawRecordWithId) : Except AclError AclRecord := do
  let raw ← decoded (D.unmarshalRawRecord rawWithId.payload)
  failIf (!verifyAcceptor raw) acceptorNotVerified
  let aclRecord ← decoded (D.unmarshalRecord raw.payload)
  let author ← C.pubKeyFromProto aclRecord.identity
  let aclData ← decoded (D.decodeAclData C shouldValidate pubKey aclRecord.data)
  D.verifyRaw C author raw rawWithId
  pure { id := rawWithId.id, prevId := aclRecord.prevId, identity := author, model := aclData }

end Codec

namespace AclList

variable (C : Crypto) (D : Codec) (l : AclList)

/-- `ValidateRawRecord`, with the state that it hands to `afterValid`. -/
def validateRawRecord (raw : RawRecord) (ord : RangeOrder) : Except AclError AclState := do
  let record ← D.unmarshall C raw
  l.validateRecord C record ord

/-- `AddRawRecord`. `verifyAcceptor` is the check of the verifier of the list, and `stored` tells
whether the storage takes the record. A record under the id of the root decodes to a root, which
follows no record; the list has that id already. -/
def addRawRecord (verifyAcceptor : RawRecord → Bool) (stored : Bool) (rawWithId : RawRecordWithId)
    (ord : RangeOrder) : Except AclError AclList := do
  failIf (l.hasHead rawWithId.id) recordAlreadyExists
  failIf (rawWithId.id = l.aclState.id) incorrectRecordSequence
  let record ← D.unmarshallWithId C verifyAcceptor l.shouldValidate
    (C.getPublic l.aclState.key) rawWithId
  let l' ← l.append C record ord
  failIf (!stored) storageFailed
  pure l'

end AclList

/-! ## Contents that do not depend on the order of a map -/

/-- The read key change that a content value makes. -/
def AclContentValue.rotation : AclContentValue → Option AclReadKeyChange
  | .readKeyChange ch => some ch
  | .accountRemove ch => ch.readKeyChange
  | _ => none

/-- No two invites share the key `identity`. -/
def DistinctInvite (C : Crypto) (invites : GoMap GoString Invite) (identity : Bytes) : Prop :=
  ∀ e ∈ invites.entries, ∀ e' ∈ invites.entries, C.unmarshalPublicKey identity = some e.2.key →
    C.unmarshalPublicKey identity = some e'.2.key → e.1 = e'.1

instance (C : Crypto) (invites : GoMap GoString Invite) (identity : Bytes) :
    Decidable (DistinctInvite C invites identity) := by
  unfold DistinctInvite
  infer_instance

/-- No two invites of the state share a key that the content value names. -/
def AclState.DistinctInvites (C : Crypto) (st : AclState) (ch : AclContentValue) : Prop :=
  ∀ rkc ∈ ch.rotation, ∀ k ∈ rkc.inviteKeys, DistinctInvite C st.invites k.identity

instance (C : Crypto) (st : AclState) (ch : AclContentValue) :
    Decidable (st.DistinctInvites C ch) := by
  unfold AclState.DistinctInvites
  infer_instance

/-- No two requests of the state are of the account that joins by an invite. -/
def AclState.DistinctRequests (C : Crypto) (st : AclState) (ch : AclContentValue) : Prop :=
  ∀ identity ∈ ch.joining C, DistinctRequest st.requestRecords identity

/-- No loop over a map of the state finds more than one entry for the content value. The loops of
`applyReadKeyChange` and `applyInviteJoinWithoutApprove` stop at the first one, in the order of a Go
map. -/
structure AclState.OrderFree (C : Crypto) (st : AclState) (ch : AclContentValue) : Prop where
  invites : st.DistinctInvites C ch
  requests : st.DistinctRequests C ch

instance (C : Crypto) (st : AclState) (ch : AclContentValue) : Decidable (st.OrderFree C ch) := by
  have : Decidable (st.DistinctRequests C ch) := by
    unfold AclState.DistinctRequests
    infer_instance
  exact decidable_of_iff (st.DistinctInvites C ch ∧ st.DistinctRequests C ch)
    ⟨fun h => ⟨h.1, h.2⟩, fun h => ⟨h.invites, h.requests⟩⟩

section Distinct

variable {C : Crypto} {v : ContentValidator} {st st' : AclState} {record : AclRecord}
  {ord ord' : RangeOrder} {value : ℕ}

/-- The keys of the invites do not depend on their read keys. -/
theorem SameInvites.distinctInvite {invites invites' : GoMap GoString Invite} {identity : Bytes}
    (hsame : SameInvites invites invites') (h : DistinctInvite C invites identity) :
    DistinctInvite C invites' identity := by
  have hkey : ∀ e ∈ invites'.entries, ∃ e' ∈ invites.entries, e'.1 = e.1 ∧ e'.2.key = e.2.key := by
    rintro ⟨id, invite⟩ he
    have hlookup := hsame id
    rw [GoMap.lookup_eq_some_iff.mpr he, eq_comm, Option.map_some, Option.map_eq_some_iff]
      at hlookup
    obtain ⟨invite', hinvite', hwithout⟩ := hlookup
    have hkey : invite'.withoutKey.key = invite.withoutKey.key := congrArg Invite.key hwithout
    exact ⟨⟨id, invite'⟩, GoMap.lookup_eq_some_iff.mp hinvite', rfl, hkey⟩
  intro e he e' he' hk hk'
  obtain ⟨f, hf, hfid, hfkey⟩ := hkey e he
  obtain ⟨f', hf', hfid', hfkey'⟩ := hkey e' he'
  rw [← hfid, ← hfid']
  exact h f hf f' hf' (hfkey ▸ hk) (hfkey' ▸ hk')

theorem AclState.updateInviteKey_order {step : ℕ} {encKey : AclEncryptedReadKey}
    (h : DistinctInvite C st.invites encKey.identity) :
    st.updateInviteKey C ord' value step encKey = st.updateInviteKey C ord value step encKey := by
  unfold updateInviteKey
  cases hkey : C.unmarshalPublicKey encKey.identity with
  | none => simp only [Crypto.pubKeyFromProto, hkey]; rfl
  | some invKey =>
    have hunique : ∀ e ∈ st.invites.entries, ∀ e' ∈ st.invites.entries,
        decide (e.2.key = invKey) = true → decide (e'.2.key = invKey) = true → e = e' := by
      intro e he e' he' hk hk'
      exact GoMap.eq_of_mem_entries he he' (h e he e' he' (by rw [hkey, of_decide_eq_true hk])
        (by rw [hkey, of_decide_eq_true hk']))
    have hfind := fun ord : RangeOrder => ord.find?_shuffle value step hunique
    simp only [Crypto.pubKeyFromProto, hkey, Except.ok_bind, hfind]

theorem AclState.updateInviteKeys_order {keys : List AclEncryptedReadKey}
    (h : ∀ k ∈ keys, DistinctInvite C st.invites k.identity) :
    st.updateInviteKeys C ord' value keys = st.updateInviteKeys C ord value keys := by
  unfold updateInviteKeys
  have hkeys : ∀ x ∈ keys.zipIdx, DistinctInvite C st.invites x.1.identity := fun x hx =>
    h x.1 (List.fst_mem_of_mem_zipIdx hx)
  clear h
  generalize keys.zipIdx = inputs at hkeys
  -- the updates so far changed no key, so the next one still finds at most one invite
  induction inputs generalizing st with
  | nil => rfl
  | cons x inputs ih =>
    rw [List.foldlM_cons, List.foldlM_cons, updateInviteKey_order (hkeys x List.mem_cons_self)]
    cases hstep : st.updateInviteKey C ord value x.2 x.1 with
    | error e => rfl
    | ok m =>
      obtain ⟨invites, hsame, rfl⟩ := updateInviteKey_spec hstep
      have hrest : ∀ y ∈ inputs, DistinctInvite C invites y.1.identity := fun y hy =>
        hsame.distinctInvite (hkeys y (List.mem_cons_of_mem _ hy))
      exact ih hrest

theorem AclState.changeReadKey_order {ch : Option AclReadKeyChange}
    (h : ∀ rkc ∈ ch, ∀ k ∈ rkc.inviteKeys, DistinctInvite C st.invites k.identity) :
    st.changeReadKey C record ord' value ch = st.changeReadKey C record ord value ch := by
  cases ch with
  | none => rfl
  | some rkc =>
    have hupdate : (st.addReadKeyChange record.id).updateInviteKeys C ord' value rkc.inviteKeys
        = (st.addReadKeyChange record.id).updateInviteKeys C ord value rkc.inviteKeys :=
      updateInviteKeys_order (h rkc rfl)
    simp only [changeReadKey, storeReadKey, hupdate]

/-- Then no content value depends on the order. -/
theorem AclState.OrderFree.applyChangeContent_eq {ch : AclContentValue} (h : st.OrderFree C ch) :
    st.applyChangeContent C v record ord' value ch
      = st.applyChangeContent C v record ord value ch := by
  cases ch with
  | readKeyChange ch =>
    simp only [applyChangeContent, applyReadKeyChange]
    exact bind_congr fun _ => changeReadKey_order h.invites
  | accountRemove ch =>
    simp only [applyChangeContent, applyAccountRemove]
    refine bind_congr fun _ => ?_
    cases hremoved : ch.identities.foldlM (fun st raw => st.removeAccount C record raw) st with
    | error e => rfl
    | ok m =>
      have hinvites : m.invites = st.invites := foldlM_invariant (·.invites = st.invites)
        (fun s raw s' hs hstep => (removeAccount_frame hstep).2.trans hs) rfl hremoved
      refine changeReadKey_order fun rkc hrkc k hk => ?_
      rw [hinvites]
      exact h.invites rkc hrkc k hk
  | _ =>
    apply applyChangeContent_order_eq h.requests
    all_goals
      intro _ h
      cases h

end Distinct

/-- Each content value of the record is applied in a state for which the order does not matter. -/
def AclRecord.OrderFree (C : Crypto) (v : ContentValidator) (record : AclRecord) (ord : RangeOrder)
    (st : AclState) : Prop :=
  ∀ x ∈ runTrace (AclState.applyStep C v record ord) st record.steps, x.1.OrderFree C x.2.1

instance (C : Crypto) (v : ContentValidator) (record : AclRecord) (ord : RangeOrder)
    (st : AclState) : Decidable (record.OrderFree C v ord st) := by
  unfold AclRecord.OrderFree
  infer_instance

/-- The content of such a record leads to the same state in every order. -/
theorem AclRecord.OrderFree.steps_eq {C : Crypto} {v : ContentValidator} {record : AclRecord}
    {ord : RangeOrder} {st : AclState} (h : record.OrderFree C v ord st) (ord' : RangeOrder) :
    record.steps.foldlM (AclState.applyStep C v record ord') st
      = record.steps.foldlM (AclState.applyStep C v record ord) st :=
  foldlM_eq_of_runTrace fun x hx => (h x hx).applyChangeContent_eq

/-! ## Admission and replay -/

/-- The network accepted the raw record: it signed the payload, and the hash of the result is an id
that neither the list nor its state has. -/
structure RawRecord.Assigned (D : Codec) (verifyAcceptor : RawRecord → Bool) (l : AclList)
    (raw : RawRecord) (rawWithId : RawRecordWithId) : Prop where
  payload : ∃ identity signature,
    D.unmarshalRawRecord rawWithId.payload
        = some { raw with acceptorIdentity := identity, acceptorSignature := signature } ∧
      verifyAcceptor { raw with acceptorIdentity := identity, acceptorSignature := signature }
        = true
  cid : D.newCidFromBytes rawWithId.payload = some rawWithId.id
  new : l.hasHead rawWithId.id = false
  unused : rawWithId.id ∉ l.aclState.recordIds

section Admission

variable {C : Crypto} {D : Codec} {validates : Bool} {root : AclRootRecord} {key : PrivKey}
  {log : List LogEntry} {l₀ l : AclList} {verifyAcceptor : RawRecord → Bool} {raw : RawRecord}
  {rawWithId : RawRecordWithId} {record : AclRecord} {st : AclState}
  {admissionOrder replayOrder : RangeOrder}

theorem Codec.decoded_eq_ok {α : Type} {o : Option α} {a : α} :
    Codec.decoded o = .ok a ↔ o = some a := by
  cases o <;> simp [Codec.decoded]

/-- The list decodes what admission decoded, up to the read keys of others. -/
theorem Codec.decodeAclData_eq (C : Crypto) (D : Codec) (l : AclList) (record : AclRecord)
    {data : Bytes} (h : D.unmarshalAclData data = some record.model) :
    D.decodeAclData C l.shouldValidate (C.getPublic l.aclState.key) data
      = some (l.keepOurs C record).model := by
  unfold Codec.decodeAclData AclList.keepOurs
  cases l.shouldValidate with
  | true => exact h
  | false =>
    rw [if_neg Bool.false_ne_true, if_neg Bool.false_ne_true,
      Codec.unmarshalAclDataKeepIdentity_eq, Codec.fullDecodeFilter, h, Option.map_some]

/-- What admission decoded, the list decodes once the network assigned an id. -/
theorem RawRecord.Assigned.unmarshallWithId (h : raw.Assigned D verifyAcceptor l rawWithId)
    (hrecord : D.unmarshall C raw = .ok record) :
    D.unmarshallWithId C verifyAcceptor l.shouldValidate (C.getPublic l.aclState.key) rawWithId
      = .ok (l.keepOurs C { record with id := rawWithId.id }) := by
  simp only [Codec.unmarshall, Except.bind_eq_ok, Codec.decoded_eq_ok, failIf_eq_ok] at hrecord
  obtain ⟨aclRecord, hpayload, pubKey, hpubKey, aclData, hdata, _, hverify, id, hid, hok⟩ := hrecord
  obtain rfl := Except.ok.inj hok
  obtain ⟨identity, signature, hraw, haccepted⟩ := h.payload
  have hmodel := Codec.decodeAclData_eq C D l
    { id := rawWithId.id, prevId := aclRecord.prevId, identity := pubKey, model := aclData } hdata
  have hverified : D.verifyRaw C pubKey
      { raw with acceptorIdentity := identity, acceptorSignature := signature } rawWithId
        = .ok () := by
    simp [Codec.verifyRaw, failIf, h.cid, hverify]
  simp only [Codec.unmarshallWithId, Except.bind_eq_ok, Codec.decoded_eq_ok, failIf_eq_ok]
  refine ⟨_, hraw, (), by rw [haccepted]; rfl, aclRecord, hpayload, pubKey, hpubKey, _, hmodel, (),
    hverified, ?_⟩
  unfold AclList.keepOurs
  cases l.shouldValidate <;> rfl

/-- A list adds the raw record once it appends what the record decodes to. -/
theorem RawRecord.Assigned.addRawRecord {l' : AclList}
    (h : raw.Assigned D verifyAcceptor l rawWithId) (hrecord : D.unmarshall C raw = .ok record)
    (happend : l.append C (l.keepOurs C { record with id := rawWithId.id }) replayOrder = .ok l') :
    l.addRawRecord C D verifyAcceptor true rawWithId replayOrder = .ok l' := by
  have hid : decide (rawWithId.id = l.aclState.id) = false :=
    decide_eq_false fun heq => h.unused (heq ▸ List.mem_cons_self)
  simp only [AclList.addRawRecord, Except.bind_eq_ok, failIf_eq_ok]
  exact ⟨(), h.new, (), hid, _, h.unmarshallWithId hrecord, _, happend, (), rfl, rfl⟩

/-- Every list of an accepted log is well formed. -/
theorem AcceptedLog.wf (h : AcceptedLog C validates root key log l₀ l) : l.WF C :=
  foldlM_invariant_of_trace (·.WF C) (fun x => x.2.Fresh x.1)
    (fun _ _ _ hl hfresh haccept => hl.accept hfresh haccept) (AclList.WF.build h.ordinary h.build)
    h.fresh h.accepts

/-- Admission predicts replay. Let the network assign an id to a record that admission accepted in
the state of a list, and let each loop over a map find at most one entry in the run of admission.
Then every list with this state adds the record, whether it validates or not and in whatever map
order, and the new state is the one of admission with the id of the record renamed. -/
theorem AclList.addRawRecord_of_validateRawRecord
    (hrecord : D.unmarshall C raw = .ok record)
    (hvalid : l.validateRawRecord C D raw admissionOrder = .ok st)
    (hnew : record.id ∉ l.aclState.recordIds)
    (hmention : ∀ ch ∈ record.model.aclContent, record.id ∉ ch.recordIds)
    (hassigned : raw.Assigned D verifyAcceptor l rawWithId)
    (hfree : record.OrderFree C newAdmissionValidator admissionOrder (l.aclState.copy C))
    (validates : Bool) (replayOrder : RangeOrder) :
    ∃ (hold : record.id ≠ []) (hne : rawWithId.id ≠ []) (l' : AclList),
      { l with shouldValidate := validates }.addRawRecord C D verifyAcceptor true rawWithId
        replayOrder = .ok l' ∧
      l'.aclState = st.view (.renameRecord record.id rawWithId.id hold hne) := by
  let list : AclList := { l with shouldValidate := validates }
  have hne : rawWithId.id ≠ [] := D.newCidFromBytes_ne_nil _ _ hassigned.cid
  rw [AclList.validateRawRecord, hrecord, Except.ok_bind, AclList.validateRecord] at hvalid
  obtain ⟨hone, hprev, hold, -, m, hrun, rfl⟩ := AclState.applyRecord_eq_ok.mp hvalid
  let V : View := .renameRecord record.id rawWithId.id hold hne
  -- the steps under the new id: first in the order of replay, then renamed
  rw [← hfree.steps_eq replayOrder] at hrun
  have hsupported : (l.aclState.copy C).Supported l.aclState.recordIds :=
    AclState.supported_recordIds (l.aclState.copy C)
  have hmention' : ∀ x ∈ record.steps, record.id ∉ x.1.recordIds := by
    intro x hx hid
    obtain ⟨ch, hch, hid'⟩ := AclRecord.recordIds_of_mem_steps hx hid
    exact hmention ch hch hid'
  have hreal := hsupported.steps_rename rfl hnew hold hmention' hassigned.unused hne hrun
  have happend : list.append C (list.keepOurs C { record with id := rawWithId.id }) replayOrder
      = .ok (list.extend rawWithId.id (m.view V)) :=
    AclList.append_of_steps rfl hone hprev hne hreal
  refine ⟨hold, hne, list.extend rawWithId.id (m.view V), ?_, ?_⟩
  · have hassigned' : raw.Assigned D verifyAcceptor list rawWithId :=
      ⟨hassigned.payload, hassigned.cid, hassigned.new, hassigned.unused⟩
    exact hassigned'.addRawRecord hrecord happend
  · have hswap : V.ids record.id = rawWithId.id := Equiv.swap_apply_left _ _
    calc (list.extend rawWithId.id (m.view V)).aclState
        = { m.view V with lastRecordId := V.ids record.id } := by rw [hswap]; rfl
      _ = ({ m with lastRecordId := record.id } : AclState).view V := rfl

end Admission

namespace Sample

/-- The length of a field on the wire. -/
def varint (n : ℕ) : Bytes :=
  if n < 128 then [UInt8.ofNat n] else [UInt8.ofNat (n % 128 + 128), UInt8.ofNat (n / 128)]

/-- A length-delimited field on the wire. -/
def field (number : ℕ) (body : Bytes) : Bytes :=
  UInt8.ofNat (8 * number + 2) :: varint body.length ++ body

/-- A record of the owner: its data on the wire with the content they decode to, its signature, and
the hashes of its payload and of its stored bytes. The network added nothing. -/
structure Signed where
  prevId : GoString
  data : Bytes
  model : AclData
  signature : Bytes
  hash : GoString
  id : GoString

namespace Signed

def payload (r : Signed) : Bytes := field 1 r.prevId ++ field 2 (proto owner) ++ field 3 r.data

def raw (r : Signed) : RawRecord := ⟨r.payload, r.signature, [], []⟩

def stored (r : Signed) : RawRecordWithId := ⟨field 1 r.payload ++ field 2 r.signature, r.id⟩

/-- What `raw` decodes to. -/
def record (r : Signed) : AclRecord := ⟨r.hash, r.prevId, owner, r.model⟩

end Signed

/-- The decoders and the hash on the bytes of the records. -/
def codec (records : List Signed) : Codec where
  unmarshalRawRecord bytes := (records.find? (·.stored.payload = bytes)).map (·.raw)
  unmarshalRecord bytes :=
    (records.find? (·.payload = bytes)).map fun r => ⟨r.prevId, proto owner, r.data⟩
  unmarshalAclData bytes := (records.find? (·.data = bytes)).map (·.model)
  keepIdentityFast bytes isOurs :=
    ((records.find? (·.data = bytes)).map (·.model)).map (AclData.filterKeys isOurs)
  newCidFromBytes bytes :=
    (((records.find? (·.payload = bytes)).map (·.hash)).or
      ((records.find? (·.stored.payload = bytes)).map (·.id))).filter (· ≠ [])
  keepIdentityFast_eq _ _ _ h := h
  newCidFromBytes_ne_nil _ _ h := of_decide_eq_true (Option.filter_eq_some_iff.mp h).2

/-- `C` with the signatures of the records. -/
def signedC (records : List Signed) : Crypto :=
  crypto [(observerKey, observer)] (records.map fun r => (owner, r.payload, r.signature))

/-- The addition of `k` as a reader on the wire. -/
def addReaderData (k : PubKey) : Bytes :=
  field 1 (field 11 (field 1 (field 1 (proto k) ++ [0x10, 4] ++ field 4 [5])))

/-- The read key change of the owner for an open invite. -/
def inviteRotation : AclReadKeyChange :=
  { readKeyChange [owner] with
    inviteKeys := [{ identity := proto inviteKey, encryptedReadKey := some [11] }] }

/-- The record with `inviteRotation`, after the second record. -/
def rotation : Signed where
  prevId := recordId 2
  data := field 1 (field 7
    (field 1 (field 1 (proto owner) ++ field 2 [8]) ++ field 2 (proto metadataKey) ++ field 3 [9] ++
      field 4 [10] ++ field 5 (field 1 (proto inviteKey) ++ field 2 [11])))
  model := ⟨[.readKeyChange inviteRotation]⟩
  signature := bytesOfHalves 0x726f119003044eb9f89fe3b82f3d3944d02abfddaf75ddd894e8b949cef55c74
    0xcc68646e518a14e13adf5ad5108ed5ab612208256ec98eafe513a83bd805f80a
  hash := ascii "bafyreiaijtsdfbkazr7bwc5nn77e5rmohyabmubzwsh3dramctqce6gd3m"
  id := ascii "bafyreihmq23o6u2y2xiisfldahvjjwhn6uzp35lhogzwlsw5luftmpy244"

def rotationCodec : Codec := codec [rotation]

def rotationC : Crypto := signedC [rotation]

/-- A request-to-join invite with the key `k`, and an open invite. -/
def invitesLog (k : PubKey) : List LogEntry :=
  log
    [(owner, [.invite { inviteKey := proto k, inviteType := .requestToJoin, permissions := .none,
                        encryptedReadKey := none }]),
     (owner, [openInvite .reader])]

theorem unmarshall_rotation :
    rotationCodec.unmarshall rotationC rotation.raw = .ok rotation.record := by
  decide +kernel

theorem assigned_rotation {l : AclList} (hnew : l.hasHead rotation.id = false)
    (hunused : rotation.id ∉ l.aclState.recordIds) :
    rotation.raw.Assigned rotationCodec (fun _ => true) l rotation.stored where
  payload := ⟨[], [], by decide +kernel, rfl⟩
  cid := by decide +kernel
  new := hnew
  unused := hunused

end Sample

open Sample

/-- A read key change that updates the only invite with its key is replayed as it was admitted. -/
theorem addRawRecord_invitesLog :
    ∃ l₀ l st l' hold hne,
      AcceptedLog rotationC true root observerKey (invitesLog bob) l₀ l ∧
      l.validateRawRecord rotationC rotationCodec rotation.raw .listed = .ok st ∧
      { l with shouldValidate := false }.addRawRecord rotationC rotationCodec (fun _ => true) true
        rotation.stored .reversed = .ok l' ∧
      l'.aclState
        = st.view (.renameRecord rotation.hash rotation.id hold hne) := by
  have hrun : acceptedLogWith rotationC true root observerKey (invitesLog bob)
      (fun _ l =>
        match l.validateRawRecord rotationC rotationCodec rotation.raw .listed with
        | .ok _ => !l.hasHead rotation.id &&
            decide (rotation.id ∉ l.aclState.recordIds) &&
            decide (rotation.hash ∉ l.aclState.recordIds) &&
            decide (rotation.record.OrderFree rotationC newAdmissionValidator .listed
              (l.aclState.copy rotationC))
        | .error _ => false) = true := by
    decide +kernel
  obtain ⟨l₀, l, h, htest⟩ := acceptedLog_of_acceptedLogWith hrun
  split at htest
  · next st hvalid =>
    simp only [Bool.and_eq_true, Bool.not_eq_true', decide_eq_true_eq] at htest
    obtain ⟨⟨⟨hid, hunused⟩, hhash⟩, hfree⟩ := htest
    obtain ⟨hold, hne, l', hadd, hstate⟩ :=
      AclList.addRawRecord_of_validateRawRecord unmarshall_rotation hvalid hhash (by decide)
        (assigned_rotation hid hunused) hfree false .reversed
    exact ⟨l₀, l, st, l', hold, hne, h, hvalid, hadd, hstate⟩
  · cases htest

/-- If the request-to-join invite has the key of the open invite, admission may give it the new
read key and replay the open one. -/
theorem replay_ne_admission_invitesLog :
    ∃ l₀ l st l',
      AcceptedLog rotationC true root observerKey
        (invitesLog inviteKey) l₀ l ∧
      l.validateRawRecord rotationC rotationCodec rotation.raw .listed = .ok st ∧
      rotation.raw.Assigned rotationCodec (fun _ => true) l rotation.stored ∧
      l.addRawRecord rotationC rotationCodec (fun _ => true) true rotation.stored
        .reversed = .ok l' ∧
      (l'.aclState.invites.lookup (recordId 2)).map Invite.encryptedReadKey
        ≠ (st.invites.lookup (recordId 2)).map Invite.encryptedReadKey := by
  have hrun : acceptedLogWith rotationC true root observerKey
      (invitesLog inviteKey)
      (fun _ l =>
        match l.validateRawRecord rotationC rotationCodec rotation.raw .listed,
          l.addRawRecord rotationC rotationCodec (fun _ => true) true rotation.stored
            .reversed with
        | .ok st, .ok l' => !l.hasHead rotation.id &&
            decide (rotation.id ∉ l.aclState.recordIds) &&
            decide ((l'.aclState.invites.lookup (recordId 2)).map Invite.encryptedReadKey
              ≠ (st.invites.lookup (recordId 2)).map Invite.encryptedReadKey)
        | _, _ => false) = true := by
    decide +kernel
  obtain ⟨l₀, l, h, htest⟩ := acceptedLog_of_acceptedLogWith hrun
  split at htest
  · next st l' hvalid hadd =>
    simp only [Bool.and_eq_true, Bool.not_eq_true', decide_eq_true_eq] at htest
    exact ⟨l₀, l, st, l', h, hvalid, assigned_rotation htest.1.1 htest.1.2, hadd, htest.2⟩
  · cases htest

end Acl
