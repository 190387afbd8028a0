import AnySync.KeyValue.Mirror
import AnySync.Wire.Encode

/-!
# Messages of other peers

`SetRaw` of `commonspace/object/keyvalue/keyvaluestorage`: the values of other peers are decoded and
verified, screened against the ACL and the diff, and passed to the inner storage in one batch. What
the inner storage reports goes to the indexer and to the other peers.
-/

namespace InnerStorage

open Ldiff

/-! ## The call -/

/-- What `SetRaw` asks of the state of the ACL. -/
structure AclView (PubKey : Type) where
  /-- `Permissions(key).IsOwner()`. -/
  isOwner : PubKey → Bool
  /-- `ReadKeyForAclId`. -/
  readKeyForAclId : GoString → Option GoString
  /-- `readKeysFromAclState` returns no error. -/
  readKeysOk : Bool

/-- The parsed identity of a message. -/
def identityPubKey (C : Crypto) (proto : StoreKeyValue) : Option C.PubKey :=
  (C.unmarshalInner proto.value).bind fun inner => C.unmarshalPublicKey inner.identity

/-- A message that is decoded and verified, with its parsed identity. -/
def decode (C : Crypto) (proto : StoreKeyValue) : Option (KeyValue × C.PubKey) :=
  match keyValueFromProto C proto true, identityPubKey C proto with
  | .ok kv, some identity => some (kv, identity)
  | _, _ => none

/-- The owner rule: a watermark has to come from the owner. -/
def ownerRule {PubKey : Type} (acl : AclView PubKey) (x : KeyValue × PubKey) : Bool :=
  x.1.deletePrefix = [] || acl.isOwner x.2

/-- The body of the second loop of `SetRaw`. A value that fails is marked by an empty id. -/
def screen {PubKey : Type} (acl : AclView PubKey) (diff : Contents) (x : KeyValue × PubKey) :
    KeyValue :=
  if ownerRule acl x = false then { x.1 with keyPeerId := [] }
  else if ∃ head ∈ diff.lookup x.1.keyPeerId, timestampHead x.1.timestampMicro ≤ head then
    { x.1 with keyPeerId := [] }
  else
    match acl.readKeyForAclId x.1.aclId with
    | none => { x.1 with keyPeerId := [] }
    | some readKeyId => { x.1 with readKeyId := readKeyId }

/-- What a call does besides the storage. -/
structure Outcome where
  /-- The ids that are passed to `RemoveIndex`. -/
  removedIndexes : List GoString
  broadcast : List KeyValue
  indexed : List KeyValue
  failed : Bool
deriving DecidableEq, Repr

/-- Nothing happens. -/
def Outcome.none (failed : Bool) : Outcome := ⟨[], [], [], failed⟩

/-- What `SetRaw` does with the result of the inner storage. -/
def Outcome.of : Option SetResult → Outcome
  | .none => .none true
  | some r =>
    { removedIndexes := r.droppedIds
      broadcast := r.applied
      indexed := r.applied.filter (·.deletePrefix = [])
      failed := false }

section Call

variable (H : Hashing) (fuel : ℕ) (float64 : ℤ → ℤ) (C : Crypto) (acl : AclView C.PubKey)

/-- The values that are passed to the inner storage. -/
def Storage.batch (st : Storage) (messages : List StoreKeyValue) : List KeyValue :=
  ((messages.filterMap (decode C)).map (screen acl (contents st.diff))).filter (·.keyPeerId ≠ [])

/-- `SetRaw`. -/
def Storage.setRaw (st : Storage) (messages : List StoreKeyValue) (ok : ℕ → Bool)
    (ord : RangeOrder) : Storage × Outcome :=
  if messages = [] then (st, .none false)
  else if acl.readKeysOk = false then (st, .none true)
  else
    let batch := st.batch C acl messages
    if batch = [] then (st, .none false)
    else
      let (st', result) := st.set H fuel float64 batch ok ord
      (st', .of result)

end Call

/-! ## Messages and values -/

section Decode

variable {C : Crypto} {acl : AclView C.PubKey} {proto : StoreKeyValue} {kv : KeyValue}
  {identity : C.PubKey}

/-- The message is signed by the key of the peer, and by the identity in it. -/
structure Signed (C : Crypto) (proto : StoreKeyValue) (identity peer : C.PubKey) : Prop where
  inner : ∃ inner, C.unmarshalInner proto.value = some inner ∧
    C.unmarshalPublicKey inner.identity = some identity ∧
    C.unmarshalPublicKey inner.peer = some peer
  identity_signature : C.verify identity proto.value proto.identitySignature = true
  peer_signature : C.verify peer proto.value proto.peerSignature = true

/-- What is known of a message that is decoded. -/
theorem decode_eq_some (h : decode C proto = some (kv, identity)) :
    ∃ peer, Signed C proto identity peer ∧ kv.peerId = C.peerId peer ∧
      kv.keyPeerId = keyPeerId kv.key kv.peerId ∧
      (kv.deletePrefix ≠ [] → kv.key = kv.deletePrefix) ∧
      kv.value.value = proto.value ∧
      (C.unmarshalInner proto.value).map (·.timestampMicro) = some kv.timestampMicro := by
  unfold decode at h
  split at h
  · next kv' identity' hkv hidentity =>
    obtain ⟨rfl, rfl⟩ := Prod.mk.inj (Option.some.inj h)
    unfold keyValueFromProto at hkv
    split at hkv
    · cases hkv
    · next inner hinner =>
      split at hkv
      · next identity peer hid hpeer =>
        simp only at hkv
        split_ifs at hkv with hkey hwm hverify hverify'
        obtain rfl := Except.ok.inj hkv
        have hsame : identity' = identity := by
          rw [identityPubKey, hinner, Option.bind_some, hid] at hidentity
          exact (Option.some.inj hidentity).symm
        subst hsame
        refine ⟨peer, ⟨⟨inner, hinner, hid, hpeer⟩, ?_, ?_⟩, rfl, not_not.mp hkey,
          fun hdp => not_not.mp fun hne => hwm ⟨hdp, hne⟩, rfl, by rw [hinner]; rfl⟩
        · simpa using hverify
        · simpa using hverify'
      · cases hkv
  · cases h

/-- A value that passes keeps its id. -/
theorem screen_eq {diff : Contents} {x : KeyValue × C.PubKey}
    (h : (screen acl diff x).keyPeerId ≠ []) :
    ownerRule acl x = true ∧
      (∀ head ∈ diff.lookup x.1.keyPeerId, head < timestampHead x.1.timestampMicro) ∧
      ∃ readKeyId, acl.readKeyForAclId x.1.aclId = some readKeyId ∧
        screen acl diff x = { x.1 with readKeyId := readKeyId } := by
  unfold screen at h ⊢
  split_ifs at h ⊢ with howner hhead
  · exact absurd rfl h
  · exact absurd rfl h
  · refine ⟨by simpa using howner, fun head hmem => ?_, ?_⟩
    · exact not_le.mp fun hle => hhead ⟨head, hmem, hle⟩
    · cases hread : acl.readKeyForAclId x.1.aclId with
      | none =>
        rw [hread] at h
        exact absurd rfl h
      | some readKeyId => exact ⟨readKeyId, rfl, rfl⟩

/-- What is known of the values that are passed to the inner storage. -/
theorem mem_batch {st : Storage} {messages : List StoreKeyValue} {value : KeyValue}
    (h : value ∈ st.batch C acl messages) :
    ∃ proto ∈ messages, ∃ kv identity readKeyId, decode C proto = some (kv, identity) ∧
      ownerRule acl (kv, identity) = true ∧ value = { kv with readKeyId := readKeyId } := by
  obtain ⟨hmem, hid⟩ := List.mem_filter.mp h
  obtain ⟨⟨kv, identity⟩, hx, rfl⟩ := List.mem_map.mp hmem
  obtain ⟨proto, hproto, hdecode⟩ := List.mem_filterMap.mp hx
  obtain ⟨howner, -, readKeyId, -, hscreen⟩ := screen_eq (by simpa using hid)
  exact ⟨proto, hproto, kv, identity, readKeyId, hdecode, howner, hscreen⟩

end Decode

/-! ## Messages on the wire -/

namespace Sample

/-- `MarshalVT` of the inner part, whose encrypted payload is empty. -/
def marshalInner (inner : StoreKeyInner) : Bytes :=
  Wire.encodeBytes 0x0a inner.peer ++ Wire.encodeBytes 0x12 inner.identity ++
    Wire.encodeUint 0x20 (inner.timestampMicro % 2 ^ 64).toNat ++
    Wire.encodeBytes 0x2a inner.aclHeadId ++ Wire.encodeBytes 0x32 inner.key ++
    Wire.encodeBytes 0x3a (Wire.encodeBytes 0x0a inner.deletePrefix)

/-- A signed inner part. -/
structure Message where
  inner : StoreKeyInner
  identitySignature : Bytes
  peerSignature : Bytes

/-- An account or a device. -/
structure Party where
  pubKey : Bytes
  name : GoString

/-- `Marshall` of a public key. -/
def Party.proto (party : Party) : Bytes := [0x12, 0x20] ++ party.pubKey

/-- The account of the owner. -/
def owner : Party where
  pubKey := bytesOfNat 32 0x8a88e3dd7409f195fd52db2d3cba5d72ca6709bf1d94121bf3748801b40f6f5c
  name := ascii "A8mfo7T19vBc4fbUqCdKFNZvd8d6LFPvZE3Cb6BhWS7EnxPt"

/-- The account of a member. -/
def member : Party where
  pubKey := bytesOfNat 32 0x8139770ea87d175f56a35466c34c7ecccb8d8a91b4ee37a25df60f5b8fc9b394
  name := ascii "A8ZTmevsrWqBzFDQ7sRPiwK4iWwHPxod5jTK4hHDtfsYCwrm"

/-- The device of the owner. -/
def ownerDevice : Party where
  pubKey := bytesOfNat 32 0xed4928c628d1c2c6eae90338905995612959273a5c63f93636c14614ac8737d1
  name := ascii "12D3KooWRndVhVZPCiQwHBBBdg769GyrPUW13zxwqQyf9r3ANaba"

/-- The device of the member. -/
def memberDevice : Party where
  pubKey := bytesOfNat 32 0xca93ac1705187071d67b83c7ff0efe8108e8ec4530575d7726879333dbdabe7c
  name := ascii "12D3KooWPT98FXMfDQYavZm66EeVjTqP9Nnehn1gyaydqV8L8BQw"

/-- The head of the ACL. -/
def aclHead : GoString := ascii "bafyreihmq23o6u2y2xiisfldahvjjwhn6uzp35lhogzwlsw5luftmpy244"

/-- The message as it is sent. -/
def Message.raw (device : Party) (message : Message) : StoreKeyValue where
  keyPeerId := keyPeerId message.inner.key device.name
  value := marshalInner message.inner
  peerSignature := message.peerSignature
  identitySignature := message.identitySignature

/-- The message as it is passed to the inner storage. -/
def Message.kv (account device : Party) (message : Message) : KeyValue where
  keyPeerId := keyPeerId message.inner.key device.name
  readKeyId := aclHead
  key := message.inner.key
  value := ⟨marshalInner message.inner, message.peerSignature, message.identitySignature⟩
  timestampMicro := message.inner.timestampMicro
  identity := account.name
  peerId := device.name
  aclId := message.inner.aclHeadId
  deletePrefix := message.inner.deletePrefix

/-- The library on the given messages: what was not signed is not verified. -/
def crypto (messages : List Message) : Crypto where
  PubKey := Bytes
  unmarshalInner b := (messages.map (·.inner)).find? fun inner => marshalInner inner = b
  unmarshalPublicKey b := if b.take 2 = [0x12, 0x20] ∧ b.length = 34 then some (b.drop 2) else none
  account key := (([owner, member].find? (·.pubKey = key)).map (·.name)).getD []
  peerId key := (([ownerDevice, memberDevice].find? (·.pubKey = key)).map (·.name)).getD []
  verify key msg signature := messages.any fun m => marshalInner m.inner = msg ∧
    (m.inner.identity = [0x12, 0x20] ++ key ∧ signature = m.identitySignature ∨
      m.inner.peer = [0x12, 0x20] ++ key ∧ signature = m.peerSignature)

instance (messages : List Message) : DecidableEq (crypto messages).PubKey :=
  inferInstanceAs (DecidableEq Bytes)

/-- The state of the ACL after its first record. -/
def aclView : AclView Bytes where
  isOwner key := key = owner.pubKey
  readKeyForAclId id := if id = aclHead then some aclHead else none
  readKeysOk := true

/-- A value of the member with the key "p/x". -/
def memberInner (timestampMicro : ℤ) : StoreKeyInner where
  timestampMicro := timestampMicro
  identity := member.proto
  peer := memberDevice.proto
  key := [112, 47, 120]
  aclHeadId := aclHead
  deletePrefix := []

/-- A value of the member with the timestamp 1. -/
def memberNote : Message where
  inner := memberInner 1
  identitySignature :=
    bytesOfHalves 0x4da564400372f513154b089c35bdc2ec5f05e4fd82939a946c17a3d24b36f314
      0xd76e10f6caa0e75ce895a41ae35ce1cf06b54e8914abce41ae8151061ced200b
  peerSignature := bytesOfHalves 0xb4695cdbbe1930f3cbcae5eb2f0e94fccf17e93b2ec534abdce5fd6e25642c30
    0xd3e51cbcda30e27b849ea29122836b9b6c5f83b5e9a05abd0c65f1790f23b70a

/-- A watermark of the owner for the prefix "p", with the timestamp 3. -/
def ownerClear : Message where
  inner :=
    { timestampMicro := 3
      identity := owner.proto
      peer := ownerDevice.proto
      key := [112]
      aclHeadId := aclHead
      deletePrefix := [112] }
  identitySignature :=
    bytesOfHalves 0x077b791f978b089169e1a1f4a6162179020646e2ff21bd1fc794f3884d9e5353
      0xaeb4250a11e7b504a270f1f4b226d1b73459f4ad6c8e47d2ced5a9347c317202
  peerSignature := bytesOfHalves 0x0685ac93606b8adb975a162e6ff8d81248c159e81a2da693db88bb16026b8f32
    0x99e973569ca8636858b1ec189cbf88e7bcd9ae90e9ba55c12d5778d23c3ad70d

/-- A value of the member with the timestamp 7. -/
def memberNoteAgain : Message where
  inner := memberInner 7
  identitySignature :=
    bytesOfHalves 0xe77db5750a5816475dfc9f0207cb82eccf42d40c1b6a1532955ac34faa88a7d8
      0x48f63db1b003adbb3fd1980e13caf070d7120daa44199c58ebf3b754f55a000f
  peerSignature := bytesOfHalves 0x06681d01ec5672ef3e40b8bb8c926fca1c79d507283877fbca8725dd7270ffbc
    0x6f71462152ddd75575bfe577b99bd2aec218eff43ee99d1e0ae5101fe187a40b

/-- A value of the member with the key "q" and the timestamp 2. -/
def memberOther : Message where
  inner := { memberInner 2 with key := [113] }
  identitySignature :=
    bytesOfHalves 0xaa986b3616e9215cf505b65625c907efe4d921ae8f7df4f7d2528aa6087cc35f
      0x7fba8c8e5bf347c55deb5fc488e99cfebf26067ce614268cb31d4da467161505
  peerSignature := bytesOfHalves 0xd2fafde2efd8977db5b3f8740f9226e378b4158be373e58da5c86e6949c4c66d
    0xfd10c5a070c9da099fe2b07e7eb79a16ffbda94adb6c47ab8ca5c83aa3574004

/-- Values of `xxhash.Sum64` for the ids of the rows of the member and of the owner. -/
def rawHashing : Hashing :=
  .ofTable
    [(keyPeerId [112, 47, 120] memberDevice.name, 0xb4f977917cb58988),
      (keyPeerId [112] ownerDevice.name, 0xc4ea89f71b060036),
      (keyPeerId [113] memberDevice.name, 0xb6c1de7bdf3f6f4b)]
    [([], 0xaf1349b9f5f9a1a6a0404dea36dcc9499bcb25c9adc112b7cc9a93cae41f3262)]

/-- `SetRaw` with the given messages. -/
def deliver (messages : List Message) (float64 : ℤ → ℤ) (st : Storage)
    (raws : List StoreKeyValue) : Storage × Outcome :=
  st.setRaw rawHashing 70 float64 (crypto messages) aclView raws (fun _ => true) .listed

theorem setRaw_eq_deliver (messages : List Message) (float64 : ℤ → ℤ) (st : Storage)
    (raws : List StoreKeyValue) :
    st.setRaw rawHashing 70 float64 (crypto messages) aclView raws (fun _ => true) .listed =
      ((deliver messages float64 st raws).1, (deliver messages float64 st raws).2) := rfl

/-- The messages above. -/
def messages : List Message := [memberNote, ownerClear, memberNoteAgain, memberOther]

end Sample

end InnerStorage
