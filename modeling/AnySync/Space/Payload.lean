import AnySync.Acl.Raw
import Mathlib.Data.Nat.Digits.Defs

/-!
# Space payloads

`ValidateSpaceStorageCreatePayload` of `commonspace/spacepayloads/payloads.go`: a space is pulled
as a header, an ACL root and a settings root, each a signed message under the hash of its bytes.

The main result is `owner_committed_iff`.
-/

namespace Space

open Acl (PubKey Crypto)
open Except (bind_eq_ok)

/-! ## Messages -/

/-- `SpaceHeaderVersion`. Proto3 enums are open. -/
inductive SpaceHeaderVersion
  | version0
  | version1
  | unknown (n : ℤ)
deriving DecidableEq, Repr

/-- `RawSpaceHeaderWithId`. -/
structure RawSpaceHeaderWithId where
  rawHeader : Bytes
  id : GoString
deriving DecidableEq, Repr

/-- `RawSpaceHeader`. -/
structure RawSpaceHeader where
  spaceHeader : Bytes
  signature : Bytes
deriving DecidableEq, Repr

/-- The part of `SpaceHeader` that is validated. -/
structure SpaceHeader where
  identity : Bytes
  spaceType : GoString
  replicationKey : ℕ
  spaceHeaderPayload : Bytes
  aclPayload : Bytes
  settingPayload : Bytes
  version : SpaceHeaderVersion
deriving DecidableEq, Repr

/-- `AclRoot`: what is validated, and what the ACL makes of it. -/
structure AclRoot where
  identity : Bytes
  masterKey : Bytes
  spaceId : GoString
  identitySignature : Bytes
  content : Acl.AclRoot
deriving DecidableEq, Repr

/-- `RawTreeChange`. -/
structure RawTreeChange where
  payload : Bytes
  signature : Bytes
deriving DecidableEq, Repr

/-- The part of `RootChange` that is validated. -/
structure RootChange where
  aclHeadId : GoString
  spaceId : GoString
  identity : Bytes
deriving DecidableEq, Repr

/-- A `RawRecordWithId` or a `RawTreeChangeWithId`. The bytes are `none` if the slice is nil. -/
structure BytesWithId where
  bytes : Option Bytes
  id : GoString
deriving DecidableEq, Repr

/-- The bytes, of which a nil slice has none. -/
def BytesWithId.data (raw : BytesWithId) : Bytes := raw.bytes.getD []

/-- `SpaceStorageCreatePayload`. The header is a pointer of the response and may be nil. -/
structure SpaceStorageCreatePayload where
  aclWithId : BytesWithId
  spaceHeaderWithId : Option RawSpaceHeaderWithId
  spaceSettingsWithId : BytesWithId
deriving DecidableEq, Repr

/-- The decoders of the messages of a space. -/
structure Codec extends Acl.Codec where
  unmarshalRawSpaceHeader : Bytes → Option RawSpaceHeader
  unmarshalSpaceHeader : Bytes → Option SpaceHeader
  unmarshalAclRoot : Bytes → Option AclRoot
  unmarshalRawTreeChange : Bytes → Option RawTreeChange
  unmarshalRootChange : Bytes → Option RootChange
  unmarshalOneToOneInfo : Bytes → Option Acl.AclOneToOneInfo

/-- The errors of the validation. -/
inductive PayloadError
  /-- `ErrIncorrectSpaceHeader`. -/
  | incorrectSpaceHeader
  /-- `ErrIncorrectCid`. -/
  | incorrectCid
  /-- `ErrIncorrectOneToOnePayload`. -/
  | incorrectOneToOnePayload
  /-- `ErrIncorrectIdentity`. -/
  | incorrectIdentity
  /-- The error of a decoder. -/
  | malformed
  /-- The error of `UnmarshalEd25519PublicKeyProto`. -/
  | badPublicKey
deriving DecidableEq, Repr

/-! ## Validation -/

/-- "anytype.onetoone" and "any.onetoone". -/
def oneToOneTypes : List GoString :=
  [[97, 110, 121, 116, 121, 112, 101, 46, 111, 110, 101, 116, 111, 111, 110, 101],
    [97, 110, 121, 46, 111, 110, 101, 116, 111, 111, 110, 101]]

/-- `IsOneToOneType`. -/
def isOneToOneType (spaceType : GoString) : Bool := spaceType ∈ oneToOneTypes

/-- `strconv.FormatUint` to the base 36. -/
def formatUint36 (n : ℕ) : GoString :=
  if n = 0 then [48]
  else (Nat.digits 36 n).reverse.map fun d => if d < 10 then UInt8.ofNat (48 + d)
    else UInt8.ofNat (87 + d)

section Validate

variable (C : Crypto) (D : Codec)

/-- The result of a decoder, or the error. -/
def orFail {α : Type} (e : PayloadError) : Option α → Except PayloadError α
  | some a => .ok a
  | none => .error e

/-- `VerifyCid`. -/
def verifyCid (data : Bytes) (id : GoString) : Bool := D.newCidFromBytes data = some id

/-- The first part of `ValidateSpaceHeader`, up to the check of the replication key. -/
def decodeSpaceHeader (rawHeaderWithId : Option RawSpaceHeaderWithId) :
    Except PayloadError (PubKey × SpaceHeader) := do
  let raw ← orFail .incorrectSpaceHeader rawHeaderWithId
  failIf (46 ∉ raw.id) .incorrectSpaceHeader
  failIf (!verifyCid D raw.rawHeader (raw.id.takeWhile (· ≠ 46))) .incorrectCid
  let rawSpaceHeader ← orFail .malformed (D.unmarshalRawSpaceHeader raw.rawHeader)
  let header ← orFail .malformed (D.unmarshalSpaceHeader rawSpaceHeader.spaceHeader)
  let payloadIdentity ← orFail .badPublicKey (C.unmarshalPublicKey header.identity)
  failIf (!C.verify payloadIdentity rawSpaceHeader.spaceHeader rawSpaceHeader.signature)
    .incorrectSpaceHeader
  failIf ((raw.id.dropWhile (· ≠ 46)).tail ≠ formatUint36 header.replicationKey)
    .incorrectSpaceHeader
  pure (payloadIdentity, header)

/-- The bytes are given and are not those of a version 1 header. -/
def mismatch (given : Option Bytes) (embedded : Bytes) : Bool :=
  match given with
  | some bytes => bytes ≠ embedded
  | none => false

/-- The last part of `ValidateSpaceHeader`. -/
def checkIdentity (identity : Option PubKey) (payloadIdentity : PubKey) (header : SpaceHeader) :
    Except PayloadError Unit :=
  if isOneToOneType header.spaceType then
    failIf (D.unmarshalOneToOneInfo header.spaceHeaderPayload).isNone .incorrectOneToOnePayload
  else
    failIf (identity.any (· ≠ payloadIdentity)) .incorrectIdentity

/-- `ValidateSpaceHeader`, which tells whether the space id is to be checked. -/
def validateSpaceHeader (rawHeaderWithId : Option RawSpaceHeaderWithId) (identity : Option PubKey)
    (aclPayload settingsPayload : Option Bytes) : Except PayloadError Bool := do
  let (payloadIdentity, header) ← decodeSpaceHeader C D rawHeaderWithId
  let isV1 := header.version = .version1
  failIf (isV1 ∧ mismatch aclPayload header.aclPayload) .incorrectSpaceHeader
  failIf (isV1 ∧ mismatch settingsPayload header.settingPayload) .incorrectSpaceHeader
  checkIdentity D identity payloadIdentity header
  pure ¬ isV1

/-- `validateCreateSpaceAclPayload`, with the space id of the root. -/
def validateCreateSpaceAclPayload (rawWithId : BytesWithId) : Except PayloadError GoString := do
  failIf (!verifyCid D rawWithId.data rawWithId.id) .incorrectCid
  let rawAcl ← orFail .malformed (D.unmarshalRawRecord rawWithId.data)
  let aclRoot ← orFail .malformed (D.unmarshalAclRoot rawAcl.payload)
  let payloadIdentity ← orFail .badPublicKey (C.unmarshalPublicKey aclRoot.identity)
  failIf (!C.verify payloadIdentity rawAcl.payload rawAcl.signature) .incorrectSpaceHeader
  let masterKey ← orFail .badPublicKey (C.unmarshalPublicKey aclRoot.masterKey)
  failIf (!C.verify masterKey payloadIdentity.raw aclRoot.identitySignature) .incorrectSpaceHeader
  pure aclRoot.spaceId

/-- `validateCreateSpaceSettingsPayload`, with the ids of the ACL and of the space. -/
def validateCreateSpaceSettingsPayload (rawWithId : BytesWithId) :
    Except PayloadError (GoString × GoString) := do
  failIf (!verifyCid D rawWithId.data rawWithId.id) .incorrectSpaceHeader
  let raw ← orFail .malformed (D.unmarshalRawTreeChange rawWithId.data)
  let rootChange ← orFail .malformed (D.unmarshalRootChange raw.payload)
  let payloadIdentity ← orFail .badPublicKey (C.unmarshalPublicKey rootChange.identity)
  failIf (!C.verify payloadIdentity raw.payload raw.signature) .incorrectSpaceHeader
  pure (rootChange.aclHeadId, rootChange.spaceId)

/-- `ValidateSpaceStorageCreatePayload`. -/
def validateSpaceStorageCreatePayload (payload : SpaceStorageCreatePayload) :
    Except PayloadError Unit := do
  let needCheckSpaceId ← validateSpaceHeader C D payload.spaceHeaderWithId none
    payload.aclWithId.bytes payload.spaceSettingsWithId.bytes
  let aclSpaceId ← validateCreateSpaceAclPayload C D payload.aclWithId
  let (aclHeadId, settingsSpaceId) ←
    validateCreateSpaceSettingsPayload C D payload.spaceSettingsWithId
  failIf (needCheckSpaceId ∧ (payload.spaceHeaderWithId.map (·.id) ≠ some aclSpaceId ∨
    aclSpaceId ≠ settingsSpaceId)) .incorrectSpaceHeader
  failIf (aclHeadId ≠ payload.aclWithId.id) .incorrectSpaceHeader

/-- The identity that an ACL root names, which becomes the owner. -/
def BytesWithId.owner (aclWithId : BytesWithId) : Option PubKey := do
  let rawAcl ← D.unmarshalRawRecord aclWithId.data
  let aclRoot ← D.unmarshalAclRoot rawAcl.payload
  C.unmarshalPublicKey aclRoot.identity

/-- The header is one of version 1. -/
def SpaceStorageCreatePayload.isV1 (payload : SpaceStorageCreatePayload) : Bool :=
  match decodeSpaceHeader C D payload.spaceHeaderWithId with
  | .ok (_, header) => header.version = .version1
  | .error _ => false

end Validate

/-! ## What a header commits to -/

/-- The hash is free of collisions. -/
def Codec.CollisionFree (D : Codec) : Prop :=
  ∀ a b id, D.newCidFromBytes a = some id → D.newCidFromBytes b = some id → a = b

/-- No bytes decode to messages without fields, and these have no key. -/
structure EmptyMessages (C : Crypto) (D : Codec) : Prop where
  rawRecord : ∀ raw, D.unmarshalRawRecord [] = some raw → raw.payload = []
  aclRoot : ∀ root, D.unmarshalAclRoot [] = some root → root.identity = []
  publicKey : C.unmarshalPublicKey [] = none

/-- The roots are signed by the account `k` and name the space. -/
structure SignedRoots (C : Crypto) (D : Codec) (spaceId : GoString) (k : PubKey)
    (aclWithId settingsWithId : BytesWithId) : Prop where
  owner : aclWithId.owner C D = some k
  acl : validateCreateSpaceAclPayload C D aclWithId = .ok spaceId
  settings : validateCreateSpaceSettingsPayload C D settingsWithId = .ok (aclWithId.id, spaceId)

section Commit

variable {C : Crypto} {D : Codec} {p q : SpaceStorageCreatePayload}
variable {raw : Option RawSpaceHeaderWithId} {spaceId : GoString} {identity : PubKey}
  {header : SpaceHeader}

@[simp]
theorem orFail_eq_ok {α : Type} {e : PayloadError} {o : Option α} {a : α} :
    orFail e o = .ok a ↔ o = some a := by
  cases o <;> simp [orFail]

theorem validateSpaceHeader_eq_ok {acl settings : Option Bytes} {need : Bool}
    (h : validateSpaceHeader C D raw none acl settings = .ok need) :
    ∃ identity header, decodeSpaceHeader C D raw = .ok (identity, header) ∧
      need = decide (header.version ≠ .version1) ∧
      (header.version = .version1 → mismatch acl header.aclPayload = false) := by
  obtain ⟨⟨identity, header⟩, hheader, h⟩ := bind_eq_ok.mp h
  obtain ⟨_, hacl, h⟩ := bind_eq_ok.mp h
  obtain ⟨_, -, h⟩ := bind_eq_ok.mp h
  obtain ⟨_, -, h⟩ := bind_eq_ok.mp h
  refine ⟨identity, header, hheader, (Except.ok.inj h).symm, fun hv => ?_⟩
  · rw [failIf_eq_ok] at hacl
    simpa [hv] using hacl

/-- Headers with the same id are the same. -/
theorem decodeSpaceHeader_congr (hcid : D.CollisionFree) {raw' : Option RawSpaceHeaderWithId}
    {out out' : PubKey × SpaceHeader} (h : decodeSpaceHeader C D raw = .ok out)
    (h' : decodeSpaceHeader C D raw' = .ok out') (hid : raw.map (·.id) = raw'.map (·.id)) :
    raw = raw' := by
  obtain ⟨r, hr, h⟩ := bind_eq_ok.mp h
  obtain ⟨-, -, h⟩ := bind_eq_ok.mp h
  obtain ⟨_, hverify, -⟩ := bind_eq_ok.mp h
  obtain ⟨r', hr', h'⟩ := bind_eq_ok.mp h'
  obtain ⟨-, -, h'⟩ := bind_eq_ok.mp h'
  obtain ⟨_, hverify', -⟩ := bind_eq_ok.mp h'
  rw [orFail_eq_ok] at hr hr'
  subst hr hr'
  have hid : r.id = r'.id := Option.some.inj hid
  simp only [failIf_eq_ok, verifyCid, Bool.not_eq_false', decide_eq_true_eq] at hverify hverify'
  rw [← hid] at hverify'
  have hraw := hcid _ _ _ hverify hverify'
  cases r
  cases r'
  simp_all

/-- A root with no bytes is refused. -/
theorem bytes_isSome_of_validate (hempty : EmptyMessages C D) {aclWithId : BytesWithId}
    (h : validateCreateSpaceAclPayload C D aclWithId = .ok spaceId) :
    ∃ bytes, aclWithId.bytes = some bytes := by
  obtain ⟨-, -, h⟩ := bind_eq_ok.mp h
  obtain ⟨rawAcl, hraw, h⟩ := bind_eq_ok.mp h
  obtain ⟨aclRoot, hroot, h⟩ := bind_eq_ok.mp h
  obtain ⟨identity, hidentity, h⟩ := bind_eq_ok.mp h
  rw [orFail_eq_ok] at hraw hroot hidentity
  rw [← Option.isSome_iff_exists, ← Option.ne_none_iff_isSome]
  intro hnone
  rw [BytesWithId.data, hnone, Option.getD_none] at hraw
  rw [hempty.rawRecord rawAcl hraw] at hroot
  rw [hempty.aclRoot aclRoot hroot, hempty.publicKey] at hidentity
  cases hidentity

/-- A version 1 header embeds the ACL root. -/
theorem bytes_eq_of_isV1 (hempty : EmptyMessages C D)
    (h : validateSpaceStorageCreatePayload C D p = .ok ())
    (hheader : decodeSpaceHeader C D p.spaceHeaderWithId = .ok (identity, header))
    (hv : header.version = .version1) : p.aclWithId.bytes = some header.aclPayload := by
  obtain ⟨need, hvalid, h⟩ := bind_eq_ok.mp h
  obtain ⟨spaceId, hacl, -⟩ := bind_eq_ok.mp h
  obtain ⟨identity', header', hheader', -, hmatch⟩ := validateSpaceHeader_eq_ok hvalid
  rw [hheader] at hheader'
  obtain ⟨rfl, rfl⟩ := Prod.mk.inj (Except.ok.inj hheader')
  obtain ⟨bytes, hbytes⟩ := bytes_isSome_of_validate hempty hacl
  have hmatch := hmatch hv
  rw [hbytes, mismatch] at hmatch
  rw [hbytes, of_not_not (of_decide_eq_false hmatch)]

/-- Other headers do not look at the roots. -/
theorem validateSpaceHeader_of_ne (hheader : decodeSpaceHeader C D raw = .ok (identity, header))
    (hv : header.version ≠ .version1) (acl settings acl' settings' : Option Bytes) :
    validateSpaceHeader C D raw none acl settings =
      validateSpaceHeader C D raw none acl' settings' := by
  unfold validateSpaceHeader
  rw [hheader]
  simp [hv, bind, Except.bind]

/-- A payload with the header of another one and other roots is accepted. -/
theorem validate_of_signedRoots (h : validateSpaceStorageCreatePayload C D p = .ok ())
    (hv : p.isV1 C D = false) (hid : p.spaceHeaderWithId.map (·.id) = some spaceId) {k : PubKey}
    {acl settings : BytesWithId} (hroots : SignedRoots C D spaceId k acl settings) :
    validateSpaceStorageCreatePayload C D
      { p with aclWithId := acl, spaceSettingsWithId := settings } = .ok () := by
  obtain ⟨need, hvalid, -⟩ := bind_eq_ok.mp h
  obtain ⟨identity, header, hheader, -, -⟩ := validateSpaceHeader_eq_ok hvalid
  have hne : header.version ≠ .version1 := by
    rw [SpaceStorageCreatePayload.isV1, hheader] at hv
    exact of_decide_eq_false hv
  rw [validateSpaceHeader_of_ne hheader hne _ _ acl.bytes settings.bytes] at hvalid
  refine bind_eq_ok.mpr ⟨need, hvalid, bind_eq_ok.mpr ⟨spaceId, hroots.acl,
    bind_eq_ok.mpr ⟨(acl.id, spaceId), hroots.settings, ?_⟩⟩⟩
  simp [hid, failIf, bind, Except.bind]

/-- The header of an accepted payload commits to the owner iff it is of version 1, which embeds the
ACL root. The other headers do not name the identity of the ACL root, and nobody compares it with
the identity of the header. -/
theorem owner_committed_iff (hcid : D.CollisionFree) (hempty : EmptyMessages C D)
    (hp : validateSpaceStorageCreatePayload C D p = .ok ())
    (hother : p.isV1 C D = false → ∀ spaceId, p.spaceHeaderWithId.map (·.id) = some spaceId →
      ∃ k acl settings, some k ≠ p.aclWithId.owner C D ∧ SignedRoots C D spaceId k acl settings) :
    (∀ q, validateSpaceStorageCreatePayload C D q = .ok () →
      q.spaceHeaderWithId.map (·.id) = p.spaceHeaderWithId.map (·.id) →
      q.aclWithId.owner C D = p.aclWithId.owner C D) ↔ p.isV1 C D = true := by
  obtain ⟨need, hvalid, -⟩ := bind_eq_ok.mp hp
  obtain ⟨identity, header, hheader, -, -⟩ := validateSpaceHeader_eq_ok hvalid
  constructor
  · intro hcommit
    by_contra hv
    rw [Bool.not_eq_true] at hv
    obtain ⟨raw, hraw⟩ : ∃ raw, p.spaceHeaderWithId = some raw := by
      obtain ⟨raw, hraw, -⟩ := bind_eq_ok.mp hheader
      exact ⟨raw, orFail_eq_ok.mp hraw⟩
    have hid : p.spaceHeaderWithId.map (·.id) = some raw.id := by rw [hraw, Option.map_some]
    -- the other account puts its own roots under the header
    obtain ⟨k, acl, settings, hne, hroots⟩ := hother hv raw.id hid
    have howner := hcommit _ (validate_of_signedRoots hp hv hid hroots) rfl
    exact hne (hroots.owner.symm.trans howner)
  · intro hv q hq hid
    obtain ⟨need', hvalid', -⟩ := bind_eq_ok.mp hq
    obtain ⟨identity', header', hheader', -, -⟩ := validateSpaceHeader_eq_ok hvalid'
    have hv1 : header.version = .version1 := by
      rw [SpaceStorageCreatePayload.isV1, hheader] at hv
      exact of_decide_eq_true hv
    have hraw := decodeSpaceHeader_congr hcid hheader' hheader hid
    have hbytes := bytes_eq_of_isV1 hempty hq (hraw ▸ hheader) hv1
    rw [BytesWithId.owner, BytesWithId.owner, BytesWithId.data, BytesWithId.data, hbytes,
      bytes_eq_of_isV1 hempty hp hheader hv1]

end Commit

namespace Sample

open Acl.Sample (field proto owner bob crypto)

/-- The signed roots of an account. -/
structure Roots where
  /-- The author of the roots. -/
  account : PubKey
  /-- The signature of the account for its own key, with itself as the master key. -/
  identitySignature : Bytes
  spaceId : GoString
  aclSignature : Bytes
  aclId : GoString
  settingsSignature : Bytes
  settingsId : GoString

namespace Roots

variable (r : Roots)

/-- The ACL root on the wire. -/
def aclPayload : Bytes :=
  field 1 (proto r.account) ++ field 2 (proto r.account) ++
    (if r.spaceId = [] then [] else field 3 r.spaceId) ++ field 6 r.identitySignature

/-- The settings root on the wire. -/
def settingsPayload : Bytes :=
  field 1 r.aclId ++ (if r.spaceId = [] then [] else field 2 r.spaceId) ++
    field 3 (ascii "any-sync.space") ++ field 6 (proto r.account)

def aclWithId : BytesWithId :=
  { bytes := some (field 1 r.aclPayload ++ field 2 r.aclSignature), id := r.aclId }

def settingsWithId : BytesWithId :=
  { bytes := some (field 1 r.settingsPayload ++ field 2 r.settingsSignature), id := r.settingsId }

/-- The root of an ACL whose read key is derived. -/
def aclRoot : AclRoot :=
  { identity := proto r.account, masterKey := proto r.account, spaceId := r.spaceId
    identitySignature := r.identitySignature
    content :=
      { encryptedReadKey := none, metadataPubKey := [], encryptedMetadataPrivKey := none
        encryptedOwnerMetadata := [], oneToOneInfo := none, options := none } }

def signatures : List (PubKey × Bytes × Bytes) :=
  [(r.account, r.account.raw, r.identitySignature), (r.account, r.aclPayload, r.aclSignature),
    (r.account, r.settingsPayload, r.settingsSignature)]

end Roots

/-- The header of a space of version 0 by the owner, and its signature. -/
def header0 : Bytes := field 1 (proto owner)

def signature0 : Bytes :=
  bytesOfHalves 0x870a8a259d2895f3a1e036c0f68adbd6e84075844d36ed88ccc74401ceb36d1d
    0xab3bfe4625054f3e657d9c944c2c335e7680050863c0f453dff8af9aed392107

def header0WithId : RawSpaceHeaderWithId :=
  { rawHeader := field 1 header0 ++ field 2 signature0
    id := ascii "bafyreidtvbdehk7rbjakysoy5mhlgzkhqt3qx2wuvuzck2l3j45w3n7iue.0" }

/-- The signature of the owner for its own key. -/
def ownerSignature : Bytes :=
  bytesOfHalves 0x141844f27d26126461f359e91d473fc9e550f8e0a7982dd66869faefaed84812
    0x322e99eb20a2cb774e93735f1ab0b0c6d78c4d42f456e2ff4fcb15bd5183b80a

/-- The roots of the space, by the owner. -/
def roots0 : Roots where
  account := owner
  identitySignature := ownerSignature
  spaceId := header0WithId.id
  aclSignature := bytesOfHalves 0x417f20e4934bab24c4c7e532eab5387466b36748d226b5ac780903ae2a4458da
    0x981ec06d630a9adb5d12730ed036cdeb00831224972e81972e4b7df20d8e080a
  aclId := ascii "bafyreifrovfnhdrilyjhq2fh4nmijtbkbqukonzvtn7lh7x4am2roq6eru"
  settingsSignature :=
    bytesOfHalves 0xb88164185f0f4d7c1e4c0c89c75fb43d22b40a11fafef7e45f14a5035435913f
      0x752cab8a529e8c4f393a9e9135ef5f04e7d32b16b92ef0dc12223bcd6080940a
  settingsId := ascii "bafyreifjultkyhuubqmoxwhwo5hotfptlnaw4lb6eqb6yjkr25giaa4kki"

/-- Roots for the same space, by another account. -/
def rootsBob : Roots where
  account := bob
  identitySignature :=
    bytesOfHalves 0x2846d88f33bfb697cc63527748d4b64e7b39d8ac0ba97c7a0ac64c4a070c2d85
      0x492605830fa734ae05caf2a03e069744d09e0d8e0faf65fd446e6ce07d040108
  spaceId := header0WithId.id
  aclSignature := bytesOfHalves 0x28c88de9f0c86c45d550c69c095ab6e30e694465964f16296dd1f4828a143df8
    0x0a127302b785d1cb679e9638bf509c42153cc3bb6be6727ec13c089d6e287307
  aclId := ascii "bafyreidszlzuc3lvxi4a3lhs6p3svry4bdqh3n2kotitpdnjpdgebpppra"
  settingsSignature :=
    bytesOfHalves 0x3ad75ae531c402b20441aa5e861bf8d8a156636b1f68aba365cc77dfdbcf8b7d
      0x07ce0ad321b100dadb8585550fab1bea2eaa2f184df149e1856ceac2c3efda0f
  settingsId := ascii "bafyreiftfkxw5uftpoj63dovdvqdnk4pbbcb3w5ylgmrnw4lxxu2f5kz3a"

/-- The roots of a space of version 1, which do not name it. -/
def roots1 : Roots where
  account := owner
  identitySignature := ownerSignature
  spaceId := []
  aclSignature := bytesOfHalves 0xd7fa4eba3640a79dca1bba45679349db98fee1a48916c4940a8dde3dd9fbed9e
    0x9b993142461631dfbef3f4879bec033defffa6df723341077214b4b2cd2fa502
  aclId := ascii "bafyreifxb6qtrrudrhpyztoscl35dhbzpvknfpmtlfseriokahth3d55pa"
  settingsSignature :=
    bytesOfHalves 0x36139fd9332060e469a629bf3248b0f321a2f5d4843a641edcacee12331cd44e
      0x44cefe56ff1f003de8870eff4e07fbc74f004f79af5fc3b1754ca57688c13703
  settingsId := ascii "bafyreigayuxqnk4hb6dzsuvwhr4guvfwckti3fhkt2wwk77skx3e2boesa"

/-- The header of version 1 that embeds them. -/
def header1 : Bytes :=
  field 1 (proto owner) ++ field 7 roots1.aclWithId.data ++ field 8 roots1.settingsWithId.data ++
    [0xa0, 0x06, 0x01]

def signature1 : Bytes :=
  bytesOfHalves 0x5546e68345b30de0311d1b58509fcadfe7aa8d125cffccaa97e255f1655c36e6
    0xb55f8dc87e199a2ce577de0dd41e20d28a5a4886ba8bcdf9c88ac761abe0880d

def header1WithId : RawSpaceHeaderWithId :=
  { rawHeader := field 1 header1 ++ field 2 signature1
    id := ascii "bafyreifworygmhzumrmrmx5zzv7oaoegwjuhg6w5n6y6gu2spunlgm7zey.0" }

/-- The keys and the signatures of the two accounts. -/
def C : Crypto :=
  crypto [] ([(owner, header0, signature0), (owner, header1, signature1)] ++ roots0.signatures ++
    rootsBob.signatures ++ roots1.signatures)

/-- The first entry of a table. -/
def ofTable {α : Type} (table : List (Bytes × α)) (bytes : Bytes) : Option α :=
  (table.find? (·.1 = bytes)).map (·.2)

/-- The hashes of these messages. -/
def cids : List (Bytes × GoString) :=
  (header0WithId.rawHeader, header0WithId.id.takeWhile (· ≠ 46)) ::
    (header1WithId.rawHeader, header1WithId.id.takeWhile (· ≠ 46)) ::
    [roots0, rootsBob, roots1].flatMap fun r =>
      [(r.aclWithId.data, r.aclId), (r.settingsWithId.data, r.settingsId)]

theorem mem_of_ofTable {α : Type} {table : List (Bytes × α)} {bytes : Bytes} {a : α}
    (h : ofTable table bytes = some a) : (bytes, a) ∈ table := by
  obtain ⟨x, hx, rfl⟩ := Option.map_eq_some_iff.mp h
  have hmem := List.mem_of_find?_eq_some hx
  have hfirst := List.find?_some hx
  rw [decide_eq_true_eq] at hfirst
  rw [← hfirst]
  exact hmem

/-- The decoders and the hash on these messages. -/
def codec : Codec where
  unmarshalRawRecord := ofTable ([roots0, rootsBob, roots1].map fun r =>
    (r.aclWithId.data, ⟨r.aclPayload, r.aclSignature, [], []⟩))
  unmarshalRecord _ := none
  unmarshalAclData _ := none
  keepIdentityFast _ _ := none
  newCidFromBytes := ofTable cids
  keepIdentityFast_eq _ _ _ h := by cases h
  newCidFromBytes_ne_nil bytes id h := by
    have hall : ∀ x ∈ cids, x.2 ≠ [] := by decide +kernel
    exact hall _ (mem_of_ofTable h)
  unmarshalRawSpaceHeader := ofTable [(header0WithId.rawHeader, ⟨header0, signature0⟩),
    (header1WithId.rawHeader, ⟨header1, signature1⟩)]
  unmarshalSpaceHeader := ofTable
    [(header0, ⟨proto owner, [], 0, [], [], [], .version0⟩),
      (header1, ⟨proto owner, [], 0, [], roots1.aclWithId.data, roots1.settingsWithId.data,
        .version1⟩)]
  unmarshalAclRoot := ofTable ([roots0, rootsBob, roots1].map fun r => (r.aclPayload, r.aclRoot))
  unmarshalRawTreeChange := ofTable ([roots0, rootsBob, roots1].map fun r =>
    (r.settingsWithId.data, ⟨r.settingsPayload, r.settingsSignature⟩))
  unmarshalRootChange := ofTable ([roots0, rootsBob, roots1].map fun r =>
    (r.settingsPayload, ⟨r.aclId, r.spaceId, proto r.account⟩))
  unmarshalOneToOneInfo _ := none

/-- A header with roots. -/
def payload (header : RawSpaceHeaderWithId) (r : Roots) : SpaceStorageCreatePayload :=
  { aclWithId := r.aclWithId, spaceHeaderWithId := some header
    spaceSettingsWithId := r.settingsWithId }

theorem collisionFree : codec.CollisionFree := by
  intro a b id ha hb
  have hnodup : ∀ x ∈ cids, ∀ y ∈ cids, x.2 = y.2 → x.1 = y.1 := by decide +kernel
  exact hnodup _ (mem_of_ofTable ha) _ (mem_of_ofTable hb) rfl

theorem emptyMessages : EmptyMessages C codec where
  rawRecord raw h := by
    have hnone : codec.unmarshalRawRecord [] = none := by decide +kernel
    rw [hnone] at h
    cases h
  aclRoot root h := by
    have hnone : codec.unmarshalAclRoot [] = none := by decide +kernel
    rw [hnone] at h
    cases h
  publicKey := by decide +kernel

end Sample

open Sample

/-- A version 1 header commits to its owner. -/
theorem owner_committed_header1 :
    validateSpaceStorageCreatePayload Sample.C codec
        (payload header1WithId roots1) = .ok () ∧
      roots1.aclWithId.owner Sample.C codec = some Acl.Sample.owner := by
  have hp : validateSpaceStorageCreatePayload Sample.C codec
      (payload header1WithId roots1) = .ok () := by decide +kernel
  have hv : (payload header1WithId roots1).isV1 Sample.C codec =
      true := by
    decide +kernel
  have howner : roots1.aclWithId.owner Sample.C codec = some Acl.Sample.owner := by decide +kernel
  have hcommitted := (owner_committed_iff collisionFree emptyMessages hp fun h => by
    rw [hv] at h
    cases h).mpr hv
  exact ⟨hp, (hcommitted _ hp rfl).trans howner⟩

/-- Under a header of version 0 the roots of two accounts are accepted. -/
theorem owner_not_committed_header0 :
    let p := payload header0WithId roots0
    let q := payload header0WithId rootsBob
    validateSpaceStorageCreatePayload Sample.C codec p = .ok () ∧
      validateSpaceStorageCreatePayload Sample.C codec q = .ok () ∧
      p.spaceHeaderWithId = q.spaceHeaderWithId ∧
      p.aclWithId.owner Sample.C codec = some Acl.Sample.owner ∧
      q.aclWithId.owner Sample.C codec = some Acl.Sample.bob ∧
      Acl.Sample.owner ≠ Acl.Sample.bob := by
  refine ⟨by decide +kernel, by decide +kernel, rfl, by decide +kernel, by decide +kernel,
    by decide +kernel⟩

end Space
