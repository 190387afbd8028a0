import AnySync.Acl.Storage
import Mathlib.Data.List.Chain

/-!
# Loading the log

`loadRecords` of `list.go` reads the log of an ACL from its storage. It scans the records by their
order and checks that they follow each other from the root to the head; otherwise it walks from the
head to the root, from each record to the one that it names as the previous one.

The main result is `loadRecords_eq_chain`.
-/

namespace Acl

open Except (bind_eq_ok)

/-- A loaded record, of which the raw data are dropped. -/
structure LoadedRecord where
  id : GoString
  prevId : GoString
  identity : PubKey
  /-- The root, or the content of another record. -/
  model : AclRoot ⊕ AclData
deriving DecidableEq, Repr

/-- The record builder of a list. -/
structure Loader where
  crypto : Crypto
  codec : Codec
  /-- `AclRoot.UnmarshalVT`, with the identity of the root. -/
  unmarshalAclRoot : Bytes → Option (Bytes × AclRoot)
  verifyAcceptor : RawRecord → Bool
  shouldValidate : Bool
  pubKey : PubKey
  /-- The id of the ACL, which is the id of its root. -/
  rootId : GoString

namespace Loader

variable (L : Loader) (s : AclStorage)

/-- `unmarshalForState` with `UnmarshallWithId`. A root has no previous id. -/
def unmarshalForState (raw : RawRecordWithId) : Except AclError LoadedRecord :=
  if raw.id = L.rootId then do
    let rawRec ← Codec.decoded (L.codec.unmarshalRawRecord raw.payload)
    let (identity, aclRoot) ← Codec.decoded (L.unmarshalAclRoot rawRec.payload)
    let pubKey ← L.crypto.pubKeyFromProto identity
    L.codec.verifyRaw L.crypto pubKey rawRec raw
    pure { id := raw.id, prevId := [], identity := pubKey, model := .inl aclRoot }
  else do
    let rec' ← L.codec.unmarshallWithId L.crypto L.verifyAcceptor L.shouldValidate L.pubKey raw
    pure
      { id := rec'.id, prevId := rec'.prevId, identity := rec'.identity, model := .inr rec'.model }

/-- `loadRecordsByScan`. -/
def loadRecordsByScan : Except AclError (List LoadedRecord) :=
  (s.getAfterOrder 1).mapM fun sr => L.unmarshalForState sr.rawRecordWithId

end Loader

/-- `isContiguousChain`. -/
def isContiguousChain (records : List LoadedRecord) (rootId head : GoString) : Bool :=
  records.head?.map (·.id) = some rootId && records.getLast?.map (·.id) = some head &&
    (records.zip records.tail).all fun (prev, next) => next.prevId = prev.id

/-- `Get`: the document with the id, or the last record under the id in the slice. -/
def AclStorage.get (s : AclStorage) (id : GoString) : Except AclError StorageRecord :=
  let found :=
    match s.kind with
    | .database => s.records.find? (·.id = id)
    | .inMemory => s.records.reverse.find? (·.id = id)
  match found with
  | some sr => .ok sr
  | none => .error .noSuchRecord

namespace Loader

variable (L : Loader) (s : AclStorage)
variable {raw : RawRecordWithId} {record : LoadedRecord} {id head : GoString} {sr : StorageRecord}
  {records chain : List LoadedRecord}

/-- The record under an id. -/
def load (id : GoString) : Except AclError LoadedRecord := do
  let sr ← s.get id
  L.unmarshalForState sr.rawRecordWithId

/-- The loop of `loadRecordsByPrevId`, which goes on after a record. It is still running if the
fuel is used up. -/
def prevIdLoop : ℕ → LoadedRecord → Option (Except AclError (List LoadedRecord))
  | 0, _ => none
  | fuel + 1, record =>
    if record.prevId = [] then some (.ok [record])
    else
      match L.load s record.prevId with
      | .error e => some (.error e)
      | .ok prev => (prevIdLoop fuel prev).map fun result => result.map (record :: ·)

/-- `loadRecordsByPrevId`. -/
def loadRecordsByPrevId (fuel : ℕ) (head : GoString) :
    Option (Except AclError (List LoadedRecord)) :=
  match L.load s head with
  | .error e => some (.error e)
  | .ok record => (L.prevIdLoop s fuel record).map fun result => result.map List.reverse

/-- `loadRecords`. -/
def loadRecords (fuel : ℕ) (head : GoString) : Option (Except AclError (List LoadedRecord)) :=
  match L.loadRecordsByScan s with
  | .ok records =>
    if isContiguousChain records L.rootId head then some (.ok records)
    else L.loadRecordsByPrevId s fuel head
  | .error _ => L.loadRecordsByPrevId s fuel head

/-- Following the previous ids from `id` one comes to the root, along these records. -/
inductive PrevChain : GoString → List LoadedRecord → Prop
  | root {record : LoadedRecord} (hload : L.load s L.rootId = .ok record) :
      PrevChain L.rootId [record]
  | step {id : GoString} {record : LoadedRecord} {rest : List LoadedRecord}
      (hload : L.load s id = .ok record) (hprev : record.prevId ≠ [])
      (hrest : PrevChain record.prevId rest) : PrevChain id (rest ++ [record])

/-- An id stands for one record: it is the key of the database, and in memory the hash of the
bytes. -/
def Keyed : Prop :=
  match s.kind with
  | .database => (s.records.map (·.id)).Nodup
  | .inMemory => ∀ a b id, L.codec.newCidFromBytes a = some id →
    L.codec.newCidFromBytes b = some id → a = b

variable {L s}

/-! ## Records -/

theorem verifyRaw_eq_ok {C : Crypto} {D : Codec} {pubKey : PubKey} {rawRec : RawRecord}
    (h : D.verifyRaw C pubKey rawRec raw = .ok ()) :
    D.newCidFromBytes raw.payload = some raw.id := by
  obtain ⟨_, -, h⟩ := bind_eq_ok.mp h
  simpa using h

/-- A decoded record has the id of its bytes, and a root has no previous id. -/
theorem unmarshalForState_eq_ok (h : L.unmarshalForState raw = .ok record) :
    record.id = raw.id ∧ L.codec.newCidFromBytes raw.payload = some raw.id ∧
      (raw.id = L.rootId → record.prevId = []) := by
  unfold unmarshalForState at h
  split at h
  · obtain ⟨rawRec, -, h⟩ := bind_eq_ok.mp h
    obtain ⟨⟨identity, aclRoot⟩, -, h⟩ := bind_eq_ok.mp h
    obtain ⟨pubKey, -, h⟩ := bind_eq_ok.mp h
    obtain ⟨_, hverify, h⟩ := bind_eq_ok.mp h
    obtain rfl := Except.ok.inj h
    exact ⟨rfl, verifyRaw_eq_ok hverify, fun _ => rfl⟩
  · next hne =>
    obtain ⟨rec', hrec, h⟩ := bind_eq_ok.mp h
    obtain rfl := Except.ok.inj h
    obtain ⟨rawRec, -, hrec⟩ := bind_eq_ok.mp hrec
    obtain ⟨_, -, hrec⟩ := bind_eq_ok.mp hrec
    obtain ⟨aclRecord, -, hrec⟩ := bind_eq_ok.mp hrec
    obtain ⟨author, -, hrec⟩ := bind_eq_ok.mp hrec
    obtain ⟨aclData, -, hrec⟩ := bind_eq_ok.mp hrec
    obtain ⟨_, hverify, hrec⟩ := bind_eq_ok.mp hrec
    obtain rfl := Except.ok.inj hrec
    exact ⟨rfl, verifyRaw_eq_ok hverify, fun heq => absurd heq hne⟩

theorem get_eq_ok (h : s.get id = .ok sr) : sr ∈ s.records ∧ sr.id = id := by
  unfold AclStorage.get at h
  cases hkind : s.kind with
  | database =>
    simp only [hkind] at h
    split at h
    · next hfind =>
      obtain rfl := Except.ok.inj h
      exact ⟨List.mem_of_find?_eq_some hfind, by simpa using List.find?_some hfind⟩
    · cases h
  | inMemory =>
    simp only [hkind] at h
    split at h
    · next hfind =>
      obtain rfl := Except.ok.inj h
      exact ⟨List.mem_reverse.mp (List.mem_of_find?_eq_some hfind),
        by simpa using List.find?_some hfind⟩
    · cases h

theorem mem_records_of_mem_getAfterOrder {order : ℕ} (h : sr ∈ s.getAfterOrder order) :
    sr ∈ s.records := by
  unfold AclStorage.getAfterOrder at h
  split at h
  · exact (List.mem_filter.mp ((List.mem_insertionSort _).mp h)).1
  · split at h
    · cases h
    · exact List.mem_of_mem_drop h

/-- A record of the scan is the one that is loaded under its id. -/
theorem Keyed.eq_of_load (hkeyed : L.Keyed s) (hmem : sr ∈ s.records) {loaded : LoadedRecord}
    (hrecord : L.unmarshalForState sr.rawRecordWithId = .ok record)
    (hload : L.load s record.id = .ok loaded) : record = loaded := by
  obtain ⟨sr', hget, hloaded⟩ := bind_eq_ok.mp hload
  obtain ⟨hmem', hid'⟩ := get_eq_ok hget
  obtain ⟨hid, hcid, -⟩ := unmarshalForState_eq_ok hrecord
  obtain ⟨-, hcid', -⟩ := unmarshalForState_eq_ok hloaded
  have hsame : sr.id = sr'.id := (hid'.trans hid).symm
  have hraw : sr.rawRecordWithId = sr'.rawRecordWithId := by
    unfold Keyed at hkeyed
    cases hkind : s.kind with
    | database =>
      simp only [hkind] at hkeyed
      rw [List.inj_on_of_nodup_map hkeyed hmem hmem' hsame]
    | inMemory =>
      simp only [hkind] at hkeyed
      have hcid'' : L.codec.newCidFromBytes sr'.rawRecord = some sr.id := by
        rw [hsame]
        exact hcid'
      have hbytes := hkeyed sr.rawRecord sr'.rawRecord sr.id hcid hcid''
      exact congrArg₂ RawRecordWithId.mk hbytes hsame
  rw [hraw, hloaded] at hrecord
  exact (Except.ok.inj hrecord).symm

/-! ## The two ways -/

/-- What the check says of a scan. -/
theorem isContiguousChain_iff {rootId : GoString} :
    isContiguousChain records rootId head = true ↔
      records.head?.map (·.id) = some rootId ∧ records.getLast?.map (·.id) = some head ∧
        records.IsChain fun prev next => next.prevId = prev.id := by
  have hchain : ((records.zip records.tail).all fun (prev, next) => next.prevId = prev.id) = true ↔
      records.IsChain fun prev next => next.prevId = prev.id := by
    induction records with
    | nil => simp
    | cons a l ih =>
      cases l with
      | nil => simp
      | cons b l =>
        simp only [List.tail_cons, List.zip_cons_cons, List.all_cons, Bool.and_eq_true,
          decide_eq_true_eq, List.isChain_cons_cons] at ih ⊢
        rw [ih]
  rw [isContiguousChain, Bool.and_eq_true, Bool.and_eq_true, decide_eq_true_eq, decide_eq_true_eq,
    hchain, and_assoc]

/-- Records that are loaded under their ids and follow each other from the root are the chain. -/
theorem PrevChain.eq_of_contiguous (h : L.PrevChain s id chain)
    (hhead : records.head?.map (·.id) = some L.rootId)
    (hlast : records.getLast?.map (·.id) = some id)
    (hlinks : records.IsChain fun prev next => next.prevId = prev.id)
    (hloaded : ∀ record ∈ records, record.id ≠ [] ∧
      ∀ loaded, L.load s record.id = .ok loaded → record = loaded) : records = chain := by
  induction h generalizing records with
  | root hload =>
    obtain ⟨last, hlast, hid⟩ := Option.map_eq_some_iff.mp hlast
    obtain ⟨init, rfl⟩ := List.getLast?_eq_some_iff.mp hlast
    obtain rfl := (hloaded last (by simp)).2 _ (hid ▸ hload)
    -- nothing is before the root, since no id is empty
    obtain ⟨sr, hget, hroot⟩ := bind_eq_ok.mp hload
    have hprev := (unmarshalForState_eq_ok hroot).2.2 (get_eq_ok hget).2
    cases hinit : init.getLast? with
    | none => simp [List.getLast?_eq_none_iff.mp hinit]
    | some before =>
      have hlink := (List.isChain_append.mp hlinks).2.2 before hinit last rfl
      have hmem := List.mem_append_left [last] (List.mem_of_getLast? hinit)
      exact absurd (hlink.symm.trans hprev) (hloaded before hmem).1
  | step hload hprev hrest ih =>
    obtain ⟨last, hlast, hid⟩ := Option.map_eq_some_iff.mp hlast
    obtain ⟨init, rfl⟩ := List.getLast?_eq_some_iff.mp hlast
    obtain rfl := (hloaded last (by simp)).2 _ (hid ▸ hload)
    congr 1
    cases hinit : init.getLast? with
    | none =>
      -- the only record would be the root
      obtain rfl := List.getLast?_eq_none_iff.mp hinit
      obtain ⟨sr, hget, hrecord⟩ := bind_eq_ok.mp hload
      have hroot : sr.id = L.rootId := by
        rw [(get_eq_ok hget).2, ← hid]
        simpa using hhead
      exact absurd ((unmarshalForState_eq_ok hrecord).2.2 hroot) hprev
    | some before =>
      obtain ⟨hinitLinks, -, hlink⟩ := List.isChain_append.mp hlinks
      apply ih
      · rwa [List.head?_append_of_ne_nil _ (List.ne_nil_of_mem (List.mem_of_getLast? hinit))]
          at hhead
      · rw [hinit, Option.map_some, hlink before hinit last rfl]
      · exact hinitLinks
      · exact fun record hrecord => hloaded record (List.mem_append_left _ hrecord)

/-- The walk along the previous ids. -/
theorem PrevChain.prevIdLoop (h : L.PrevChain s id chain) :
    ∃ record, L.load s id = .ok record ∧
      ∀ fuel, chain.length ≤ fuel → L.prevIdLoop s fuel record = some (.ok chain.reverse) := by
  induction h with
  | @root record hload =>
    obtain ⟨sr, hget, hroot⟩ := bind_eq_ok.mp hload
    have hprev := (unmarshalForState_eq_ok hroot).2.2 (get_eq_ok hget).2
    refine ⟨record, hload, fun fuel hfuel => ?_⟩
    obtain ⟨fuel, rfl⟩ := Nat.exists_eq_succ_of_ne_zero (Nat.ne_zero_of_lt hfuel)
    rw [Loader.prevIdLoop, if_pos hprev]
    rfl
  | @step id record rest hload hprev _ ih =>
    obtain ⟨prev, hloadPrev, hloop⟩ := ih
    refine ⟨record, hload, fun fuel hfuel => ?_⟩
    rw [List.length_append, List.length_singleton] at hfuel
    obtain ⟨fuel, rfl⟩ := Nat.exists_eq_succ_of_ne_zero (Nat.ne_zero_of_lt hfuel)
    rw [Loader.prevIdLoop, if_neg hprev, hloadPrev, List.reverse_append]
    simp [hloop fuel (by omega), Except.map]

theorem PrevChain.loadRecordsByPrevId (h : L.PrevChain s head chain) {fuel : ℕ}
    (hfuel : chain.length ≤ fuel) : L.loadRecordsByPrevId s fuel head = some (.ok chain) := by
  obtain ⟨record, hload, hloop⟩ := h.prevIdLoop
  simp [Loader.loadRecordsByPrevId, hload, hloop fuel hfuel, Except.map]

/-- What is scanned is loaded under its id. -/
theorem Keyed.loaded_of_scan (hkeyed : L.Keyed s) (hscan : L.loadRecordsByScan s = .ok records) :
    ∀ record ∈ records, record.id ≠ [] ∧
      ∀ loaded, L.load s record.id = .ok loaded → record = loaded := by
  intro record hrecord
  have hmap := mapM_eq_ok.mp hscan
  have hmem : (Except.ok record : Except AclError LoadedRecord) ∈
      (s.getAfterOrder 1).map fun sr => L.unmarshalForState sr.rawRecordWithId := by
    rw [hmap]
    exact List.mem_map_of_mem hrecord
  obtain ⟨sr, hsr, hdecode⟩ := List.mem_map.mp hmem
  obtain ⟨hid, hcid, -⟩ := unmarshalForState_eq_ok hdecode
  refine ⟨?_, fun loaded hload => ?_⟩
  · rw [hid]
    exact L.codec.newCidFromBytes_ne_nil _ _ hcid
  · exact hkeyed.eq_of_load (mem_records_of_mem_getAfterOrder hsr) hdecode hload

/-- The records of the chain are loaded, in its order. The walk needs as many rounds as the chain
has records. -/
theorem loadRecords_eq_chain (L : Loader) (s : AclStorage) (head : GoString)
    (chain : List LoadedRecord) (hkeyed : L.Keyed s) (h : L.PrevChain s head chain) :
    ∀ fuel, chain.length ≤ fuel → L.loadRecords s fuel head = some (.ok chain) := by
  intro fuel hfuel
  unfold loadRecords
  cases hscan : L.loadRecordsByScan s with
  | error e => exact h.loadRecordsByPrevId hfuel
  | ok records =>
    show (if isContiguousChain records L.rootId head then _ else _) = _
    split
    · next hcontiguous =>
      obtain ⟨hhead, hlast, hlinks⟩ := isContiguousChain_iff.mp hcontiguous
      rw [h.eq_of_contiguous hhead hlast hlinks (hkeyed.loaded_of_scan hscan)]
    · exact h.loadRecordsByPrevId hfuel

end Loader

namespace LoadSample

open Sample

/-- The payload of the root. -/
def rootPayload : Bytes :=
  field 1 (proto owner) ++ field 4 [1] ++ field 7 (proto metadataKey) ++ field 8 [2] ++ field 9 [3]

/-- The root with the signature of the owner. -/
def rootRaw : RawRecord where
  payload := rootPayload
  signature := bytesOfHalves 0x6ac22201ed1a00f0d2ac88a198be190e9e1dc7618453ad5e3e6d726dfc46190c
    0x1a069dc6c77819336f58f7fc82adfd767bc6070251caf0616c9ff9cdcb3c2c0f
  acceptorIdentity := []
  acceptorSignature := []

/-- The root as it is stored. -/
def rootStored : RawRecordWithId where
  payload := field 1 rootRaw.payload ++ field 2 rootRaw.signature
  id := ascii "bafyreidrmnryrqhzyl2vmo2ch7ypci22hhcvg3oasyl5uff56uz2sems7a"

/-- The owner adds `bob`. -/
def addBob : Signed where
  prevId := rootStored.id
  data := addReaderData bob
  model := ⟨[accountAdd bob .reader]⟩
  signature := bytesOfHalves 0xbcdf3687cba01e3cf1d9089ad3bcab3586a2094f77eb6ac8770827042476de7b
    0x8d3371fc346136cf0fd2c5ab68846d41857b8f5a9c676514e6bba1bb92519607
  hash := ascii "bafyreiah6rd74ma6icfy6d4yeih4hcygoejrzybf4xper7adsphxqqo5aa"
  id := ascii "bafyreiaw5c6rrfk4qniaofb2nwkvm4wem4c7cggwl6bzsl67jqrfvjw5ea"

/-- Then the owner adds `alice`. -/
def addAlice : Signed where
  prevId := addBob.id
  data := addReaderData alice
  model := ⟨[accountAdd alice .reader]⟩
  signature := bytesOfHalves 0xd6416db9eca571bff34e0391bcaec5f0019421082d5210d3dd44b300690094ff
    0x1281b8f2bb8cc5e69764b4eb8696b05e1c8d09b348505ea1a0b065586e25f70e
  hash := ascii "bafyreihv3gpkm6que6rntsje6lgf6xdog662mkjgr2leu2732oxvg3pvpe"
  id := ascii "bafyreiagf54qkqgzi66ini2ho67qtqnleeopyzczmelpdp64gcnnuynlee"

/-- The decoders and the hash on the bytes of the log, and on those of a record of another log. -/
def loadCodec : Codec :=
  { codec [addBob, addAlice, rotation] with
    unmarshalRawRecord bytes :=
      if bytes = rootStored.payload then some rootRaw
      else (codec [addBob, addAlice, rotation]).unmarshalRawRecord bytes
    newCidFromBytes bytes :=
      if bytes = rootStored.payload then some rootStored.id
      else (codec [addBob, addAlice, rotation]).newCidFromBytes bytes
    newCidFromBytes_ne_nil bytes id h := by
      split at h
      · cases h; decide
      · exact (codec _).newCidFromBytes_ne_nil bytes id h }

def loader : Loader where
  crypto := crypto [(observerKey, observer)] ((owner, rootPayload, rootRaw.signature) ::
    [addBob, addAlice, rotation].map fun r => (owner, r.payload, r.signature))
  codec := loadCodec
  unmarshalAclRoot bytes := if bytes = rootPayload then some (proto owner, root.model) else none
  verifyAcceptor _ := true
  shouldValidate := true
  pubKey := observer
  rootId := rootStored.id

def stored (raw : RawRecordWithId) (prevId : GoString) (order : ℕ) : StorageRecord :=
  ⟨raw.payload, prevId, raw.id, order, raw.payload.length⟩

/-- A root and two records whose orders are swapped, and a record that is not of the log. -/
def storage : AclStorage where
  kind := .database
  records := [stored rootStored [] 1, stored addBob.stored rootStored.id 7,
    stored addAlice.stored addBob.id 3, stored rotation.stored rotation.prevId 5]

def loadedRoot : LoadedRecord := ⟨rootStored.id, [], owner, .inl root.model⟩

def loaded (r : Signed) : LoadedRecord := ⟨r.id, r.prevId, owner, .inr r.model⟩

theorem prevChain :
    loader.PrevChain storage addAlice.id [loadedRoot, loaded addBob, loaded addAlice] := by
  have hroot : loader.PrevChain storage rootStored.id [loadedRoot] := .root (by decide +kernel)
  have hbob : loader.load storage addBob.id = .ok (loaded addBob) := by decide +kernel
  have halice : loader.load storage addAlice.id = .ok (loaded addAlice) := by decide +kernel
  exact .step halice (by decide) (.step hbob (by decide) hroot)

end LoadSample

open LoadSample in
/-- With a permuted index and a stray record the log is loaded by its previous ids. -/
theorem loadRecords_eq_chain_sample :
    loader.loadRecords storage 3 addAlice.id =
      some (.ok [loadedRoot, loaded addBob, loaded addAlice]) :=
  Loader.loadRecords_eq_chain loader storage addAlice.id _
    (show (storage.records.map (·.id)).Nodup by decide +kernel) prevChain 3 le_rfl

end Acl
