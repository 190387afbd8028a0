import AnySync.Space.Payload

/-!
# Pulling a space

`getSpaceStorageFromRemote` of `commonspace/spaceservice.go`: the peers are asked one after the
other, and a storage is created from the first answer that can be used.

The main result is `pullCorrect_iff`.
-/

namespace Space

open Acl (PubKey PrivKey Crypto AclError AclList RawRecord RawRecordWithId)
open Except (bind_eq_ok)

/-! ## Answers -/

/-- `SpacePayload`. -/
structure SpacePayload where
  spaceHeader : Option RawSpaceHeaderWithId
  aclPayload : Option Bytes
  aclPayloadId : GoString
  spaceSettingsPayload : Option Bytes
  spaceSettingsPayloadId : GoString
deriving DecidableEq, Repr

/-- The payload of a response as the payload of a storage. -/
def SpacePayload.createPayload (p : SpacePayload) : SpaceStorageCreatePayload :=
  { aclWithId := { bytes := p.aclPayload, id := p.aclPayloadId }
    spaceHeaderWithId := p.spaceHeader
    spaceSettingsWithId := { bytes := p.spaceSettingsPayload, id := p.spaceSettingsPayloadId } }

/-- What a peer answers to `SpacePull`: an error, or a response with or without a payload. -/
inductive Answer
  | error
  | response (payload : Option SpacePayload) (aclRecords : List RawRecordWithId)
deriving DecidableEq, Repr

/-- `SpaceStorage`: the id, and the ids of the records in the storage of its ACL. -/
structure SpaceStorage where
  id : GoString
  aclId : GoString
  aclRecords : List GoString
deriving DecidableEq, Repr

/-- The errors of a pull. -/
inductive PullError
  /-- The error of the peer. -/
  | rpc
  | payload (e : PayloadError)
  /-- `ErrSpaceStorageExists`. -/
  | storageExists
  | storageFailed
  | acl (e : AclError)
  /-- The network id of the configuration is not a key. -/
  | invalidNetworkId
  /-- `ErrSpaceMissing`. -/
  | spaceMissing
  /-- `ErrUnableToConnect`. -/
  | unableToConnect
deriving DecidableEq, Repr

/-- How a pull ends. -/
inductive PullResult
  | ok (st : SpaceStorage)
  | failed (e : PullError)
  | panic
deriving DecidableEq, Repr

/-- What the service uses besides the answers. -/
structure Env where
  C : Crypto
  D : Codec
  /-- The key of the account. -/
  key : PrivKey
  shouldValidate : Bool
  verifyAcceptor : RawRecord → Bool
  ord : RangeOrder
  /-- `DecodeNetworkId` succeeds. -/
  networkIdOk : Bool
  /-- `IsResponsible`. -/
  isResponsible : GoString → Bool
  /-- A storage that does not exist can be created in the n-th attempt. -/
  creates : ℕ → Bool
  /-- The storage of the ACL takes the record in the n-th attempt. -/
  stores : ℕ → GoString → Bool

/-! ## Attempts -/

section Attempt

variable (E : Env)

/-- `AddRawRecords`, with the list as far as it got. -/
def addRawRecords (n : ℕ) (l : AclList) : List RawRecordWithId → AclList × Option AclError
  | [] => (l, none)
  | rec :: recs =>
    -- `ErrRecordAlreadyExists`, which is passed over, is the error for these ids only
    if l.hasHead rec.id then addRawRecords n l recs
    else
      match l.addRawRecord E.C E.D.toCodec E.verifyAcceptor (E.stores n rec.id) rec E.ord with
      | .ok l' => addRawRecords n l' recs
      | .error e => (l, some e)

/-- `BuildAclListWithIdentity` on a storage that holds only the root. -/
def buildAclList (aclWithId : BytesWithId) : Except AclError AclList := do
  let rawRec ← Acl.Codec.decoded (E.D.unmarshalRawRecord aclWithId.data)
  let aclRoot ← Acl.Codec.decoded (E.D.unmarshalAclRoot rawRec.payload)
  let pubKey ← E.C.pubKeyFromProto aclRoot.identity
  E.D.verifyRaw E.C pubKey rawRec { payload := aclWithId.data, id := aclWithId.id }
  AclList.build E.C E.shouldValidate
    { id := aclWithId.id, identity := pubKey, model := aclRoot.content } E.key

/-- The part of `spacePullWithPeer` after the storage was created: the ids in the storage of the
ACL, and the error. -/
def acceptRecords (n : ℕ) (aclWithId : BytesWithId) (aclRecords : List RawRecordWithId) :
    List GoString × Option PullError :=
  if aclRecords = [] then ([aclWithId.id], none)
  else if !E.networkIdOk then ([aclWithId.id], some .invalidNetworkId)
  else
    match buildAclList E aclWithId with
    | .error e => ([aclWithId.id], some (.acl e))
    | .ok l =>
      let (l, e) := addRawRecords E n l aclRecords
      (l.records, e.map .acl)

/-- `createSpaceStorage`, with the new storage. -/
def createSpaceStorage (n : ℕ) (stored : GoMap GoString SpaceStorage)
    (payload : SpaceStorageCreatePayload) : Except PullError SpaceStorage := do
  match validateSpaceStorageCreatePayload E.C E.D payload, payload.spaceHeaderWithId with
  | .ok (), some header =>
    failIf (!E.creates n) PullError.storageFailed
    failIf (stored.lookup header.id).isSome .storageExists
    pure { id := header.id, aclId := payload.aclWithId.id, aclRecords := [payload.aclWithId.id] }
  | .error e, _ => .error (.payload e)
  -- a payload without a header is not valid
  | .ok (), none => .error (.payload .incorrectSpaceHeader)

/-- `spacePullWithPeer`, with the stored spaces afterwards. -/
def spacePullWithPeer (n : ℕ) (stored : GoMap GoString SpaceStorage) :
    Answer → GoMap GoString SpaceStorage × PullResult
  | .error => (stored, .failed .rpc)
  | .response none _ => (stored, .panic)
  | .response (some p) aclRecords =>
    match createSpaceStorage E n stored p.createPayload with
    | .error e => (stored, .failed e)
    | .ok st =>
      let (records, e) := acceptRecords E n p.createPayload.aclWithId aclRecords
      let st := { st with aclRecords := records }
      (stored.insert st.id st,
        match e with
        | none => .ok st
        | some (.acl .panicked) => .panic
        | some e => .failed e)

/-- The loop of `getSpaceStorageFromRemote`, from the n-th peer on. -/
def pullLoop (n : ℕ) (stored : GoMap GoString SpaceStorage) :
    List Answer → GoMap GoString SpaceStorage × PullResult
  | [] => (stored, .failed .unableToConnect)
  | answer :: answers =>
    match spacePullWithPeer E n stored answer with
    | (stored', .failed e) =>
      if answers = [] then (stored', .failed e) else pullLoop (n + 1) stored' answers
    | out => out

/-- `getSpaceStorageFromRemote` for the id, with the answers of the listed peers. -/
def getSpaceStorageFromRemote (id : GoString) (stored : GoMap GoString SpaceStorage)
    (answers : List Answer) : GoMap GoString SpaceStorage × PullResult :=
  if E.isResponsible id then (stored, .failed .spaceMissing) else pullLoop E 0 stored answers

end Attempt

/-! ## What an answer does -/

section Answers

variable (E : Env)
variable {aclWithId : BytesWithId} {l l' : AclList} {recs : List RawRecordWithId}

/-- The response has no payload. -/
def Answer.missing : Answer → Bool
  | .response none _ => true
  | _ => false

/-- The records of a response. -/
def Answer.aclRecords : Answer → List RawRecordWithId
  | .error => []
  | .response _ aclRecords => aclRecords

/-- The space that is created from the answer in the n-th attempt, unless it is stored. -/
def Answer.opens (n : ℕ) : Answer → Option GoString
  | .response (some p) _ =>
    if validateSpaceStorageCreatePayload E.C E.D p.createPayload = .ok () ∧ E.creates n then
      p.spaceHeader.map (·.id)
    else none
  | _ => none

/-- The error of the ACL records of the answer. -/
def Answer.aclError (n : ℕ) : Answer → Option PullError
  | .response (some p) aclRecords =>
    (acceptRecords E n p.createPayload.aclWithId aclRecords).2
  | _ => none

/-- The space is neither stored nor created from one of the answers. -/
def Fresh (stored : GoMap GoString SpaceStorage) (before : List Answer) (X : GoString) : Prop :=
  stored.lookup X = none ∧
    ∀ pre a post, before = pre ++ a :: post → a.opens E pre.length ≠ some X

/-- The answer, after those before, makes the pull panic. -/
def Panics (stored : GoMap GoString SpaceStorage) (before : List Answer) (a : Answer) : Prop :=
  a.missing = true ∨ ∃ X, a.opens E before.length = some X ∧ Fresh E stored before X ∧
    a.aclError E before.length = some (.acl .panicked)

/-- The answer, after those before, is the one from which the storage of `X` is returned. -/
def Returns (stored : GoMap GoString SpaceStorage) (before : List Answer) (a : Answer)
    (X : GoString) : Prop :=
  a.opens E before.length = some X ∧ Fresh E stored before X ∧ a.aclError E before.length = none

/-- One of the answers is returned. -/
def SomeReturns (stored : GoMap GoString SpaceStorage) (answers : List Answer) : Prop :=
  ∃ pre a post X, answers = pre ++ a :: post ∧ Returns E stored pre a X

/-- The stored spaces after the answers, none of which ended the pull. -/
def Knows (stored₀ : GoMap GoString SpaceStorage) (before : List Answer)
    (stored : GoMap GoString SpaceStorage) : Prop :=
  ∀ X, stored.lookup X = none ↔ Fresh E stored₀ before X

variable {E} {n : ℕ} {stored stored₀ : GoMap GoString SpaceStorage} {a : Answer} {X : GoString}
  {before : List Answer}

theorem exists_header {p : SpaceStorageCreatePayload} {C : Crypto} {D : Codec}
    (h : validateSpaceStorageCreatePayload C D p = .ok ()) :
    ∃ header, p.spaceHeaderWithId = some header := by
  obtain ⟨need, hvalid, -⟩ := bind_eq_ok.mp h
  obtain ⟨identity, header, hheader, -, -⟩ := validateSpaceHeader_eq_ok hvalid
  obtain ⟨raw, hraw, -⟩ := bind_eq_ok.mp hheader
  exact ⟨raw, orFail_eq_ok.mp hraw⟩

variable (stored) in
theorem spacePullWithPeer_of_opens_none (hmissing : a.missing = false) (h : a.opens E n = none) :
    ∃ e, spacePullWithPeer E n stored a = (stored, .failed e) := by
  match a with
  | .error => exact ⟨_, rfl⟩
  | .response none _ => cases hmissing
  | .response (some p) recs =>
    rw [spacePullWithPeer, createSpaceStorage]
    cases hvalid : validateSpaceStorageCreatePayload E.C E.D p.createPayload with
    | error e => exact ⟨_, rfl⟩
    | ok u =>
      obtain ⟨header, hheader⟩ := exists_header hvalid
      have hheader' : p.spaceHeader = some header := hheader
      have hcreates : E.creates n = false := by
        by_contra hne
        rw [Answer.opens, if_pos ⟨hvalid, by simpa using hne⟩, hheader'] at h
        cases h
      simp only [hheader, hcreates]
      exact ⟨_, rfl⟩

variable (stored) in
/-- What an answer does that opens a space. -/
theorem spacePullWithPeer_of_opens (h : a.opens E n = some X) :
    ((stored.lookup X).isSome = true ∧
        ∃ e, spacePullWithPeer E n stored a = (stored, .failed e)) ∨
      stored.lookup X = none ∧ ∃ p records, a = .response (some p) a.aclRecords ∧
        acceptRecords E n p.createPayload.aclWithId a.aclRecords = (records, a.aclError E n) ∧
        let st : SpaceStorage := ⟨X, p.aclPayloadId, records⟩
        spacePullWithPeer E n stored a = (stored.insert X st,
          match a.aclError E n with
          | none => .ok st
          | some (.acl .panicked) => .panic
          | some e => .failed e) := by
  match a with
  | .response (some p) recs =>
    rw [Answer.opens] at h
    split at h
    · next hvalid =>
      obtain ⟨header, hheader, rfl⟩ := Option.map_eq_some_iff.mp h
      have hheader' : p.createPayload.spaceHeaderWithId = some header := hheader
      rw [spacePullWithPeer, createSpaceStorage]
      simp only [hvalid.1, hheader', hvalid.2, Bool.not_true, failIf, Bool.false_eq_true,
        if_false]
      cases hlookup : stored.lookup header.id with
      | some st => exact .inl ⟨rfl, _, rfl⟩
      | none => exact .inr ⟨rfl, p, _, rfl, rfl, rfl⟩
    · cases h

theorem fresh_append_singleton :
    Fresh E stored (before ++ [a]) X ↔
      Fresh E stored before X ∧ a.opens E before.length ≠ some X := by
  constructor
  · rintro ⟨hstored, hall⟩
    refine ⟨⟨hstored, fun pre b post heq => ?_⟩, hall before a [] rfl⟩
    exact hall pre b (post ++ [a]) (by rw [heq, List.append_assoc, List.cons_append])
  · rintro ⟨⟨hstored, hall⟩, ha⟩
    refine ⟨hstored, fun pre b post heq => ?_⟩
    rcases List.eq_nil_or_concat post with rfl | ⟨post', c, rfl⟩
    · obtain ⟨rfl, hb⟩ := List.append_inj' heq rfl
      obtain rfl := List.head_eq_of_cons_eq hb
      exact ha
    · rw [List.concat_eq_append, ← List.cons_append, ← List.append_assoc] at heq
      exact hall pre b post' (List.append_inj' heq rfl).1

/-- One attempt, on the spaces that the answers before have left. -/
theorem spacePullWithPeer_cases (hknows : Knows E stored₀ before stored) (a : Answer) :
    (Panics E stored₀ before a ∧ (spacePullWithPeer E before.length stored a).2 = .panic) ∨
      (∃ X p records, Returns E stored₀ before a X ∧ a = .response (some p) a.aclRecords ∧
        acceptRecords E before.length p.createPayload.aclWithId a.aclRecords = (records, none) ∧
        (spacePullWithPeer E before.length stored a).2 = .ok ⟨X, p.aclPayloadId, records⟩) ∨
      (¬ Panics E stored₀ before a ∧ (∀ X, ¬ Returns E stored₀ before a X) ∧
        ∃ stored' e, spacePullWithPeer E before.length stored a = (stored', .failed e) ∧
          Knows E stored₀ (before ++ [a]) stored') := by
  by_cases hmissing : a.missing = true
  · refine .inl ⟨.inl hmissing, ?_⟩
    match a with
    | .response none _ => rfl
  have hmissing : a.missing = false := by simpa using hmissing
  cases hopens : a.opens E before.length with
  | none =>
    obtain ⟨e, he⟩ := spacePullWithPeer_of_opens_none stored hmissing hopens
    refine .inr (.inr ⟨?_, fun X hX => ?_, stored, e, he, fun X => ?_⟩)
    · rintro (hm | ⟨X, hX, -⟩)
      · exact absurd (hmissing.symm.trans hm) Bool.false_ne_true
      · exact absurd (hopens.symm.trans hX) (by simp)
    · exact absurd (hopens.symm.trans hX.1) (by simp)
    · rw [hknows X, fresh_append_singleton, hopens]
      simp
  | some X =>
    have hX : ∀ {Y}, a.opens E before.length = some Y → Y = X := fun hY =>
      (Option.some.inj (hopens.symm.trans hY)).symm
    rcases spacePullWithPeer_of_opens stored hopens with
      ⟨hstored, e, he⟩ | ⟨hnone, p, records, ha, hrecords, hout⟩
    · -- the space is stored already
      have hnot : ¬ Fresh E stored₀ before X := by
        rw [← hknows X]
        intro hnone
        rw [hnone] at hstored
        cases hstored
      refine .inr (.inr ⟨?_, fun Y hY => ?_, stored, e, he, fun Y => ?_⟩)
      · rintro (hm | ⟨Y, hY, hfresh, -⟩)
        · exact absurd (hmissing.symm.trans hm) Bool.false_ne_true
        · exact hnot (hX hY ▸ hfresh)
      · exact hnot (hX hY.1 ▸ hY.2.1)
      · rw [hknows Y, fresh_append_singleton, hopens]
        refine ⟨fun hfresh => ⟨hfresh, fun heq => ?_⟩, And.left⟩
        exact hnot (Option.some.inj heq ▸ hfresh)
    · have hfresh := (hknows X).mp hnone
      have hinsert : Knows E stored₀ (before ++ [a])
          (stored.insert X ⟨X, p.aclPayloadId, records⟩) := by
        intro Y
        rw [fresh_append_singleton, hopens, GoMap.lookup_insert_eq, ← hknows Y]
        by_cases hY : Y = X
        · simp [hY]
        · simp [hY, Ne.symm hY]
      cases herror : a.aclError E before.length with
      | none =>
        rw [herror] at hrecords hout
        refine .inr (.inl ⟨X, p, records, ⟨hopens, hfresh, herror⟩, ha, hrecords, ?_⟩)
        rw [hout]
      | some e =>
        rw [herror] at hout
        by_cases hpanic : e = .acl .panicked
        · subst hpanic
          exact .inl ⟨.inr ⟨X, hopens, hfresh, herror⟩, by rw [hout]⟩
        · refine .inr (.inr ⟨?_, fun Y hY => ?_, _, e, ?_, hinsert⟩)
          · rintro (hm | ⟨Y, hY, -, hp⟩)
            · exact absurd (hmissing.symm.trans hm) Bool.false_ne_true
            · exact hpanic (Option.some.inj (herror.symm.trans hp))
          · exact absurd (herror.symm.trans hY.2.2) (by simp)
          · rw [hout]
            split
            · next heq => cases heq
            · next heq => exact absurd (Option.some.inj heq) hpanic
            · next heq => rw [Option.some.inj heq]

/-- The answer that ends the pull, if there is one, and how it ends. -/
theorem pullLoop_cases (answers : List Answer) (hknows : Knows E stored₀ before stored) :
    (∃ pre a post, answers = pre ++ a :: post ∧
        (∀ p b q, pre = p ++ b :: q → ¬ Panics E stored₀ (before ++ p) b ∧
          ∀ X, ¬ Returns E stored₀ (before ++ p) b X) ∧
        ((Panics E stored₀ (before ++ pre) a ∧
            (pullLoop E before.length stored answers).2 = .panic) ∨
          ∃ X p records, Returns E stored₀ (before ++ pre) a X ∧
            a = .response (some p) a.aclRecords ∧
            acceptRecords E (before ++ pre).length p.createPayload.aclWithId a.aclRecords =
              (records, none) ∧
            (pullLoop E before.length stored answers).2 = .ok ⟨X, p.aclPayloadId, records⟩)) ∨
      (∀ pre a post, answers = pre ++ a :: post → ¬ Panics E stored₀ (before ++ pre) a ∧
          ∀ X, ¬ Returns E stored₀ (before ++ pre) a X) ∧
        ∃ e, (pullLoop E before.length stored answers).2 = .failed e := by
  induction answers generalizing before stored with
  | nil =>
    refine .inr ⟨fun pre a post h => ?_, _, rfl⟩
    cases pre <;> cases h
  | cons a answers ih =>
    have hnil : ∀ p b q, ([] : List Answer) = p ++ b :: q → ¬ Panics E stored₀ (before ++ p) b ∧
        ∀ X, ¬ Returns E stored₀ (before ++ p) b X := by
      intro p b q h
      cases p <;> cases h
    rw [pullLoop]
    rcases spacePullWithPeer_cases hknows a with
      ⟨hpanics, hout⟩ | ⟨X, p, records, hreturns, ha, hrecords, hout⟩ |
      ⟨hpanics, hreturns, stored', e, hout, hknows'⟩
    · refine .inl ⟨[], a, answers, rfl, hnil, .inl ⟨by rwa [List.append_nil], ?_⟩⟩
      split
      · next heq => rw [heq] at hout; cases hout
      · exact hout
    · refine .inl ⟨[], a, answers, rfl, hnil, .inr ⟨X, p, records, by rwa [List.append_nil], ha,
        by rwa [List.append_nil], ?_⟩⟩
      split
      · next heq => rw [heq] at hout; cases hout
      · exact hout
    · -- the next attempt
      rw [hout]
      simp only
      have hstep : ∀ {pre : List Answer}, (∀ p b q, pre = p ++ b :: q →
          ¬ Panics E stored₀ (before ++ [a] ++ p) b ∧
            ∀ X, ¬ Returns E stored₀ (before ++ [a] ++ p) b X) →
          ∀ p b q, a :: pre = p ++ b :: q → ¬ Panics E stored₀ (before ++ p) b ∧
            ∀ X, ¬ Returns E stored₀ (before ++ p) b X := by
        intro pre hpre p b q heq
        cases p with
        | nil =>
          obtain ⟨rfl, -⟩ := List.cons.inj heq
          rw [List.append_nil]
          exact ⟨hpanics, hreturns⟩
        | cons c p =>
          obtain ⟨rfl, hrest⟩ := List.cons.inj heq
          rw [List.append_cons]
          exact hpre p b q hrest
      by_cases hlast : answers = []
      · subst hlast
        exact .inr ⟨hstep fun p b q h => (by cases p <;> cases h), e, rfl⟩
      rw [if_neg hlast]
      have hih := ih hknows'
      rw [List.length_append, List.length_singleton] at hih
      rcases hih with ⟨pre, b, post, rfl, hpre, hend⟩ | ⟨hall, hfail⟩
      · refine .inl ⟨a :: pre, b, post, rfl, hstep hpre, ?_⟩
        rw [List.append_cons]
        exact hend
      · exact .inr ⟨hstep hall, hfail⟩

/-! ## The records of the ACL -/

/-- Every record of the index is in the list. -/
def Indexed (l : AclList) : Prop := ∀ id, l.hasHead id = true → id ∈ l.records

theorem indexed_buildAclList (h : buildAclList E aclWithId = .ok l) : Indexed l := by
  obtain ⟨rawRec, -, h⟩ := bind_eq_ok.mp h
  obtain ⟨aclRoot, -, h⟩ := bind_eq_ok.mp h
  obtain ⟨pubKey, -, h⟩ := bind_eq_ok.mp h
  obtain ⟨_, -, h⟩ := bind_eq_ok.mp h
  obtain ⟨aclState, -, h⟩ := bind_eq_ok.mp h
  obtain rfl := Except.ok.inj h
  intro id hid
  rw [AclList.hasHead, GoMap.lookup_insert_eq] at hid
  split at hid
  · next heq => exact List.mem_singleton.mpr heq
  · cases hid

theorem addRawRecord_records {stored : Bool} {rec : RawRecordWithId}
    (h : l.addRawRecord E.C E.D.toCodec E.verifyAcceptor stored rec E.ord = .ok l') :
    l'.records = l.records ++ [rec.id] ∧ l'.indexes = l.indexes.insert rec.id l.records.length := by
  obtain ⟨_, -, h⟩ := bind_eq_ok.mp h
  obtain ⟨_, -, h⟩ := bind_eq_ok.mp h
  obtain ⟨record, hrecord, h⟩ := bind_eq_ok.mp h
  obtain ⟨l₁, happend, h⟩ := bind_eq_ok.mp h
  obtain ⟨_, -, h⟩ := bind_eq_ok.mp h
  obtain rfl := Except.ok.inj h
  have hid : record.id = rec.id := by
    obtain ⟨raw, -, hrecord⟩ := bind_eq_ok.mp hrecord
    obtain ⟨_, -, hrecord⟩ := bind_eq_ok.mp hrecord
    obtain ⟨aclRecord, -, hrecord⟩ := bind_eq_ok.mp hrecord
    obtain ⟨author, -, hrecord⟩ := bind_eq_ok.mp hrecord
    obtain ⟨aclData, -, hrecord⟩ := bind_eq_ok.mp hrecord
    obtain ⟨_, -, hrecord⟩ := bind_eq_ok.mp hrecord
    exact Except.ok.inj hrecord ▸ rfl
  obtain ⟨copyState, -, happend⟩ := bind_eq_ok.mp happend
  obtain rfl := Except.ok.inj happend
  rw [hid]
  exact ⟨rfl, rfl⟩

/-- `AddRawRecords` without an error leaves every record in the list. -/
theorem mem_records_of_addRawRecords (hindexed : Indexed l)
    (h : addRawRecords E n l recs = (l', none)) :
    (∀ id ∈ l.records, id ∈ l'.records) ∧ ∀ rec ∈ recs, rec.id ∈ l'.records := by
  induction recs generalizing l with
  | nil =>
    obtain rfl := (Prod.mk.inj h).1
    exact ⟨fun _ hid => hid, by simp⟩
  | cons rec recs ih =>
    rw [addRawRecords] at h
    split at h
    · next hhead =>
      obtain ⟨hmono, hrecs⟩ := ih hindexed h
      exact ⟨hmono, List.forall_mem_cons.mpr ⟨hmono _ (hindexed _ hhead), hrecs⟩⟩
    · split at h
      · next l₁ hadd =>
        obtain ⟨hrecords, hindexes⟩ := addRawRecord_records hadd
        have hindexed₁ : Indexed l₁ := by
          intro id hid
          rw [AclList.hasHead, hindexes, GoMap.lookup_insert_eq] at hid
          rw [hrecords, List.mem_append, List.mem_singleton]
          split at hid
          · next heq => exact .inr heq
          · exact .inl (hindexed id hid)
        obtain ⟨hmono, hrecs⟩ := ih hindexed₁ h
        refine ⟨fun id hid => hmono id (by simp [hrecords, hid]), ?_⟩
        exact List.forall_mem_cons.mpr ⟨hmono _ (by simp [hrecords]), hrecs⟩
      · cases (Prod.mk.inj h).2

theorem mem_of_acceptRecords {records : List GoString}
    (h : acceptRecords E n aclWithId recs = (records, none)) : ∀ rec ∈ recs, rec.id ∈ records := by
  rw [acceptRecords] at h
  split at h
  · next hnil => simp [hnil]
  · split at h
    · cases (Prod.mk.inj h).2
    · split at h
      · cases (Prod.mk.inj h).2
      · next l hbuild =>
        obtain ⟨hrecords, herror⟩ := Prod.mk.inj h
        have hadd : addRawRecords E n l recs = ((addRawRecords E n l recs).1, none) :=
          Prod.ext rfl (Option.map_eq_none_iff.mp herror)
        rw [← hrecords]
        exact (mem_records_of_addRawRecords (indexed_buildAclList hbuild) hadd).2

/-! ## The pull -/

variable (E)

/-- The local storage works. -/
def Env.Works : Prop :=
  E.networkIdOk = true ∧ (∀ n, E.creates n = true) ∧ ∀ n id, E.stores n id = true

/-- The answer is the space with the id, with valid ACL records. -/
def Honest (id : GoString) (a : Answer) : Prop :=
  ∃ p, a = .response (some p) a.aclRecords ∧
    validateSpaceStorageCreatePayload E.C E.D p.createPayload = .ok () ∧
    p.spaceHeader.map (·.id) = some id ∧ ∀ n, a.aclError E n = none

/-- What a pull should do: not panic, return the space of the first answer that gives one, with the
header, the ACL root and the records of that answer, and return one if an honest node answers. -/
structure PullCorrect (id : GoString) (stored : GoMap GoString SpaceStorage)
    (answers : List Answer) : Prop where
  noPanic : (getSpaceStorageFromRemote E id stored answers).2 ≠ .panic
  returned : ∀ st, (getSpaceStorageFromRemote E id stored answers).2 = .ok st →
    st.id = id ∧ ∃ before a after p, answers = before ++ a :: after ∧
      ¬ SomeReturns E stored before ∧ Returns E stored before a id ∧
      a = .response (some p) a.aclRecords ∧
      p.spaceHeader.map (·.id) = some st.id ∧ p.aclPayloadId = st.aclId ∧
      acceptRecords E before.length p.createPayload.aclWithId a.aclRecords
        = (st.aclRecords, none) ∧
      ∀ rec ∈ a.aclRecords, rec.id ∈ st.aclRecords
  honest : E.isResponsible id = false → E.Works → (∃ a ∈ answers, Honest E id a) →
    ∃ st, (getSpaceStorageFromRemote E id stored answers).2 = .ok st

/-- The answers that come first are harmless. -/
structure PullSafe (id : GoString) (stored : GoMap GoString SpaceStorage)
    (answers : List Answer) : Prop where
  panics : ∀ before a after, answers = before ++ a :: after → Panics E stored before a →
    SomeReturns E stored before
  other : ∀ before a after X, answers = before ++ a :: after → Returns E stored before a X →
    X ≠ id → SomeReturns E stored before
  honest : E.Works → ∀ before a after, answers = before ++ a :: after → Honest E id a →
    SomeReturns E stored before ∨ Fresh E stored before id

variable {E} {id : GoString} {answers : List Answer}

theorem knows_nil : Knows E stored [] stored := by
  intro X
  refine ⟨fun h => ⟨h, fun pre a post heq => ?_⟩, And.left⟩
  cases pre <;> cases heq

theorem Honest.opens (h : Honest E id a) (hworks : E.Works) : a.opens E n = some id := by
  obtain ⟨p, ha, hvalid, hid, -⟩ := h
  rw [ha, Answer.opens, if_pos ⟨hvalid, hworks.2.1 n⟩, hid]

/-- An earlier answer is among those before. -/
theorem SomeReturns.not_of_silent
    (h : ∀ p b q, before = p ++ b :: q → ¬ Panics E stored p b ∧ ∀ X, ¬ Returns E stored p b X) :
    ¬ SomeReturns E stored before := by
  rintro ⟨pre, b, post, X, heq, hreturns⟩
  exact (h pre b post heq).2 X hreturns

/-- Two positions in a list. -/
theorem append_cons_eq_append_cons {α : Type} {pre before post after : List α} {a b : α}
    (h : pre ++ b :: post = before ++ a :: after) :
    (pre = before ∧ b = a) ∨ (∃ q, before = pre ++ b :: q) ∨ ∃ q, pre = before ++ a :: q := by
  rcases List.append_eq_append_iff.mp h with ⟨c, hc, hrest⟩ | ⟨c, hc, hrest⟩
  · cases c with
    | nil => exact .inl ⟨by simpa using hc.symm, List.head_eq_of_cons_eq hrest⟩
    | cons x c =>
      obtain ⟨rfl, -⟩ := List.cons.inj hrest
      exact .inr (.inl ⟨c, hc⟩)
  · cases c with
    | nil => exact .inl ⟨by simpa using hc, (List.head_eq_of_cons_eq hrest).symm⟩
    | cons x c =>
      obtain ⟨rfl, -⟩ := List.cons.inj hrest
      exact .inr (.inr ⟨c, hc⟩)

theorem Returns.not_panics (h : Returns E stored before a X) : ¬ Panics E stored before a := by
  rintro (hmissing | ⟨Y, -, -, herror⟩)
  · match a with
    | .response none _ => cases h.1
  · exact absurd (h.2.2.symm.trans herror) (by simp)

section

variable (hresponsible : E.isResponsible id = false)

include hresponsible

theorem getSpaceStorageFromRemote_cases :
    (∃ pre a post, answers = pre ++ a :: post ∧
        (∀ p b q, pre = p ++ b :: q → ¬ Panics E stored p b ∧ ∀ X, ¬ Returns E stored p b X) ∧
        ((Panics E stored pre a ∧ (getSpaceStorageFromRemote E id stored answers).2 = .panic) ∨
          ∃ X p records, Returns E stored pre a X ∧ a = .response (some p) a.aclRecords ∧
            acceptRecords E pre.length p.createPayload.aclWithId a.aclRecords = (records, none) ∧
            (getSpaceStorageFromRemote E id stored answers).2 =
              .ok ⟨X, p.aclPayloadId, records⟩)) ∨
      (∀ pre a post, answers = pre ++ a :: post → ¬ Panics E stored pre a ∧
          ∀ X, ¬ Returns E stored pre a X) ∧
        ∃ e, (getSpaceStorageFromRemote E id stored answers).2 = .failed e := by
  rw [getSpaceStorageFromRemote, if_neg (by simp [hresponsible])]
  have hknows : Knows E stored [] stored := knows_nil
  have hcases := pullLoop_cases answers hknows
  simp only [List.nil_append, List.length_nil] at hcases
  exact hcases

/-- If the pull is correct, then it returns an answer that is not after one that would end it. -/
theorem PullCorrect.returns_of_stops (h : PullCorrect E id stored answers) {after : List Answer}
    (heq : answers = before ++ a :: after)
    (hstop : Panics E stored before a ∨ (∃ X, Returns E stored before a X) ∨
      ∃ st, (getSpaceStorageFromRemote E id stored answers).2 = .ok st) :
    SomeReturns E stored before ∨ Returns E stored before a id ∨
      ∃ pre b q, pre = before ++ a :: q ∧ Returns E stored pre b id ∧
        ¬ Panics E stored before a ∧ ∀ X, ¬ Returns E stored before a X := by
  rcases getSpaceStorageFromRemote_cases hresponsible with
    ⟨pre, b, post, heq', hsilent, ⟨-, hpanic⟩ | ⟨X, p, records, hreturns, -, -, hok⟩⟩ |
    ⟨hall, e, hfail⟩
  · exact absurd hpanic h.noPanic
  · obtain rfl : X = id := (h.returned _ hok).1
    rcases append_cons_eq_append_cons (heq'.symm.trans heq) with ⟨rfl, rfl⟩ | ⟨q, rfl⟩ | ⟨q, rfl⟩
    · exact .inr (.inl hreturns)
    · exact .inl ⟨pre, b, q, X, rfl, hreturns⟩
    · obtain ⟨hnp, hnr⟩ := hsilent before a q rfl
      exact .inr (.inr ⟨_, b, q, rfl, hreturns, hnp, hnr⟩)
  · obtain ⟨hnp, hnr⟩ := hall before a after heq
    rcases hstop with hstop | ⟨Y, hstop⟩ | ⟨st, hst⟩
    · exact absurd hstop hnp
    · exact absurd hstop (hnr Y)
    · rw [hfail] at hst
      cases hst

theorem PullCorrect.safe (h : PullCorrect E id stored answers) : PullSafe E id stored answers := by
  refine ⟨fun before a after heq hpanics => ?_, fun before a after X heq hX hne => ?_,
    fun hworks before a after heq hhonest => ?_⟩
  · rcases h.returns_of_stops hresponsible heq (.inl hpanics) with
      hearlier | hreturns | ⟨_, _, _, -, -, hnot, -⟩
    · exact hearlier
    · exact absurd hpanics hreturns.not_panics
    · exact absurd hpanics hnot
  · rcases h.returns_of_stops hresponsible heq (.inr (.inl ⟨X, hX⟩)) with
      hearlier | hreturns | ⟨_, _, _, -, -, -, hnot⟩
    · exact hearlier
    · exact absurd (Option.some.inj (hX.1.symm.trans hreturns.1)) hne
    · exact absurd hX (hnot X)
  · have hst := h.honest hresponsible hworks ⟨a, by simp [heq], hhonest⟩
    rcases h.returns_of_stops hresponsible heq (.inr (.inr hst)) with
      hearlier | hreturns | ⟨pre, b, q, hpre, hreturns, -⟩
    · exact .inl hearlier
    · exact .inr hreturns.2.1
    · -- the honest answer has created the space before
      exact absurd (hhonest.opens hworks) (hreturns.2.1.2 before a q hpre)

theorem PullSafe.correct (h : PullSafe E id stored answers) : PullCorrect E id stored answers := by
  rcases getSpaceStorageFromRemote_cases hresponsible with
    ⟨pre, a, post, heq, hsilent, ⟨hpanics, -⟩ | ⟨X, p, records, hreturns, ha, hrecords, hok⟩⟩ |
    ⟨hall, e, hfail⟩
  · -- an answer that panics comes after one that returns
    exact absurd (h.panics pre a post heq hpanics) (SomeReturns.not_of_silent hsilent)
  · -- so does an answer with another space
    have hid : X = id := by
      by_contra hne
      exact SomeReturns.not_of_silent hsilent (h.other pre a post X heq hreturns hne)
    refine ⟨?_, fun st hst => ?_, fun _ _ _ => ⟨_, hok⟩⟩
    · rw [hok]
      exact PullResult.noConfusion
    · obtain rfl := PullResult.ok.inj (hok.symm.trans hst)
      refine ⟨hid, pre, a, post, p, heq, SomeReturns.not_of_silent hsilent, hid ▸ hreturns, ha, ?_,
        rfl, hrecords, mem_of_acceptRecords hrecords⟩
      have hopens := hreturns.1
      rw [ha, Answer.opens] at hopens
      split at hopens
      · exact hopens
      · cases hopens
  · refine ⟨?_, fun st hst => ?_, fun _ hworks hex => ?_⟩
    · rw [hfail]
      exact PullResult.noConfusion
    · rw [hfail] at hst
      cases hst
    · obtain ⟨a, hmem, hhonest⟩ := hex
      obtain ⟨before, after, heq⟩ := List.append_of_mem hmem
      have hsilent : ∀ p b q, before = p ++ b :: q → ¬ Panics E stored p b ∧
          ∀ X, ¬ Returns E stored p b X := by
        intro p b q hbefore
        exact hall p b (q ++ a :: after)
          (by rw [heq, hbefore, List.append_assoc, List.cons_append])
      -- nothing was returned, so the honest answer finds its space free
      rcases h.honest hworks before a after heq hhonest with hearlier | hfresh
      · exact absurd hearlier (SomeReturns.not_of_silent hsilent)
      · have herror : a.aclError E before.length = none := by
          obtain ⟨p, -, -, -, herror⟩ := hhonest
          exact herror _
        exact absurd ⟨hhonest.opens hworks, hfresh, herror⟩ ((hall before a after heq).2 id)

end

/-- The pull does what it should iff the answers that come first are harmless. The answer is not
compared with the id that was asked for, and a storage that was created from an answer whose ACL
records are bad stays. -/
theorem pullCorrect_iff (E : Env) (id : GoString) (stored : GoMap GoString SpaceStorage)
    (answers : List Answer) :
    PullCorrect E id stored answers ↔ E.isResponsible id = true ∨ PullSafe E id stored answers := by
  by_cases hresponsible : E.isResponsible id = true
  · have hout : getSpaceStorageFromRemote E id stored answers = (stored, .failed .spaceMissing) :=
      if_pos hresponsible
    refine iff_of_true ⟨?_, fun st hst => ?_, fun h => ?_⟩ (.inl hresponsible)
    · rw [hout]
      exact PullResult.noConfusion
    · rw [hout] at hst
      cases hst
    · exact absurd (h.symm.trans hresponsible) Bool.false_ne_true
  · rw [or_iff_right hresponsible]
    rw [Bool.not_eq_true] at hresponsible
    exact ⟨PullCorrect.safe hresponsible, PullSafe.correct hresponsible⟩

end Answers

namespace Sample

/-- A service whose storage works. -/
def env : Env where
  C := C
  D := codec
  key := ⟨[]⟩
  shouldValidate := true
  verifyAcceptor _ := true
  ord := .listed
  networkIdOk := true
  isResponsible _ := false
  creates _ := true
  stores _ _ := true

/-- An answer with a header and roots. -/
def answer (header : RawSpaceHeaderWithId) (r : Roots) (aclRecords : List RawRecordWithId) :
    Answer :=
  .response (some
    { spaceHeader := some header
      aclPayload := r.aclWithId.bytes
      aclPayloadId := r.aclId
      spaceSettingsPayload := r.settingsWithId.bytes
      spaceSettingsPayloadId := r.settingsId }) aclRecords

/-- The space of version 1, whose ACL has only its root. -/
def honest : Answer := answer header1WithId roots1 []

/-- The pull of the space of version 1. -/
def pull (answers : List Answer) : PullResult :=
  (getSpaceStorageFromRemote env header1WithId.id ∅ answers).2

end Sample

open Sample

/-- An honest answer after one without a payload, one with another space, and one with a record
that is none. -/
theorem pull_brokenByFirstAnswer :
    Honest env header1WithId.id honest ∧ env.Works ∧
      pull [honest] =
        .ok ⟨header1WithId.id, roots1.aclId, [roots1.aclId]⟩ ∧
      pull [.response none [], honest] = .panic ∧
      pull [answer header0WithId roots0 [], honest] =
        .ok ⟨header0WithId.id, roots0.aclId, [roots0.aclId]⟩ ∧
      header0WithId.id ≠ header1WithId.id ∧
      pull [answer header1WithId roots1 [⟨[0], [1]⟩], honest] =
        .failed .storageExists := by
  refine ⟨⟨_, rfl, by decide +kernel, rfl, fun _ => rfl⟩, ⟨rfl, fun _ => rfl, fun _ _ => rfl⟩,
    by decide +kernel, by decide +kernel, by decide +kernel, by decide +kernel, by decide +kernel⟩

end Space
