import AnySync.Acl.Raw

/-!
# Member limits

`AddRecord` of the ACL service (`acl/acl.go`) checks a record against the limits of the space before
it passes it to the consensus: the record is validated on a copy of the state, and the members of
the state before and after it are counted.

The main result is `limits_of_addRecord`.
-/

namespace Acl

/-- `Limits`. -/
structure Limits where
  /-- The accounts with any permissions. -/
  readMembers : UInt32
  /-- The accounts that can write. -/
  writeMembers : UInt32
deriving DecidableEq, Repr

/-- The errors of the ACL service. -/
inductive ServiceError
  | limitExceed
  | ownerNotFound
  | acl (err : AclError)
deriving DecidableEq, Repr

namespace AclState

/-- The number of accounts with any permissions. -/
def readers (st : AclState) : ℕ := st.currentAccounts.countP (!·.permissions.noPermissions)

/-- The number of accounts that can write. -/
def writers (st : AclState) : ℕ := st.currentAccounts.countP (·.permissions.canWrite)

/-- `OwnerPubKey`: the key of the first owner that the loop over the accounts finds. -/
def ownerPubKey (st : AclState) (ord : RangeOrder) : Except ServiceError (Option PubKey) :=
  match (ord.shuffle 0 0 st.currentAccounts).find? (·.permissions.isOwner) with
  | none => .error .ownerNotFound
  | some aState => .ok aState.pubKey

/-- `newOwner.Equals(currentOwner)`, which panics on a missing key. -/
def sameOwner (newOwner currentOwner : Option PubKey) : Except ServiceError Bool :=
  match newOwner with
  | none => .error (.acl .panicked)
  | some key => .ok (currentOwner = some key)

/-- The function that `AddRecord` hands to `ValidateRawRecord`: `state` is the state with the
record. -/
def checkLimits (before state : AclState) (limits : Limits) (currentOwner : Option PubKey)
    (ord : RangeOrder) : Except ServiceError Unit := do
  let newOwner ← state.ownerPubKey ord
  let same ← sameOwner newOwner currentOwner
  if !same then
    -- if the owner is changing, the limits are not checked
    pure ()
  else do
    failIf (before.readers < state.readers && limits.readMembers < UInt32.ofNat state.readers)
      ServiceError.limitExceed
    failIf (before.writers < state.writers && limits.writeMembers < UInt32.ofNat state.writers)
      ServiceError.limitExceed

end AclState

/-- No number of members is above both the number before and the limit, unless it does not fit in 32
bits. -/
structure AclState.Within (before : AclState) (limits : Limits) (after : AclState) : Prop where
  readers : after.readers ≤ max before.readers limits.readMembers.toNat ∨ 2 ^ 32 ≤ after.readers
  writers : after.writers ≤ max before.writers limits.writeMembers.toNat ∨ 2 ^ 32 ≤ after.writers

/-- The result of the ACL package as a result of the service. -/
def fromAcl {α : Type} : Except AclError α → Except ServiceError α
  | .ok a => .ok a
  | .error err => .error (.acl err)

/-- `AddRecord` on the list of the space: the record that is passed to the consensus. The orders are
those of the loops over the accounts before and after the record, and of the validation. -/
def addRecord (C : Crypto) (D : Codec) (l : AclList) (limits : Limits) (rec : RawRecord)
    (ord ordBefore ordAfter : RangeOrder) : Except ServiceError RawRecord := do
  failIf (limits.readMembers ≤ 1 && limits.writeMembers ≤ 1) ServiceError.limitExceed
  let currentOwner ← l.aclState.ownerPubKey ordBefore
  let state ← fromAcl (l.validateRawRecord C D rec ord)
  l.aclState.checkLimits state limits currentOwner ordAfter
  pure rec

section Check

variable {C : Crypto} {D : Codec} {l : AclList} {limits : Limits} {rec passed : RawRecord}
  {ord ordBefore ordAfter : RangeOrder}

/-- A count that passes the comparison is within the limit, unless it does not fit in 32 bits. -/
theorem le_max_of_check {before after : ℕ} {limit : UInt32}
    (h : (before < after && limit < UInt32.ofNat after) = false) :
    after ≤ max before limit.toNat ∨ 2 ^ 32 ≤ after := by
  rcases Nat.lt_or_ge after (2 ^ 32) with hsmall | hlarge
  · left
    have hnot : ¬ (before < after ∧ limit.toNat < after) := by
      rintro ⟨hgrown, hlimit⟩
      have hlt : limit < UInt32.ofNat after := by
        rw [UInt32.lt_iff_toNat_lt, UInt32.toNat_ofNat_of_lt' hsmall]
        exact hlimit
      simp [hgrown, hlt] at h
    omega
  · exact .inr hlarge

theorem AclState.Within.congr {before after after' : AclState} (h : before.Within limits after)
    (hreaders : after'.readers = after.readers) (hwriters : after'.writers = after.writers) :
    before.Within limits after' := by
  refine ⟨?_, ?_⟩
  · rw [hreaders]
    exact h.readers
  · rw [hwriters]
    exact h.writers

theorem fromAcl_eq_ok {α : Type} {x : Except AclError α} {a : α} :
    fromAcl x = .ok a ↔ x = .ok a := by
  cases x <;> simp [fromAcl]

/-- If the owner is the same before and after a record that `AddRecord` passes, then the state after
it was compared with the limits. -/
theorem within_of_addRecord (h : addRecord C D l limits rec ord ordBefore ordAfter = .ok passed) :
    passed = rec ∧ ∃ st, l.validateRawRecord C D rec ord = .ok st ∧
      (st.ownerPubKey ordAfter = l.aclState.ownerPubKey ordBefore →
        l.aclState.Within limits st) := by
  simp only [addRecord, Except.bind_eq_ok, fromAcl_eq_ok] at h
  obtain ⟨_, -, currentOwner, howner, st, hvalid, _, hcheck, hpassed⟩ := h
  refine ⟨(Except.ok.inj hpassed).symm, st, hvalid, fun hsame => ?_⟩
  simp only [AclState.checkLimits, hsame, howner, Except.ok_bind, Except.bind_eq_ok] at hcheck
  obtain ⟨same, hequals, hcheck⟩ := hcheck
  -- the keys are equal, so the counts were compared
  have htrue : same = true := by
    unfold AclState.sameOwner at hequals
    split at hequals
    · cases hequals
    · exact (Except.ok.inj hequals).symm.trans (by simp)
  simp only [htrue, Bool.not_true, Bool.false_eq_true, if_false, Except.bind_eq_ok,
    failIf_eq_ok] at hcheck
  obtain ⟨_, hreaders, hwriters⟩ := hcheck
  exact ⟨le_max_of_check hreaders, le_max_of_check hwriters⟩

end Check

/-! ## Replicas -/

section Replay

variable {C : Crypto} {l : AclList} {e : LogEntry} {st : AclState}

theorem AclState.currentAccounts_view (V : View) (st : AclState) :
    (st.view V).currentAccounts = st.currentAccounts.map (·.view V) := by
  simp [AclState.currentAccounts, AclState.view, GoMap.mapKV, Function.comp_def]

@[simp]
theorem AclState.readers_view (V : View) (st : AclState) : (st.view V).readers = st.readers := by
  rw [AclState.readers, AclState.currentAccounts_view, List.countP_map]
  rfl

@[simp]
theorem AclState.writers_view (V : View) (st : AclState) : (st.view V).writers = st.writers := by
  rw [AclState.writers, AclState.currentAccounts_view, List.countP_map]
  rfl

/-- Neither the ids of records nor the read keys of invites are counted. -/
theorem AclState.members_of_view {V : View} {m m' : AclState} (h : m.view V = m'.view V) :
    m.readers = m'.readers ∧ m.writers = m'.writers := by
  constructor
  · rw [← readers_view V m, h, readers_view]
  · rw [← writers_view V m, h, writers_view]

/-- A list that adds an admitted record under the id of the network has as many members as the state
that admission looked at. -/
theorem AclList.members_of_append (hwf : l.WF C) (hfresh : e.Fresh l)
    (hnew : l.hasHead e.record.id = false) (hne : e.record.id ≠ [])
    (hvalid : l.validateRecord C e.provisional e.admissionOrder = .ok st) :
    ∃ l', l.append C (l.keepOurs C e.record) e.replayOrder = .ok l' ∧
      l'.aclState.readers = st.readers ∧ l'.aclState.writers = st.writers := by
  obtain ⟨hne', m₀, m, -, rfl, -, hview, -, happend⟩ :=
    AclList.append_of_validateRecord hwf hfresh hnew hne hvalid
  obtain ⟨hreaders, hwriters⟩ := AclState.members_of_view hview
  let V : View := .renameRecord e.provisionalId e.record.id hne' hne
  exact ⟨_, happend, (AclState.readers_view V m).trans hreaders,
    (AclState.writers_view V m).trans hwriters⟩

/-- A record that `AddRecord` passes to the consensus passed validation, and if the owner is the
same before and after it, then the number of accounts with any permissions and the number of
accounts that can write are at most the larger of the number before and the limit, as long as they
fit in 32 bits. This holds of the state that the check looks at, and of the list itself once it adds
the record under the id that the network assigned. -/
theorem limits_of_addRecord {D : Codec} {limits : Limits} {rec passed : RawRecord}
    {ord ordBefore ordAfter : RangeOrder}
    (h : addRecord C D l limits rec ord ordBefore ordAfter = .ok passed) :
    passed = rec ∧ ∃ st, l.validateRawRecord C D rec ord = .ok st ∧
      (st.ownerPubKey ordAfter = l.aclState.ownerPubKey ordBefore → l.aclState.Within limits st ∧
        ∀ record verifyAcceptor rawWithId replayOrder, l.WF C → D.unmarshall C rec = .ok record →
          l.hasHead record.id = false →
          (∀ ch ∈ record.model.aclContent, record.id ∉ ch.recordIds) →
          rec.Assigned D verifyAcceptor l rawWithId →
          ∃ l', l.addRawRecord C D verifyAcceptor true rawWithId replayOrder = .ok l' ∧
            l.aclState.Within limits l'.aclState) := by
  obtain ⟨hpassed, st, hvalid, hwithin⟩ := within_of_addRecord h
  refine ⟨hpassed, st, hvalid, fun hsame => ⟨hwithin hsame, ?_⟩⟩
  intro record verifyAcceptor rawWithId replayOrder hwf hrecord hnew hmention hassigned
  let e : LogEntry := ⟨{ record with id := rawWithId.id }, record.id, ord, replayOrder⟩
  have hne : e.record.id ≠ [] := D.newCidFromBytes_ne_nil _ _ hassigned.cid
  have hvalid' : l.validateRecord C e.provisional e.admissionOrder = .ok st := by
    rw [AclList.validateRawRecord, hrecord, Except.ok_bind] at hvalid
    exact hvalid
  obtain ⟨hne', m₀, m, -, rfl, -, hview, -, happend⟩ :=
    AclList.append_of_validateRecord hwf ⟨hnew, hmention⟩ hassigned.new hne hvalid'
  refine ⟨_, hassigned.addRawRecord hrecord happend, ?_⟩
  -- the list has as many members as the state that was checked
  obtain ⟨hreaders, hwriters⟩ := AclState.members_of_view hview
  let V : View := .renameRecord e.provisionalId e.record.id hne' hne
  exact (hwithin hsame).congr ((AclState.readers_view V m).trans hreaders)
    ((AclState.writers_view V m).trans hwriters)

end Replay

/-! ## A record that changes the owner -/

namespace Sample

/-- The transfer of ownership to `alice` on the wire. -/
def transferData : Bytes := field 1 (field 15 (field 1 (proto alice) ++ [0x10, 2]))

/-- The record that adds `bob`, after the first record. -/
def addBob : Signed where
  prevId := recordId 1
  data := addReaderData bob
  model := ⟨[accountAdd bob .reader]⟩
  signature := bytesOfHalves 0xc7e07e82c23aba3658499c9aa60ad758134c42837f9bdae09b5353ba361dd122
    0x2d6d15362f666b760ac48a6eef971a81244fbfa42ca268d12aab2cecf9b29c0f
  hash := ascii "bafyreigvwlkpt2os3oshcbtqilkkpzmxtl3cfb5smpjzfm5iaqkrojfipq"
  id := ascii "bafyreicqamq7acghn5a75i6btfy2ytwji7h5bl6dtusflxgp63eueh6swm"

/-- The record that adds `bob` and makes `alice` the owner. -/
def transfer : Signed where
  prevId := recordId 1
  data := addReaderData bob ++ transferData
  model := ⟨[accountAdd bob .reader, ownershipChange alice .admin]⟩
  signature := bytesOfHalves 0xf88c055f0d7094aedf76154c03b0f3c6805696aa91b65a6260eefe22b706a8a8
    0x53bd283549f6cf0fb055458301222c0fe68e85ba0a1eba1d3cd019b37abb000f
  hash := ascii "bafyreifmcipybyi3x7xfjpulqg3hscg4elue6bpa73jr2nrhvxjvlbvn7e"
  id := ascii "bafyreicrbrmqbwau4vfr3aaijc3kb36qtdkxv7jcl56zluuweyoywbjxjq"

def limitsCodec : Codec := codec [addBob, transfer]

def limitsC : Crypto := signedC [addBob, transfer]

/-- The owner and a writer. -/
def twoMembersLog : List LogEntry := log [(owner, [accountAdd alice .writer])]

/-- `AddRecord` with limits for `n` readers and two writers. -/
def addWithLimit (n : UInt32) (l : AclList) (raw : RawRecord) : Except ServiceError RawRecord :=
  addRecord limitsC limitsCodec l ⟨n, 2⟩ raw .listed .listed .listed

/-- The record that adds `bob`, admitted under another id than it is added. -/
def addBobEntry : LogEntry :=
  { record := ⟨recordId 2, recordId 1, owner, ⟨[accountAdd bob .reader]⟩⟩
    provisionalId := [0x69], admissionOrder := .listed, replayOrder := .reversed }

end Sample

open Sample

open Sample in
/-- The list that adds `bob` has as many members. -/
theorem members_of_append_twoMembersLog :
    ∃ (l l' : AclList) (st : AclState),
      l.validateRecord limitsC addBobEntry.provisional .listed = .ok st ∧
      l.append limitsC (l.keepOurs limitsC addBobEntry.record) .reversed = .ok l' ∧
      l'.aclState.readers = st.readers := by
  have hrun : acceptedLogWith limitsC true root observerKey twoMembersLog (fun _ l =>
      decide (addBobEntry.Fresh l ∧ l.hasHead (recordId 2) = false) &&
        (l.validateRecord limitsC addBobEntry.provisional .listed).isOk) = true := by
    decide +kernel
  obtain ⟨l₀, l, h, htest⟩ := acceptedLog_of_acceptedLogWith hrun
  simp only [Bool.and_eq_true, decide_eq_true_eq] at htest
  obtain ⟨⟨hfresh, hnew⟩, hok⟩ := htest
  cases hvalid : l.validateRecord limitsC addBobEntry.provisional .listed with
  | error e => simp [hvalid, Except.isOk, Except.toBool] at hok
  | ok st =>
    obtain ⟨l', happend, hreaders, -⟩ :=
      AclList.members_of_append h.wf hfresh hnew (by decide) hvalid
    exact ⟨l, l', st, hvalid, happend, hreaders⟩

/-- A third member fits in a limit of three, and the list that adds it has three members. -/
theorem limits_twoMembersLog :
    ∃ l₀ l l', AcceptedLog limitsC true root observerKey twoMembersLog l₀ l ∧
      addWithLimit 3 l addBob.raw = .ok addBob.raw ∧
      l.addRawRecord limitsC limitsCodec (fun _ => true) true addBob.stored .reversed = .ok l' ∧
      (l'.aclState.readers ≤ 3 ∨ 2 ^ 32 ≤ l'.aclState.readers) := by
  have hrun : acceptedLogWith limitsC true root observerKey twoMembersLog (fun _ l =>
      decide (addWithLimit 3 l addBob.raw = .ok addBob.raw ∧ l.aclState.readers = 2 ∧
        l.hasHead addBob.hash = false ∧ l.hasHead addBob.id = false ∧
        addBob.id ∉ l.aclState.recordIds) &&
      (l.validateRawRecord limitsC limitsCodec addBob.raw .listed).toOption.all fun st =>
        decide (st.ownerPubKey .listed = l.aclState.ownerPubKey .listed)) = true := by
    decide +kernel
  obtain ⟨l₀, l, h, htest⟩ := acceptedLog_of_acceptedLogWith hrun
  simp only [Bool.and_eq_true, decide_eq_true_eq] at htest
  obtain ⟨⟨hpassed, htwo, hhash, hid, hunused⟩, howner⟩ := htest
  obtain ⟨-, st, hvalid, hlimits⟩ := limits_of_addRecord hpassed
  simp only [hvalid, Except.toOption, Option.all_some, decide_eq_true_eq] at howner
  obtain ⟨l', hadd, hwithin⟩ := (hlimits howner).2 addBob.record (fun _ => true) addBob.stored
    .reversed h.wf (by decide +kernel) hhash (by decide)
    ⟨⟨[], [], by decide +kernel, rfl⟩, by decide +kernel, hid, hunused⟩
  refine ⟨l₀, l, l', h, hpassed, hadd, ?_⟩
  have hreaders := hwithin.readers
  rw [htwo] at hreaders
  exact hreaders

/-- With a limit of two, the third member is refused, but not if the same record also changes the
owner. -/
theorem limit_exceeded_twoMembersLog :
    ∃ l₀ l st, AcceptedLog limitsC true root observerKey twoMembersLog
        l₀ l ∧ addWithLimit 2 l addBob.raw = .error .limitExceed ∧
      addWithLimit 2 l transfer.raw = .ok transfer.raw ∧
      l.validateRawRecord limitsC limitsCodec transfer.raw .listed = .ok st ∧
      l.aclState.readers = 2 ∧ st.readers = 3 := by
  have hrun : acceptedLogWith limitsC true root observerKey
      twoMembersLog
      (fun _ l => decide (addWithLimit 2 l addBob.raw = .error .limitExceed) &&
        decide (addWithLimit 2 l transfer.raw = .ok transfer.raw) &&
        (l.validateRawRecord limitsC limitsCodec transfer.raw
          .listed).toOption.any fun st =>
            decide (l.aclState.readers = 2 ∧ st.readers = 3)) = true := by
    decide +kernel
  obtain ⟨l₀, l, h, htest⟩ := acceptedLog_of_acceptedLogWith hrun
  simp only [Bool.and_eq_true, decide_eq_true_eq] at htest
  obtain ⟨⟨hrefused, hpassed⟩, hreaders⟩ := htest
  cases hvalid : l.validateRawRecord limitsC limitsCodec transfer.raw
    .listed with
  | error e =>
    rw [hvalid] at hreaders
    cases hreaders
  | ok st =>
    rw [hvalid] at hreaders
    exact ⟨l₀, l, st, h, hrefused, hpassed, hvalid, of_decide_eq_true hreaders⟩

end Acl
