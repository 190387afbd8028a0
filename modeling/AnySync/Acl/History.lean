import AnySync.Acl.Log

/-!
# Past permissions

`PermissionsAtRecord` answers from the recorded permission changes of an account, so the answer
for an old record is right as long as the history of the account is kept.

The main result is `AcceptedLog.pastPermissions_iff`.
-/

namespace Acl

open Sample
open AccountState
open AclState (history contents addedAccount permissionsOf ofRoot)

/-- The answer of `PermissionsAtRecord`, where an unknown account counts as one without
permissions. -/
def AclList.pastPermissions (l : AclList) (id : GoString) (pubKey : PubKey) :
    Option AclPermissions :=
  match l.permissionsAtRecord id pubKey with
  | .ok permissions => some permissions
  | .error .noSuchAccount => some .none
  | .error _ => none

/-- `closestPermissions` on a history. -/
def closestIn (changes : List PermissionChange) (isAfter : GoString → Bool) : AclPermissions :=
  match changes.reverse.find? (fun ch => isAfter ch.recordId) with
  | none => .none
  | some ch => ch.permission

/-- The permissions that a history ends with. -/
def lastIn (changes : List PermissionChange) : AclPermissions :=
  closestIn changes fun _ => true

section Closest

variable {changes new : List PermissionChange} {isAfter isAfter' : GoString → Bool}

/-- Changes that are too new do not count. -/
theorem closestIn_append_of_not (h : ∀ ch ∈ new, isAfter ch.recordId = false) :
    closestIn (changes ++ new) isAfter = closestIn changes isAfter := by
  have hnone : new.reverse.find? (fun ch => isAfter ch.recordId) = none := by
    rw [List.find?_eq_none]
    intro ch hch
    simp [h ch (List.mem_reverse.mp hch)]
  rw [closestIn, closestIn, List.reverse_append, List.find?_append, hnone, Option.none_or]

theorem closestIn_of_not (h : ∀ ch ∈ new, isAfter ch.recordId = false) :
    closestIn new isAfter = .none := by
  have happend : closestIn ([] ++ new) isAfter = closestIn [] isAfter := closestIn_append_of_not h
  rw [List.nil_append] at happend
  exact happend

theorem closestIn_congr (h : ∀ ch ∈ changes, isAfter' ch.recordId = isAfter ch.recordId) :
    closestIn changes isAfter' = closestIn changes isAfter := by
  have hfind : changes.reverse.find? (fun ch => isAfter' ch.recordId)
      = changes.reverse.find? (fun ch => isAfter ch.recordId) := by
    have hmem : ∀ ch ∈ changes.reverse, isAfter' ch.recordId = isAfter ch.recordId :=
      fun ch hch => h ch (List.mem_reverse.mp hch)
    generalize changes.reverse = reversed at hmem
    induction reversed with
    | nil => rfl
    | cons ch rest ih =>
      rw [List.find?_cons, List.find?_cons, hmem ch List.mem_cons_self,
        ih fun ch' hch' => hmem ch' (List.mem_cons_of_mem _ hch')]
  rw [closestIn, closestIn, hfind]

@[simp]
theorem lastIn_append_singleton (ch : PermissionChange) :
    lastIn (changes ++ [ch]) = ch.permission := by
  simp [lastIn, closestIn]

@[simp]
theorem lastIn_singleton (ch : PermissionChange) : lastIn [ch] = ch.permission := by
  simp [lastIn, closestIn]

end Closest

/-- With the record in the list, the answer is read off the history. -/
theorem AclList.pastPermissions_eq {l : AclList} {id : GoString} (h : l.hasHead id = true)
    (pubKey : PubKey) :
    l.pastPermissions id pubKey
      = some (closestIn (l.aclState.history (mapKeyFromPubKey pubKey)) (l.isAfterNoCheck id)) := by
  unfold pastPermissions permissionsAtRecord history
  rw [h]
  cases l.aclState.accountStates.lookup (mapKeyFromPubKey pubKey) <;> rfl

/-! ## The history of an account -/

/-- The content value adds the account under `k`. -/
def AclContentValue.adds (C : Crypto) (k : GoString) : AclContentValue → Bool
  | .accountsAdd ch => ch.additions.any fun acc =>
    (C.unmarshalPublicKey acc.identity).map mapKeyFromPubKey = some k
  | _ => false

/-- The entry adds the account under `k`. -/
def LogEntry.adds (C : Crypto) (k : GoString) (e : LogEntry) : Bool :=
  e.record.model.aclContent.any (·.adds C k)

/-- The permissions of an account are those its history ends with. -/
def AclState.HistoryWF (st : AclState) : Prop :=
  ∀ k, st.permissionsOf k = lastIn (st.history k)

section Change

variable {C : Crypto} {st st' : AclState} {record : AclRecord} {ch : AclContentValue}
  {k : GoString} {a' : Option AccountState} {r' : Option RequestType}

/-- Every change of permissions is recorded. -/
theorem AccountChange.permissionsIn_eq (h : AccountChange C st record k ch a' r')
    (hst : st.permissionsOf k = lastIn (st.history k)) :
    permissionsIn a' = lastIn (historyIn a') := by
  have hknown : ∀ {a}, st.accountStates.lookup k = some a →
      a.permissions = lastIn a.permissionChanges := by
    intro a ha
    rwa [permissionsOf, history, ha] at hst
  cases h with
  | same => exact hst
  | permission => simp [historyIn, withPermissions]
  | oldOwner => simp [historyIn, withPermissions]
  | newOwner => simp [historyIn, withPermissions]
  | added => simp [historyIn, addedAccount]
  | requested _ hnone _ => simpa [historyIn, hnone] using hst
  | accepted => simp [historyIn, AclState.joinedAccount_permissions]
  | inviteJoined => simp [historyIn, AclState.joinedAccount_permissions]
  | declined _ _ _ _ ha => simpa [historyIn] using hknown ha
  | canceled _ _ _ ha => simpa [historyIn] using hknown ha
  | removing _ ha => simpa [historyIn] using hknown ha
  | removed => simp [historyIn, AclState.removedAccount]

/-- Except for accounts that are added, a history only grows, by changes of this record. -/
theorem AccountChange.historyIn_eq (h : AccountChange C st record k ch a' r')
    (hadds : ch.adds C k = false) :
    ∃ new, historyIn a' = st.history k ++ new ∧ ∀ c ∈ new, c.recordId = record.id := by
  have hkeep : ∀ {a}, st.accountStates.lookup k = some a → st.history k = a.permissionChanges := by
    intro a ha
    rw [history, ha, historyIn]
  have hnone : ∃ new, st.history k = st.history k ++ new ∧ ∀ c ∈ new, c.recordId = record.id :=
    ⟨[], by simp, by simp⟩
  have hone : ∀ p, ∃ new, st.history k ++ [⟨record.id, p⟩] = st.history k ++ new ∧
      ∀ c ∈ new, c.recordId = record.id := fun p => ⟨[⟨record.id, p⟩], rfl, by simp⟩
  cases h with
  | same => exact hnone
  | permission _ _ _ ha => exact hkeep ha ▸ hone _
  | oldOwner _ ha => exact hkeep ha ▸ hone _
  | newOwner _ _ _ ha => exact hkeep ha ▸ hone _
  | @added ch acc account _ _ hmem hid hkey =>
    simp only [AclContentValue.adds, List.any_eq_false] at hadds
    exact absurd (by simp [hid, hkey]) (hadds acc hmem)
  | requested => exact hnone
  | accepted => simp [historyIn]
  | inviteJoined => simp [historyIn]
  | declined _ _ _ _ ha => exact hkeep ha ▸ hnone
  | canceled _ _ _ ha => exact hkeep ha ▸ hnone
  | removing _ ha => exact hkeep ha ▸ hnone
  | removed _ _ _ ha => exact hkeep ha ▸ hone _

/-- An accounts-add that names the account leaves only itself in its history. -/
theorem Transition.history_of_adds (t : Transition C st record ch st')
    (hadds : ch.adds C k = true) : ∀ c ∈ st'.history k, c.recordId = record.id := by
  cases t with
  | @accountsAdd ch keyRecordId keys _ _ _ =>
    simp only [AclContentValue.adds, List.any_eq_true, decide_eq_true_eq,
      Option.map_eq_some_iff] at hadds
    obtain ⟨acc, hmem, identity, hid, hkey⟩ := hadds
    rcases lookup_accountsWith C record keyRecordId k st.accountStates ch.additions with
      ⟨acc', _, identity', _, _, h⟩ | ⟨hnot, _⟩
    · simp [history, h, historyIn, addedAccount]
    · exact absurd hkey (hnot acc hmem identity hid)
  | _ => cases hadds

/-- The history names only records of the log. -/
theorem AclState.Supported.history_mem {known : List GoString} (h : st.Supported known)
    {c : PermissionChange} (hc : c ∈ st.history k) : c.recordId = [] ∨ c.recordId ∈ known := by
  refine mem_of_fixed fun ids hnil hfix => ?_
  unfold history at hc
  cases ha : st.accountStates.lookup k with
  | none => simp [ha, historyIn] at hc
  | some a =>
    rw [ha, historyIn] at hc
    have hview := congrArg AclState.accountStates (h ids hnil hfix)
    have hchanges := congrArg permissionChanges
      (GoMap.fixed_of_mapKV_eq hview ha).2
    have hmap : a.permissionChanges.map (PermissionChange.view (.rename ids hnil))
        = a.permissionChanges.map fun c => c := by
      rw [List.map_id_fun']
      exact hchanges
    exact congrArg PermissionChange.recordId (List.map_inj_left.mp hmap c hc)

end Change

/-! ## Lists -/

/-- The positions of the records of a list. -/
structure AclList.IndexWF (l : AclList) : Prop where
  lt : ∀ id i, l.indexes.lookup id = some i → i < l.records.length
  last : l.indexes.lookup l.aclState.lastRecordId = some (l.records.length - 1)

section Lists

variable {C : Crypto} {l l' : AclList} {e : LogEntry} {k : GoString}

theorem AclList.IndexWF.extend (h : l.IndexWF) (id : GoString) (st : AclState) :
    (l.extend id st).IndexWF where
  lt id' i hi := by
    simp only [AclList.extend, GoMap.lookup_insert_eq] at hi
    simp only [AclList.extend, List.length_append, List.length_singleton]
    split at hi
    · cases hi
      omega
    · have := h.lt id' i hi
      omega
  last := by simp [AclList.extend]

section

variable (hwf : l.WF C) (hfresh : e.Fresh l) (h : l.accept C e = .ok l')

include hwf hfresh h

theorem LogEntry.adds_iff :
    e.adds C k = (l.events C e).any (·.content.adds C k) := by
  have hflatten : ∀ ch : AclContentValue, ch.flatten.any (·.adds C k) = ch.adds C k := by
    intro ch
    cases ch <;> simp [AclContentValue.flatten, AclContentValue.adds]
  have hcontents : e.record.model.aclContent
      = (contents e.record).map Prod.fst := by
    simp [contents]
  calc e.adds C k
      = e.record.steps.any (·.1.adds C k) := by
        simp [LogEntry.adds, AclRecord.steps, hcontents, List.any_flatMap, List.any_map,
          Function.comp_def, hflatten]
    _ = (e.record.steps.map Prod.fst).any (·.adds C k) := by simp [List.any_map, Function.comp_def]
    _ = (l.events C e).any (·.content.adds C k) := by
        rw [← AclList.events_content hwf hfresh h]
        simp [List.any_map, Function.comp_def]

/-- An accepted entry replaces the history of the accounts it adds and adds to the histories of
others. -/
theorem AclList.history_accept (k : GoString) :
    (e.adds C k = true → ∀ c ∈ l'.aclState.history k, c.recordId = e.record.id) ∧
      (e.adds C k = false → ∃ new, l'.aclState.history k = l.aclState.history k ++ new ∧
        ∀ c ∈ new, c.recordId = e.record.id) := by
  rw [LogEntry.adds_iff hwf hfresh h]
  let G (events : List Event) (st : AclState) : Prop :=
    (events.any (·.content.adds C k) = true → ∀ c ∈ st.history k, c.recordId = e.record.id) ∧
      (events.any (·.content.adds C k) = false → ∃ new,
        st.history k = l.aclState.history k ++ new ∧ ∀ c ∈ new, c.recordId = e.record.id)
  have hstep : ∀ events event st', event.record = e.record → event.Leads C st' →
      G events event.state → G (events ++ [event]) st' := by
    rintro events event st' hrecord hleads ⟨hadded, hkept⟩
    simp only [G, List.any_append, List.any_cons, List.any_nil, Bool.or_false,
      Bool.or_eq_true, Bool.or_eq_false_iff]
    cases hadds : event.content.adds C k with
    | true =>
      refine ⟨fun _ => ?_, by simp⟩
      rw [← hrecord]
      exact hleads.transition.history_of_adds hadds
    | false =>
      obtain ⟨new, hnew, hnew'⟩ := (hleads.accountChange k).historyIn_eq hadds
      rw [hrecord] at hnew'
      refine ⟨fun hbefore c hc => ?_, fun hbefore => ?_⟩
      · rw [history, hnew] at hc
        rcases List.mem_append.mp hc with hc | hc
        · exact hadded (by simpa using hbefore) c hc
        · exact hnew' c hc
      · obtain ⟨old, hold, hold'⟩ := hkept (by simpa using hbefore)
        refine ⟨old ++ new, by rw [history, hnew, hold, List.append_assoc], ?_⟩
        exact fun c hc => (List.mem_append.mp hc).elim (hold' c) (hnew' c)
  have hG := AclList.events_induction G hstep (fun _ _ _ hG => hG) hwf hfresh h (t := [])
    ⟨by simp, fun _ => ⟨[], by simp, by simp⟩⟩
  exact hG

theorem AclList.historyWF_accept (hst : l.aclState.HistoryWF) : l'.aclState.HistoryWF :=
  AclList.events_induction (fun _ => AclState.HistoryWF)
    (fun _ _ _ _ hleads hG k => (hleads.accountChange k).permissionsIn_eq (hG k))
    (fun _ _ _ hG => hG) hwf hfresh h (t := []) hst

end

/-- The answer for the last record is the last change. -/
theorem AclList.closestIn_last (hindex : l.IndexWF) (k : GoString) :
    closestIn (l.aclState.history k) (l.isAfterNoCheck l.aclState.lastRecordId)
      = lastIn (l.aclState.history k) := by
  refine closestIn_congr fun c _ => ?_
  have hle : (l.indexes.lookup c.recordId).getD 0 ≤ l.records.length - 1 := by
    cases hc : l.indexes.lookup c.recordId with
    | none => exact Nat.zero_le _
    | some i =>
      have := hindex.lt _ i hc
      simp only [Option.getD_some]
      omega
  simp [AclList.isAfterNoCheck, hindex.last, hle]

/-- An accepted entry does not change the answers for older records, except for the accounts it
adds: those have no past any more. -/
theorem AclList.closestIn_accept (hwf : l.WF C) (hindex : l.IndexWF) (hfresh : e.Fresh l)
    (h : l.accept C e = .ok l') {id : GoString} {i : ℕ} (hid : l.indexes.lookup id = some i)
    (k : GoString) :
    closestIn (l'.aclState.history k) (l'.isAfterNoCheck id)
      = if e.adds C k then .none
        else closestIn (l.aclState.history k) (l.isAfterNoCheck id) := by
  obtain ⟨hadded, hkept⟩ := AclList.history_accept hwf hfresh h k
  obtain ⟨hnew, hne, m, _, rfl⟩ := AclList.accept_spec hwf hfresh h
  have hnotin := AclList.hasHead_eq_false.mp hnew
  have hidne : id ≠ e.record.id := by
    rintro rfl
    simp [AclList.hasHead, hid] at hnew
  have hlater : ∀ c : PermissionChange, c.recordId = e.record.id →
      (l.extend e.record.id m).isAfterNoCheck id c.recordId = false := by
    intro c hc
    have := hindex.lt id i hid
    simp [AclList.isAfterNoCheck, AclList.extend, hc, GoMap.lookup_insert_eq, hidne, hid, this]
  have hsame : ∀ c ∈ l.aclState.history k,
      (l.extend e.record.id m).isAfterNoCheck id c.recordId = l.isAfterNoCheck id c.recordId := by
    intro c hc
    have hcne : c.recordId ≠ e.record.id := by
      rcases hwf.state.supported.history_mem hc with hnil | hmem
      · exact fun heq => hne (heq.symm.trans hnil)
      · exact fun heq => hnotin (heq ▸ hmem)
    simp [AclList.isAfterNoCheck, AclList.extend, hidne, hcne]
  cases hadds : e.adds C k with
  | true => exact closestIn_of_not fun c hc => hlater c (hadded hadds c hc)
  | false =>
    obtain ⟨new, hhistory, hids⟩ := hkept hadds
    rw [hhistory, closestIn_append_of_not fun c hc => hlater c (hids c hc), closestIn_congr hsame]
    rfl

end Lists

/-! ## Logs -/

/-- Among the entries that were accepted one after the other, each with the list before it, an
entry adds the account under `k` only if the account had no permissions in any list so far. -/
def AddedOnlyWithoutPast (C : Crypto) (k : GoString) (entries : List (AclList × LogEntry)) : Prop :=
  ∀ before x after, entries = before ++ x :: after → x.2.adds C k = true →
    ∀ y ∈ before ++ [x], y.1.aclState.permissionsOf k = .none

/-- The lists of a log, oldest first: one before each entry, and the list `l` it leads to. -/
def logLists (C : Crypto) (l₀ : AclList) (log : List LogEntry) (l : AclList) : List AclList :=
  (runTrace (AclList.accept C) l₀ log).map Prod.fst ++ [l]

section Log

variable {C : Crypto} {k : GoString} {entries : List (AclList × LogEntry)}
  {x : AclList × LogEntry}

theorem addedOnlyWithoutPast_append :
    AddedOnlyWithoutPast C k (entries ++ [x]) ↔
      if x.2.adds C k then ∀ y ∈ entries ++ [x], y.1.aclState.permissionsOf k = .none
      else AddedOnlyWithoutPast C k entries := by
  refine forall_split_concat.trans ?_
  split
  · next hadds =>
    refine ⟨fun h => h.2 hadds, fun h => ⟨fun before y after heq _ z hz => ?_, fun _ => h⟩⟩
    refine h z (List.mem_append_left _ ?_)
    rw [heq]
    rw [List.append_cons]
    exact List.mem_append_left _ hz
  · next hadds => exact ⟨fun h => h.1, fun h => ⟨h, fun hadds' => absurd hadds' hadds⟩⟩

/-- What holds after the entries of a log: the answers for the records of the older lists are
right iff the account was only added without a past. -/
structure PastPermissions (C : Crypto) (k : GoString) (entries : List (AclList × LogEntry))
    (l : AclList) : Prop where
  wf : l.WF C
  index : l.IndexWF
  history : l.aclState.HistoryWF
  known : ∀ y ∈ entries, ∃ i, l.indexes.lookup y.1.aclState.lastRecordId = some i
  iff : (∀ y ∈ entries, closestIn (l.aclState.history k)
      (l.isAfterNoCheck y.1.aclState.lastRecordId) = y.1.aclState.permissionsOf k) ↔
    AddedOnlyWithoutPast C k entries

theorem PastPermissions.closestIn_last {l : AclList} (h : PastPermissions C k entries l) :
    closestIn (l.aclState.history k) (l.isAfterNoCheck l.aclState.lastRecordId)
      = l.aclState.permissionsOf k :=
  (AclList.closestIn_last h.index k).trans (h.history k).symm

theorem PastPermissions.accept {l l' : AclList} {e : LogEntry} (h : PastPermissions C k entries l)
    (hfresh : e.Fresh l) (haccept : l.accept C e = .ok l') :
    PastPermissions C k (entries ++ [(l, e)]) l' := by
  have hknown : ∀ y ∈ entries ++ [(l, e)],
      ∃ i, l.indexes.lookup y.1.aclState.lastRecordId = some i := by
    intro y hy
    rcases List.mem_append.mp hy with hy | hy
    · exact h.known y hy
    · rw [List.mem_singleton.mp hy]
      exact ⟨_, h.index.last⟩
  -- only an addition restarts the history of an account
  have hclosest : ∀ y ∈ entries ++ [(l, e)], closestIn (l'.aclState.history k)
      (l'.isAfterNoCheck y.1.aclState.lastRecordId)
        = if e.adds C k then .none else closestIn (l.aclState.history k)
            (l.isAfterNoCheck y.1.aclState.lastRecordId) := by
    intro y hy
    obtain ⟨i, hi⟩ := hknown y hy
    exact AclList.closestIn_accept h.wf h.index hfresh haccept hi k
  have hiff : (∀ y ∈ entries ++ [(l, e)], closestIn (l'.aclState.history k)
      (l'.isAfterNoCheck y.1.aclState.lastRecordId) = y.1.aclState.permissionsOf k) ↔
        AddedOnlyWithoutPast C k (entries ++ [(l, e)]) := by
    rw [addedOnlyWithoutPast_append]
    cases hadds : e.adds C k with
    | true =>
      simp only [hadds, if_true] at hclosest ⊢
      constructor
      · exact fun hall y hy => (hall y hy).symm.trans (hclosest y hy)
      · exact fun hnone y hy => (hclosest y hy).trans (hnone y hy).symm
    | false =>
      simp only [hadds, Bool.false_eq_true, if_false] at hclosest ⊢
      rw [← h.iff]
      constructor
      · intro hall y hy
        have hy' : y ∈ entries ++ [(l, e)] := List.mem_append_left _ hy
        exact (hclosest y hy').symm.trans (hall y hy')
      · intro hall y hy
        rw [hclosest y hy]
        rcases List.mem_append.mp hy with hy | hy
        · exact hall y hy
        · rw [List.mem_singleton.mp hy]
          exact h.closestIn_last
  refine ⟨h.wf.accept hfresh haccept, ?_, AclList.historyWF_accept h.wf hfresh haccept h.history,
    fun y hy => ?_, hiff⟩
  · obtain ⟨_, _, m, _, rfl⟩ := AclList.accept_spec h.wf hfresh haccept
    exact h.index.extend e.record.id m
  · obtain ⟨i, hi⟩ := hknown y hy
    obtain ⟨_, _, m, _, rfl⟩ := AclList.accept_spec h.wf hfresh haccept
    simp only [AclList.extend, GoMap.lookup_insert_eq]
    split
    · exact ⟨_, rfl⟩
    · exact ⟨i, hi⟩

/-- For an accepted log and an account, the permissions that the list answers for each record of
the log are those the account had after that record iff the account was only added while it had
never had permissions after an earlier record. -/
theorem AcceptedLog.pastPermissions_iff {validates : Bool} {root : AclRootRecord} {key : PrivKey}
    {log : List LogEntry} {l₀ l : AclList} (h : AcceptedLog C validates root key log l₀ l)
    (identity : PubKey) :
    (∀ l' ∈ logLists C l₀ log l, l.pastPermissions l'.aclState.lastRecordId identity
          = some (l'.aclState.permissions identity)) ↔
      AddedOnlyWithoutPast C (mapKeyFromPubKey identity)
        (runTrace (AclList.accept C) l₀ log) := by
  have hinit : PastPermissions C (mapKeyFromPubKey identity) [] l₀ := by
    refine ⟨AclList.WF.build h.ordinary h.build, ?_, ?_, by simp, ?_⟩
    · obtain ⟨aclKeys, rfl⟩ := AclList.build_spec h.ordinary h.build
      constructor
      · intro id i hi
        simp only [GoMap.lookup_insert_eq] at hi
        split at hi
        · cases hi
          simp
        · cases hi
      · exact AList.lookup_insert _
    · obtain ⟨aclKeys, rfl⟩ := AclList.build_spec h.ordinary h.build
      intro k
      simp only [permissionsOf, history, ofRoot, GoMap.lookup_insert_eq]
      split
      · simp [historyIn]
      · rfl
    · simp [AddedOnlyWithoutPast]
  have hpast := foldlM_trace_induction
    (fun entries l => PastPermissions C (mapKeyFromPubKey identity) entries l)
    (fun x => x.2.Fresh x.1)
    (fun entries l e l' hl hfresh haccept => hl.accept hfresh haccept) (t := []) hinit h.fresh
    h.accepts
  rw [List.nil_append] at hpast
  -- the ids that are asked for are in the index, so the query finds an answer
  have hanswer : ∀ l' ∈ logLists C l₀ log l,
      l.pastPermissions l'.aclState.lastRecordId identity
        = some (closestIn (l.aclState.history (mapKeyFromPubKey identity))
            (l.isAfterNoCheck l'.aclState.lastRecordId)) := by
    intro l' hl'
    refine AclList.pastPermissions_eq ?_ identity
    rcases List.mem_append.mp hl' with hl' | hl'
    · obtain ⟨y, hy, rfl⟩ := List.mem_map.mp hl'
      obtain ⟨i, hi⟩ := hpast.known y hy
      simp [AclList.hasHead, hi]
    · rw [List.mem_singleton.mp hl']
      simp [AclList.hasHead, hpast.index.last]
  rw [← hpast.iff]
  constructor
  · intro hall y hy
    have hy' : y.1 ∈ logLists C l₀ log l :=
      List.mem_append_left _ (List.mem_map_of_mem hy)
    exact Option.some.inj ((hanswer _ hy').symm.trans (hall _ hy'))
  · intro hall l' hl'
    rw [hanswer l' hl']
    rcases List.mem_append.mp hl' with hl' | hl'
    · obtain ⟨y, hy, rfl⟩ := List.mem_map.mp hl'
      rw [hall y hy]
      rfl
    · rw [List.mem_singleton.mp hl', hpast.closestIn_last]
      rfl

end Log

/-- `alice` is added as a writer, removed, and added again as a reader. -/
def readdedLog : List LogEntry :=
  log
    [(owner, [accountAdd alice .writer]), (owner, [accountRemove alice [owner]]),
     (owner, [accountAdd alice .reader])]

/-- Until `alice` is added again, all answers are right. -/
theorem pastPermissions_readdedLog :
    ∃ l₀ l, AcceptedLog Sample.C true root observerKey (readdedLog.take 2) l₀ l ∧
      (∀ l' ∈ logLists Sample.C l₀ (readdedLog.take 2) l,
        l.pastPermissions l'.aclState.lastRecordId alice
          = some (l'.aclState.permissions alice)) ∧
      AddedOnlyWithoutPast Sample.C (mapKeyFromPubKey alice)
        (runTrace (AclList.accept Sample.C) l₀ (readdedLog.take 2)) := by
  have hrun : acceptedLogWith Sample.C true root observerKey (readdedLog.take 2)
      (fun l₀ l => (logLists Sample.C l₀ (readdedLog.take 2) l).all fun l' =>
        decide (l.pastPermissions l'.aclState.lastRecordId alice
          = some (l'.aclState.permissions alice))) = true := by
    decide +kernel
  obtain ⟨l₀, l, h, hall⟩ := acceptedLog_of_acceptedLogWith hrun
  have hanswers := fun l' hl' => of_decide_eq_true (List.all_eq_true.mp hall l' hl')
  exact ⟨l₀, l, h, hanswers, (h.pastPermissions_iff alice).mp hanswers⟩

/-- Afterwards the list no longer knows that `alice` was a writer. -/
theorem pastPermissions_ne_readdedLog :
    ∃ l₀ l, AcceptedLog Sample.C true root observerKey readdedLog l₀ l ∧
      ∃ l' ∈ logLists Sample.C l₀ readdedLog l,
        l'.aclState.permissions alice = .writer ∧
        l.pastPermissions l'.aclState.lastRecordId alice = some .none := by
  have hrun : acceptedLogWith Sample.C true root observerKey readdedLog
      (fun l₀ l => (logLists Sample.C l₀ readdedLog l).any fun l' =>
        decide (l'.aclState.permissions alice = .writer ∧
          l.pastPermissions l'.aclState.lastRecordId alice = some .none)) = true := by
    decide +kernel
  obtain ⟨l₀, l, h, hany⟩ := acceptedLog_of_acceptedLogWith hrun
  obtain ⟨l', hl', htest⟩ := List.any_eq_true.mp hany
  exact ⟨l₀, l, h, l', hl', of_decide_eq_true htest⟩

end Acl
