import AnySync.Acl.Transition

/-!
# Open requests

The ACL keeps open requests twice: `requestRecords` by the record that made them, and
`pendingRequests` by the account that made them. This file proves that the two stay inverse to
each other along validated content (`RequestsWF`, `RequestsWF.transition`), which makes the type
of the open request of an account well defined (`AclState.requestType`).
-/

namespace Acl

open GoMap (lookup_insert_eq)

/-- The two tables of open requests agree, and who has an open request is a known account. -/
structure AclState.RequestsWF (st : AclState) : Prop where
  /-- A pending request of an account is a request that the account made. -/
  pending : ∀ k r, st.pendingRequests.lookup k = some r →
    ∃ request, st.IsRequest r request ∧ mapKeyFromPubKey request.requestIdentity = k
  /-- A request knows its record and is the pending request of its account. -/
  request : ∀ r request, st.IsRequest r request → request.recordId = r ∧
    st.pendingRequests.lookup (mapKeyFromPubKey request.requestIdentity) = some r
  /-- An account with a pending request is known. -/
  known : ∀ k r, st.pendingRequests.lookup k = some r → ∃ a, st.accountStates.lookup k = some a

/-- A request under the id of `record` was made by the author of `record`. This holds while the
content of `record` is applied, because its id is new. -/
def AclState.OwnRequest (st : AclState) (record : AclRecord) : Prop :=
  ∀ request, st.IsRequest record.id request → request.requestIdentity = record.identity

/-- The type of the open request of the account under `k`. -/
def AclState.requestType (st : AclState) (k : GoString) : Option RequestType :=
  (st.pendingRequests.lookup k).bind fun r => (st.requestRecords.lookup r).map (·.type)

namespace AclState

variable {st st' : AclState} {record : AclRecord}
variable {request : RequestRecord} {id : GoString} {keys : List GoString}

theorem requestType_eq_none {k : GoString} (h : st.pendingRequests.lookup k = none) :
    st.requestType k = none := by
  simp [requestType, h]

/-- The type of the open request of an account. -/
theorem RequestsWF.requestType_of_request (hwf : st.RequestsWF) {r : GoString}
    (h : st.IsRequest r request) :
    st.requestType (mapKeyFromPubKey request.requestIdentity) = some request.type := by
  simp [requestType, (hwf.request r request h).2, h]

/-! ## Opening and closing requests -/

/-- A request is opened under a new id for an account without one. -/
structure Opens (st st' : AclState) (id : GoString) (request : RequestRecord) : Prop where
  no_pending : st.pendingRequests.lookup (mapKeyFromPubKey request.requestIdentity) = none
  recordId : request.recordId = id
  pending : st'.pendingRequests =
    st.pendingRequests.insert (mapKeyFromPubKey request.requestIdentity) id
  requests : st'.requestRecords = st.requestRecords.insert id request

/-- The requests of the accounts under `keys` are closed. -/
structure Closes (st st' : AclState) (keys : List GoString) : Prop where
  pending : ∀ k, st'.pendingRequests.lookup k
    = if k ∈ keys then none else st.pendingRequests.lookup k
  requests : ∀ r, st'.requestRecords.lookup r
    = if ∃ k ∈ keys, st.pendingRequests.lookup k = some r then none
      else st.requestRecords.lookup r

/-- No account is forgotten. -/
def KeepsAccounts (st st' : AclState) : Prop :=
  ∀ k a, st.accountStates.lookup k = some a → ∃ a', st'.accountStates.lookup k = some a'

theorem keepsAccounts_insert (st : AclState) (k : GoString) (a : AccountState)
    (h : st'.accountStates = st.accountStates.insert k a) : KeepsAccounts st st' := by
  intro k' a' ha'
  rw [h, lookup_insert_eq]
  split
  · exact ⟨a, rfl⟩
  · exact ⟨a', ha'⟩

section

variable (hwf : st.RequestsWF)

include hwf

/-- A request is opened, in place of one of the same account. -/
theorem RequestsWF.opens (hopen : Opens st st' id request)
    (hown : ∀ request', st.IsRequest id request' →
      request'.requestIdentity = request.requestIdentity) (hkeeps : KeepsAccounts st st')
    (hknown : ∃ a, st'.accountStates.lookup (mapKeyFromPubKey request.requestIdentity) = some a) :
    st'.RequestsWF := by
  -- a request under this id would be one of the same account, which has none
  have hfresh : ∀ request', ¬ st.IsRequest id request' := by
    intro request' h'
    have hp := (hwf.request id request' h').2
    rw [hown request' h', hopen.no_pending] at hp
    cases hp
  constructor
  · intro k r hk
    rw [hopen.pending, lookup_insert_eq] at hk
    split at hk
    · next hkey =>
      cases hk
      exact ⟨request, by simp [IsRequest, hopen.requests], hkey.symm⟩
    · obtain ⟨request', hr, hkey⟩ := hwf.pending k r hk
      have hne : r ≠ id := by
        rintro rfl
        exact hfresh request' hr
      exact ⟨request', by simpa [IsRequest, hopen.requests, lookup_insert_eq, hne] using hr, hkey⟩
  · intro r request' hr
    rw [IsRequest, hopen.requests, lookup_insert_eq] at hr
    split at hr
    · next hid =>
      cases hr
      exact ⟨hopen.recordId.trans hid.symm, by simp [hopen.pending, hid]⟩
    · obtain ⟨hid, hp⟩ := hwf.request r request' hr
      refine ⟨hid, ?_⟩
      have hne : mapKeyFromPubKey request'.requestIdentity
          ≠ mapKeyFromPubKey request.requestIdentity := by
        intro heq
        rw [heq, hopen.no_pending] at hp
        cases hp
      rw [hopen.pending, lookup_insert_eq, if_neg hne, hp]
  · intro k r hk
    rw [hopen.pending, lookup_insert_eq] at hk
    split at hk
    · next hkey => exact hkey ▸ hknown
    · obtain ⟨a, ha⟩ := hwf.known k r hk
      exact hkeeps k a ha

/-- The requests of some accounts are closed. -/
theorem RequestsWF.closes (hclose : Closes st st' keys) (hkeeps : KeepsAccounts st st') :
    st'.RequestsWF := by
  constructor
  · intro k r hk
    rw [hclose.pending] at hk
    split at hk
    · cases hk
    · next hnot =>
      obtain ⟨request, hr, hkey⟩ := hwf.pending k r hk
      refine ⟨request, ?_, hkey⟩
      rw [IsRequest, hclose.requests, if_neg, hr]
      rintro ⟨k', hmem, hk'⟩
      obtain ⟨request', hr', hkey'⟩ := hwf.pending k' r hk'
      obtain rfl := Option.some.inj (hr.symm.trans hr')
      exact hnot (hkey ▸ hkey' ▸ hmem)
  · intro r request hr
    rw [IsRequest, hclose.requests] at hr
    split at hr
    · cases hr
    · next hnot =>
      obtain ⟨hid, hp⟩ := hwf.request r request hr
      refine ⟨hid, ?_⟩
      rw [hclose.pending, if_neg, hp]
      exact fun hmem => hnot ⟨_, hmem, hp⟩
  · intro k r hk
    rw [hclose.pending] at hk
    split at hk
    · cases hk
    · obtain ⟨a, ha⟩ := hwf.known k r hk
      exact hkeeps k a ha

theorem RequestsWF.same (hpending : st'.pendingRequests = st.pendingRequests)
    (hrequests : st'.requestRecords = st.requestRecords) (hkeeps : KeepsAccounts st st') :
    st'.RequestsWF := by
  have hclose : Closes st st' [] := ⟨by simp [hpending], by simp [hrequests]⟩
  exact hwf.closes hclose hkeeps

theorem RequestsWF.insertAccount (k : GoString) (a : AccountState) :
    { st with accountStates := st.accountStates.insert k a }.RequestsWF :=
  hwf.same rfl rfl (keepsAccounts_insert st k a rfl)

/-- Only the account of the new request has another type. -/
theorem requestType_of_opens (hopen : Opens st st' id request)
    (hown : ∀ request', st.IsRequest id request' →
      request'.requestIdentity = request.requestIdentity) (k : GoString) :
    st'.requestType k = if k = mapKeyFromPubKey request.requestIdentity then some request.type
      else st.requestType k := by
  unfold requestType
  rw [hopen.pending, hopen.requests, lookup_insert_eq]
  split
  · simp
  · cases hk : st.pendingRequests.lookup k with
    | none => rfl
    | some r =>
      obtain ⟨request', hr, hkey⟩ := hwf.pending k r hk
      have hne : r ≠ id := by
        rintro rfl
        have hsame := hown request' hr
        rw [← hkey, hsame, hopen.no_pending] at hk
        cases hk
      simp [lookup_insert_eq, hne]

/-- Only the accounts of the closed requests have another type. -/
theorem requestType_of_closes (hclose : Closes st st' keys) (k : GoString) :
    st'.requestType k = if k ∈ keys then none else st.requestType k := by
  unfold requestType
  rw [hclose.pending]
  split
  · rfl
  · next hnot =>
    cases hk : st.pendingRequests.lookup k with
    | none => rfl
    | some r =>
      obtain ⟨request, hr, hkey⟩ := hwf.pending k r hk
      have hopen : ¬ ∃ k' ∈ keys, st.pendingRequests.lookup k' = some r := by
        rintro ⟨k', hmem, hk'⟩
        obtain ⟨request', hr', hkey'⟩ := hwf.pending k' r hk'
        obtain rfl := Option.some.inj (hr.symm.trans hr')
        exact hnot (hkey ▸ hkey' ▸ hmem)
      simp only [Option.bind_some]
      rw [hclose.requests, if_neg hopen]

/-- Deleting a request from both tables closes it. -/
theorem closes_of_erase (hr : st.IsRequest id request) (hpending : st'.pendingRequests
      = st.pendingRequests.erase (mapKeyFromPubKey request.requestIdentity))
    (hrequests : st'.requestRecords = st.requestRecords.erase id) :
    Closes st st' [mapKeyFromPubKey request.requestIdentity] := by
  obtain ⟨-, hp⟩ := hwf.request id request hr
  constructor
  · intro k
    simp [hpending, GoMap.lookup_erase_eq]
  · intro r
    rw [hrequests, GoMap.lookup_erase_eq]
    simp [hp, eq_comm]

end

/-- Dropping a request changes nothing but the tables of requests. -/
theorem dropRequestOf_eq (st : AclState) (ord : RangeOrder) (value : ℕ) (identity : PubKey) :
    st.dropRequestOf ord value identity = { st with
      pendingRequests := (st.dropRequestOf ord value identity).pendingRequests
      requestRecords := (st.dropRequestOf ord value identity).requestRecords } := by
  unfold dropRequestOf
  split <;> rfl

@[simp]
theorem accountStates_dropRequestOf (st : AclState) (ord : RangeOrder) (value : ℕ)
    (identity : PubKey) :
    (st.dropRequestOf ord value identity).accountStates = st.accountStates := by
  rw [dropRequestOf_eq]

/-- The loop of an invite join closes the request of the account that joins. -/
theorem closes_dropRequestOf (hwf : st.RequestsWF) (ord : RangeOrder) (value : ℕ)
    (identity : PubKey) :
    Closes st (st.dropRequestOf ord value identity) [mapKeyFromPubKey identity] := by
  unfold dropRequestOf
  cases hfind : (ord.shuffle value 0 (st.requestRecords.entries.map Sigma.snd)).find?
      (fun rec => rec.requestIdentity = identity) with
  | none =>
    have hnone : st.pendingRequests.lookup (mapKeyFromPubKey identity) = none := by
      by_contra hsome
      obtain ⟨r, hr⟩ := Option.ne_none_iff_exists'.mp hsome
      obtain ⟨request, hrequest, hkey⟩ := hwf.pending _ r hr
      have hmem : request ∈ ord.shuffle value 0 (st.requestRecords.entries.map Sigma.snd) := by
        rw [(ord.shuffle_perm value 0 _).mem_iff]
        exact List.mem_map_of_mem (f := Sigma.snd) (GoMap.lookup_eq_some_iff.mp hrequest)
      have := List.find?_eq_none.mp hfind request hmem
      simp [mapKeyFromPubKey_injective hkey] at this
    constructor
    · intro k
      by_cases hk : k = mapKeyFromPubKey identity
      · subst hk
        simp [hnone]
      · simp [hk]
    · intro r
      simp [hnone]
  | some request =>
    have hmem := (ord.shuffle_perm value 0 _).mem_iff.mp (List.mem_of_find?_eq_some hfind)
    obtain ⟨⟨id, request'⟩, hentry, rfl⟩ := List.mem_map.mp hmem
    have hr : st.IsRequest id request' := GoMap.lookup_eq_some_iff.mpr hentry
    have hidentity : request'.requestIdentity = identity := by simpa using List.find?_some hfind
    obtain ⟨hid, -⟩ := hwf.request id request' hr
    subst hidentity
    exact closes_of_erase hwf hr rfl (by simp [hid])

/-- Removed accounts lose their requests. -/
theorem closes_withoutAll (record : AclRecord) {identities : List PubKey}
    (hnodup : identities.Nodup) (hknown : st.Known identities) :
    Closes st (st.withoutAll record identities) (identities.map mapKeyFromPubKey) := by
  constructor
  · intro k
    rw [lookup_pendingRequests_withoutAll hknown]
  · intro r
    rw [lookup_requestRecords_withoutAll hnodup hknown]
    simp

end AclState

/-! ## Transitions -/

theorem Removable.known {st : AclState} {author : PubKey} {identities : List PubKey}
    (h : ∀ identity ∈ identities, Removable st author identity) : st.Known identities := by
  intro identity hmem
  obtain ⟨a, ha, -⟩ := AclState.lookup_of_permissions_ne_none (h identity hmem).granted
  exact ⟨a, ha⟩

/-- What a transition does to open requests. -/
inductive RequestsChange (st : AclState) (record : AclRecord) (st' : AclState) : Prop
  | same (pending : st'.pendingRequests = st.pendingRequests)
      (requests : st'.requestRecords = st.requestRecords)
  | opens {request : RequestRecord} (opens : st.Opens st' record.id request)
      (author : request.requestIdentity = record.identity)
      (known : ∃ a, st'.accountStates.lookup (mapKeyFromPubKey record.identity) = some a)
  | closes {keys : List GoString} (closes : st.Closes st' keys)

namespace Transition

variable {C : Crypto} {st st' : AclState} {record : AclRecord} {ch : AclContentValue}

/-- No content value takes an account out of the table. -/
theorem keepsAccounts (t : Transition C st record ch st') : st.KeepsAccounts st' := by
  cases t with
  | ownershipChange =>
    intro k a ha
    simp only [AclState.updatePermissions, lookup_insert_eq]
    split
    · exact ⟨_, rfl⟩
    · split
      · exact ⟨_, rfl⟩
      · exact ⟨a, ha⟩
  | permissionChange => exact AclState.keepsAccounts_insert st _ _ rfl
  | inviteJoin =>
    exact AclState.keepsAccounts_insert st _ _ (AclState.accountStates_dropRequestOf _ _ _ _)
  | requestJoin => exact AclState.keepsAccounts_insert st _ _ rfl
  | requestAccept => exact AclState.keepsAccounts_insert st _ _ rfl
  | requestDecline => exact AclState.keepsAccounts_insert st _ _ rfl
  | requestCancel => exact AclState.keepsAccounts_insert st _ _ rfl
  | accountRequestRemove => exact AclState.keepsAccounts_insert st _ _ rfl
  | accountRemove _ _ hnodup =>
    intro k a ha
    simp only [AclState.lookup_accountStates_withoutAll hnodup, ha]
    split <;> exact ⟨_, rfl⟩
  | @accountsAdd ch keyRecordId _ _ _ =>
    intro k a ha
    rcases lookup_accountsWith C record keyRecordId k st.accountStates ch.additions with
      ⟨_, _, _, _, _, h⟩ | ⟨_, h⟩
    · exact ⟨_, h⟩
    · exact ⟨a, h.trans ha⟩
  | _ => exact fun k a ha => ⟨a, ha⟩

theorem requestsChange (hwf : st.RequestsWF) (t : Transition C st record ch st') :
    RequestsChange st record st' := by
  cases t with
  | inviteJoin =>
    have hclose := fun a ord value => AclState.closes_dropRequestOf
      (hwf.insertAccount (mapKeyFromPubKey record.identity) a) ord value record.identity
    exact .closes ⟨(hclose _ _ _).pending, (hclose _ _ _).requests⟩
  | requestJoin _ _ _ hno _ =>
    exact .opens ⟨hno, rfl, rfl, rfl⟩ rfl ⟨_, AList.lookup_insert _⟩
  | accountRequestRemove _ _ _ _ hno =>
    exact .opens ⟨hno, rfl, rfl, rfl⟩ rfl ⟨_, AList.lookup_insert _⟩
  | requestAccept _ hr => exact .closes (AclState.closes_of_erase hwf hr rfl rfl)
  | requestDecline _ hr => exact .closes (AclState.closes_of_erase hwf hr rfl rfl)
  | requestCancel hr hauthor =>
    exact .closes (AclState.closes_of_erase hwf hr (by rw [hauthor]) rfl)
  | accountRemove _ _ hnodup hremovable =>
    have hclose := AclState.closes_withoutAll record hnodup
      (Removable.known hremovable)
    exact .closes ⟨hclose.pending, hclose.requests⟩
  | _ => exact .same rfl rfl

/-- The two tables of requests stay inverse to each other. -/
theorem requestsWF (hwf : st.RequestsWF) (hown : st.OwnRequest record)
    (t : Transition C st record ch st') : st'.RequestsWF := by
  cases t.requestsChange hwf with
  | same hp hr => exact hwf.same hp hr t.keepsAccounts
  | opens hopen hauthor hknown =>
    exact hwf.opens hopen (fun request' h => (hown request' h).trans hauthor.symm)
      t.keepsAccounts (hauthor ▸ hknown)
  | closes hclose => exact hwf.closes hclose t.keepsAccounts

/-- The request under the id of the record stays one of its author. -/
theorem ownRequest (hwf : st.RequestsWF) (hown : st.OwnRequest record)
    (t : Transition C st record ch st') : st'.OwnRequest record := by
  intro request hr
  cases t.requestsChange hwf with
  | same _ hrequests => exact hown request (by rwa [AclState.IsRequest, hrequests] at hr)
  | opens hopen hauthor _ =>
    rw [AclState.IsRequest, hopen.requests, AList.lookup_insert] at hr
    cases hr
    exact hauthor
  | closes hclose =>
    rw [AclState.IsRequest, hclose.requests] at hr
    split at hr
    · cases hr
    · exact hown request hr

end Transition

end Acl
