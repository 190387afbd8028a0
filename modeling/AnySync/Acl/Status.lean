import AnySync.Acl.Log

/-!
# Status, permissions and requests of an account

Three places of the state speak about one account: its status, its permissions and the open
request it may have.

The main result is `AcceptedLog.statusWF_iff`.
-/

namespace Acl

open Sample
open AccountState

/-- The status of an account, its permissions and the type of its open request agree. -/
structure AccountState.Consistent (a : AccountState) (request : Option RequestType) : Prop where
  join_iff : request = some .join ↔ a.status = .joining
  remove_iff : request = some .remove ↔ a.status = .removing
  granted_iff : a.permissions ≠ .none ↔ a.status = .active ∨ a.status = .removing
  granted : a.permissions ≠ .none →
    a.status ≠ .declined ∧ a.status ≠ .canceled ∧ a.status ≠ .removed

/-- Every account of the state is consistent. -/
def AclState.StatusWF (st : AclState) : Prop :=
  ∀ k a, st.accountStates.lookup k = some a → a.Consistent (st.requestType k)

/-- The content value keeps accounts consistent: a permission change neither takes all permissions
nor gives the first ones, a request is accepted with permissions, and no account is added while it
has an open request. -/
def Event.KeepsStatus (C : Crypto) (event : Event) : Prop :=
  match event.content with
  | .permissionChange ch => ∀ target, C.unmarshalPublicKey ch.identity = some target →
      (ch.permissions = .none ↔ event.state.permissions target = .none)
  | .requestAccept ch => ch.permissions ≠ .none
  | .accountsAdd ch => ∀ acc ∈ ch.additions, ∀ identity,
      C.unmarshalPublicKey acc.identity = some identity →
        event.state.requestType (mapKeyFromPubKey identity) = none
  | _ => True

section Status

variable {C : Crypto} {st' : AclState} {event : Event} {k : GoString}
variable {a : AccountState} {request : Option RequestType}

/-- The last clause of consistency follows from the third. -/
theorem AccountState.Consistent.mk' (join_iff : request = some .join ↔ a.status = .joining)
    (remove_iff : request = some .remove ↔ a.status = .removing)
    (granted_iff : a.permissions ≠ .none ↔ a.status = .active ∨ a.status = .removing) :
    a.Consistent request := by
  refine ⟨join_iff, remove_iff, granted_iff, fun hgranted => ?_⟩
  rcases granted_iff.mp hgranted with h | h <;> simp [h]

/-- An active account without a request is consistent if it has permissions. -/
theorem AccountState.consistent_of_active (hstatus : a.status = .active)
    (hgranted : a.permissions ≠ .none) : a.Consistent none :=
  .mk' (by simp [hstatus]) (by simp [hstatus]) (by simp [hstatus, hgranted])

/-- New permissions that are none iff the old ones were keep an account consistent. -/
theorem AccountState.Consistent.withPermissions (h : a.Consistent request) (record : AclRecord)
    {permissions : AclPermissions} (hiff : permissions = .none ↔ a.permissions = .none) :
    (a.withPermissions record permissions).Consistent request :=
  .mk' h.join_iff h.remove_iff ((not_congr hiff).trans h.granted_iff)

/-- A content value that keeps accounts consistent leaves each account so. -/
theorem AccountChange.consistent {a' : Option AccountState} {r' : Option RequestType}
    (h : AccountChange C event.state event.record k event.content a' r')
    (hst : event.state.StatusWF) (hinvites : event.state.InvitesWF) (hkeeps : event.KeepsStatus C) :
    ∀ a, a' = some a → a.Consistent r' := by
  obtain ⟨record, order, position, st, ch⟩ := event
  intro a ha
  cases h with
  | same => exact hst k a ha
  | @permission ch target state _ hid hkey hknown =>
    cases ha
    refine (hst k state hknown).withPermissions record ((hkeeps target hid).trans ?_)
    rw [AclState.permissions_eq, ← hkey, AclState.permissionsOf_of_lookup hknown]
  | oldOwner _ hknown howner _ hgranted =>
    cases ha
    exact (hst k _ hknown).withPermissions record (by simp [howner, hgranted])
  | newOwner _ _ _ hknown _ hgranted =>
    cases ha
    exact (hst k _ hknown).withPermissions record (by simp [hgranted])
  | @added ch acc account _ _ hmem hid hkey _ _ hgranted =>
    cases ha
    rw [hkey, hkeeps acc hmem account hid]
    exact consistent_of_active rfl hgranted
  | requested =>
    cases ha
    exact .mk' (by simp) (by simp) (by simp)
  | accepted =>
    cases ha
    exact consistent_of_active rfl hkeeps
  | inviteJoined _ _ hfound htype =>
    cases ha
    exact consistent_of_active rfl
      (joinedPermissions_ne_none (hinvites _ _ hfound htype).1)
  | declined _ _ _ hrequest hknown =>
    cases ha
    have hold := hst k _ hknown
    -- an account that waits to join has no permissions
    have hjoining := hold.join_iff.mp hrequest
    have hnone : ¬ _ ≠ AclPermissions.none := fun hgranted => by
      simpa [hjoining] using hold.granted_iff.mp hgranted
    exact .mk' (by simp) (by simp) (by simpa using hnone)
  | @canceled ch request state _ _ hrequest hknown =>
    cases ha
    have hold := hst k _ hknown
    cases htype : request.type with
    | join =>
      have hjoining := hold.join_iff.mp (hrequest.trans (congrArg some htype))
      have hnone : ¬ state.permissions ≠ .none := fun hgranted => by
        simpa [hjoining] using hold.granted_iff.mp hgranted
      exact .mk' (by simp) (by simp) (by simpa using hnone)
    | remove =>
      have hremoving := hold.remove_iff.mp (hrequest.trans (congrArg some htype))
      have hgranted : state.permissions ≠ .none := hold.granted_iff.mpr (.inr hremoving)
      exact consistent_of_active (by simp) hgranted
  | removing _ _ hgranted _ =>
    cases ha
    exact .mk' (by simp) (by simp) (by simpa using hgranted)
  | removed =>
    cases ha
    exact .mk' (by simp [AclState.removedAccount]) (by simp [AclState.removedAccount])
      (by simp [AclState.removedAccount])

/-- A content value that leads from a consistent state to a consistent one is one that keeps
accounts consistent. -/
theorem Event.Leads.keepsStatus (h : event.Leads C st') (hst : event.state.StatusWF)
    (hst' : st'.StatusWF) : event.KeepsStatus C := by
  have ht := h.transition
  obtain ⟨record, order, position, st, ch⟩ := event
  cases ht with
  | @permissionChange ch target state hauthor hid hknown =>
    intro target' hid'
    obtain rfl := Option.some.inj (hid.symm.trans hid')
    have hold := (hst _ _ hknown).granted_iff
    have hnew := (hst' (mapKeyFromPubKey target) (state.withPermissions record ch.permissions)
      (by simp [AclState.updatePermissions, hknown])).granted_iff
    rw [AclState.permissions_of_lookup hknown]
    exact not_iff_not.mp (hnew.trans hold.symm)
  | @requestAccept ch request =>
    have hnew := (hst' (mapKeyFromPubKey request.requestIdentity) _
      (AList.lookup_insert _)).granted_iff
    exact hnew.mpr (.inl rfl)
  | @accountsAdd ch keyRecordId keys _ _ _ =>
    intro acc hmem identity hid
    rcases lookup_accountsWith C record keyRecordId (mapKeyFromPubKey identity) st.accountStates
      ch.additions with ⟨acc', _, identity', _, _, hadded⟩ | ⟨hnot, _⟩
    · have hnew := hst' (mapKeyFromPubKey identity) _ hadded
      have hjoin := hnew.join_iff
      have hremove := hnew.remove_iff
      simp only [AclState.addedAccount, reduceCtorEq, iff_false] at hjoin hremove
      change st.requestType (mapKeyFromPubKey identity) = none
      cases hrequest : st.requestType (mapKeyFromPubKey identity) with
      | none => rfl
      | some type =>
        cases type with
        | join => exact absurd hrequest hjoin
        | remove => exact absurd hrequest hremove
    · exact absurd rfl (hnot acc hmem identity hid)
  | _ => trivial

/-- From a consistent state, a content value leads to a consistent state iff it is one that keeps
accounts consistent. -/
theorem Event.Leads.statusWF_iff_keepsStatus (h : event.Leads C st') (hst : event.state.StatusWF) :
    st'.StatusWF ↔ event.KeepsStatus C :=
  ⟨h.keepsStatus hst, fun hkeeps k a ha =>
    (h.accountChange k).consistent hst h.invitesWF hkeeps a ha⟩

/-- The states along an accepted log, before each content value and at the end, are consistent iff
each content value keeps accounts consistent. -/
theorem AcceptedLog.statusWF_iff {validates : Bool} {root : AclRootRecord} {key : PrivKey}
    {log : List LogEntry} {l₀ l : AclList} (h : AcceptedLog C validates root key log l₀ l) :
    ((∀ event ∈ logEvents C l₀ log, event.state.StatusWF) ∧ l.aclState.StatusWF) ↔
      ∀ event ∈ logEvents C l₀ log, event.KeepsStatus C := by
  refine h.induction
    (fun events st => ((∀ event ∈ events, event.state.StatusWF) ∧ st.StatusWF) ↔
      ∀ event ∈ events, event.KeepsStatus C)
    (fun aclKeys => ?_) (fun events event st' hevent hG => ?_) (fun events st id hG => hG)
  · have hroot : (AclState.ofRoot C root key aclKeys).StatusWF := by
      intro k a ha
      simp only [AclState.ofRoot, GoMap.lookup_insert_eq] at ha
      split at ha
      · cases ha
        exact consistent_of_active rfl (by simp)
      · cases ha
    simp [hroot]
  · simp only [List.mem_append, List.mem_singleton, or_imp, forall_and, forall_eq]
    rw [← hG]
    constructor
    · rintro ⟨⟨hevents, hst⟩, hst'⟩
      exact ⟨⟨hevents, hst⟩, (hevent.statusWF_iff_keepsStatus hst).mp hst'⟩
    · rintro ⟨⟨hevents, hst⟩, hkeeps⟩
      exact ⟨⟨hevents, hst⟩, (hevent.statusWF_iff_keepsStatus hst).mpr hkeeps⟩

end Status

/-- `alice` asks to join; the owner accepts the request, or adds the account instead. -/
def joinLog (accept : Bool) : List LogEntry :=
  log
    [(owner, [invite]), (alice, [requestJoin alice aliceSignature (recordId 1)]),
     (owner, [if accept then requestAccept alice (recordId 2) .writer
       else accountAdd alice .writer])]

/-- If the request is accepted, all accounts are consistent. -/
theorem statusWF_joinLog :
    ∃ l₀ l, AcceptedLog Sample.C true root observerKey (joinLog true) l₀ l ∧
      l.aclState.StatusWF := by
  have hrun : acceptedLogWith Sample.C true root observerKey (joinLog true)
      (fun l₀ _ => (logEvents Sample.C l₀ (joinLog true)).all fun event =>
        decide (event.content = invite ∨ event.content
            = requestJoin alice aliceSignature (recordId 1) ∨
          event.content
            = requestAccept alice (recordId 2) .writer)) = true := by
    decide +kernel
  obtain ⟨l₀, l, h, hall⟩ := acceptedLog_of_acceptedLogWith hrun
  have hkeeps : ∀ event ∈ logEvents Sample.C l₀ (joinLog true), event.KeepsStatus Sample.C := by
    intro event hevent
    rcases of_decide_eq_true (List.all_eq_true.mp hall event hevent) with hch | hch | hch
    · simp [Event.KeepsStatus, hch, invite]
    · simp [Event.KeepsStatus, hch, requestJoin]
    · simp [Event.KeepsStatus, hch, requestAccept]
  exact ⟨l₀, l, h, (h.statusWF_iff.mpr hkeeps).2⟩

/-- If the account is added, it is active and still has a request to join. -/
theorem not_statusWF_joinLog :
    ∃ l₀ l, AcceptedLog Sample.C true root observerKey (joinLog false) l₀ l ∧
      ¬ l.aclState.StatusWF := by
  have hrun : acceptedLogWith Sample.C true root observerKey (joinLog false)
      (fun _ l => decide ((l.aclState.accountStates.lookup (mapKeyFromPubKey alice)).map
          (·.status) = some .active ∧
        l.aclState.requestType (mapKeyFromPubKey alice) = some .join)) = true := by
    decide +kernel
  obtain ⟨l₀, l, h, htest⟩ := acceptedLog_of_acceptedLogWith hrun
  obtain ⟨hstatus, hrequest⟩ := of_decide_eq_true htest
  obtain ⟨a, ha, hactive⟩ := Option.map_eq_some_iff.mp hstatus
  refine ⟨l₀, l, h, fun hwf => ?_⟩
  have hjoining := (hwf _ a ha).join_iff.mp hrequest
  rw [hactive] at hjoining
  cases hjoining

end Acl
