import AnySync.Acl.Log

/-!
# Owners and admins

Who owns a space and who administers it, along an accepted log.

The results are `AcceptedLog.existsUnique_owner_iff` and `AcceptedLog.admins_iff`.
-/

namespace Acl

open Sample
open AccountState
open AclState (permissionsOf_insert permissionsOf_of_lookup joinedAccount ofRoot addedAccount
  permissionsOf removedAccount)

/-- The account whose request the event accepts. -/
def Event.acceptedAccount (event : Event) : Option PubKey :=
  match event.content with
  | .requestAccept ch =>
    (event.state.requestRecords.lookup ch.requestRecordId).map (·.requestIdentity)
  | _ => none

/-- The permissions of that account at the time of the event. -/
def Event.acceptedPermissions (event : Event) : Option AclPermissions :=
  event.acceptedAccount.map event.state.permissions

/-! ## The owner -/

/-- The account under `k` is an owner. -/
def AclState.Owns (st : AclState) (k : GoString) : Prop := st.permissionsOf k = .owner

/-- What a content value can do to the owners: nothing, or ownership moves from an owner `a` to
the account `b`, or the request of an owner is accepted, who loses ownership by it. -/
inductive OwnersChange (st : AclState) (accepted : Option AclPermissions) (st' : AclState) : Prop
  | same (accepted : accepted ≠ some .owner) (owns : ∀ k, st'.Owns k ↔ st.Owns k)
  | moved {a b : GoString} (accepted : accepted ≠ some .owner) (owner : st.Owns a)
      (owns : ∀ k, st'.Owns k ↔ k = b ∨ st.Owns k ∧ k ≠ a)
  | lost {a : GoString} (accepted : accepted = some .owner) (owner : st.Owns a)
      (owns : ∀ k, st'.Owns k ↔ st.Owns k ∧ k ≠ a)

section Owner

variable {C : Crypto} {st st' : AclState} {record : AclRecord} {ch : AclContentValue}
  {known : List GoString} {k : GoString} {a' : Option AccountState} {r' : Option RequestType}

/-- Except for transfers of ownership and accepted requests, an account stays owner or not. -/
theorem AccountChange.owner_iff (h : AccountChange C st record k ch a' r') (hwf : st.InvitesWF)
    (htransfer : ∀ ch', ch ≠ .ownershipChange ch') (haccept : ∀ ch', ch ≠ .requestAccept ch') :
    permissionsIn a' = .owner ↔ st.permissionsOf k = .owner := by
  cases h with
  | same => rfl
  | permission _ _ _ hknown hnot _ hnew _ =>
    simp [permissionsOf_of_lookup hknown, withPermissions, hnot, hnew]
  | oldOwner => exact absurd rfl (htransfer _)
  | newOwner => exact absurd rfl (htransfer _)
  | added _ _ _ _ hnone hnot _ _ => simp [hnone, addedAccount, hnot]
  | requested _ hnone _ => simp [hnone]
  | accepted => exact absurd rfl (haccept _)
  | inviteJoined _ hnone hfound htype hle =>
    have hjoined := joinedPermissions_ne_owner hle (hwf _ _ hfound htype).2.1
    simp [hnone, joinedAccount, hjoined]
  | declined _ _ _ _ hknown => simp [permissionsOf_of_lookup hknown]
  | canceled _ _ _ hknown => simp [permissionsOf_of_lookup hknown]
  | removing _ hknown _ _ => simp [permissionsOf_of_lookup hknown]
  | removed _ hremovable hkey hknown =>
    have hnot : st.permissionsOf k ≠ .owner := hkey ▸ hremovable.not_owner
    simp [removedAccount, hnot]

/-- What an event does to the owners. -/
theorem Event.Leads.ownersChange {event : Event} (h : event.Leads C st') :
    OwnersChange event.state event.acceptedPermissions st' := by
  have hsame : (∀ ch', event.content ≠ .ownershipChange ch') →
      (∀ ch', event.content ≠ .requestAccept ch') → ∀ k, st'.Owns k ↔ event.state.Owns k :=
    fun htransfer haccept k => (h.accountChange k).owner_iff h.invitesWF htransfer haccept
  have ht := h.transition
  obtain ⟨record, order, position, st, ch⟩ := event
  cases ht with
  | @ownershipChange ch newOwner state hauthor hid hknown _ _ hnot hold _ =>
    -- the author is the owner and the account is not
    have hne : mapKeyFromPubKey newOwner ≠ mapKeyFromPubKey record.identity := by
      intro heq
      rw [mapKeyFromPubKey_injective heq] at hknown
      exact hnot ((AclState.permissions_of_lookup hknown).symm.trans hauthor)
    refine .moved (b := mapKeyFromPubKey newOwner)
      (by simp [acceptedPermissions, acceptedAccount]) hauthor fun k => ?_
    rw [AclState.Owns, permissionsOf_insert rfl, permissionsOf_insert rfl]
    by_cases hnew : k = mapKeyFromPubKey newOwner
    · simp [hnew, withPermissions]
    · by_cases hk : k = mapKeyFromPubKey record.identity
      · simp [hk, hne.symm, withPermissions, hold]
      · simp [hnew, hk, AclState.Owns]
  | @requestAccept ch request keys _ hfound _ hnot _ =>
    have haccepted : Event.acceptedPermissions ⟨record, order, position, st, .requestAccept ch⟩
        = some (st.permissions request.requestIdentity) := by
      simp [acceptedPermissions, acceptedAccount, hfound]
    by_cases howner : st.Owns (mapKeyFromPubKey request.requestIdentity)
    · -- the owner is given other permissions, and nobody is the owner then
      refine .lost (haccepted.trans (congrArg some howner)) howner fun k => ?_
      rw [AclState.Owns, permissionsOf_insert rfl]
      by_cases hk : k = mapKeyFromPubKey request.requestIdentity
      · simp [hk, joinedAccount, hnot]
      · simp [hk, AclState.Owns]
    · refine .same (fun h => howner (Option.some.inj (haccepted.symm.trans h))) fun k => ?_
      rw [AclState.Owns, permissionsOf_insert rfl]
      by_cases hk : k = mapKeyFromPubKey request.requestIdentity
      · simp [hk, joinedAccount, hnot, howner]
      · simp [hk, AclState.Owns]
  | _ => exact .same (by simp [acceptedPermissions, acceptedAccount]) (hsame (by simp) (by simp))

/-- An accepted log leads to a state with exactly one owner iff no request of an account that was
the owner at that time was accepted. Without an owner a space stays without one. -/
theorem AcceptedLog.existsUnique_owner_iff {validates : Bool} {root : AclRootRecord}
    {key : PrivKey} {log : List LogEntry} {l₀ l : AclList}
    (h : AcceptedLog C validates root key log l₀ l) :
    (∃! k, l.aclState.permissionsOf k = .owner) ↔
      ∀ event ∈ logEvents C l₀ log, event.acceptedPermissions ≠ some .owner := by
  -- there is never more than one owner, and a space that lost its owner stays without one
  have hinv := h.induction
    (fun events st => (∀ k k', st.Owns k → st.Owns k' → k = k') ∧
      ((∃ k, st.Owns k) ↔ ∀ event ∈ events, event.acceptedPermissions ≠ some .owner))
    (fun aclKeys => ?_) (fun events event st' hevent hG => ?_)
    (fun events st id hG => hG)
  · rw [← hinv.2]
    constructor
    · rintro ⟨k, hk, -⟩
      exact ⟨k, hk⟩
    · rintro ⟨k, hk⟩
      exact ⟨k, hk, fun k' hk' => hinv.1 k' k hk' hk⟩
  · have howns : ∀ k, (ofRoot C root key aclKeys).Owns k
        ↔ k = mapKeyFromPubKey root.identity := by
      intro k
      rw [AclState.Owns, permissionsOf, ofRoot, GoMap.lookup_insert_eq]
      by_cases hk : k = mapKeyFromPubKey root.identity
      · simp [hk]
      · simp [hk]
    simp only [howns]
    exact ⟨fun k k' hk hk' => hk.trans hk'.symm, by simp⟩
  · obtain ⟨hunique, hiff⟩ := hG
    simp only [List.mem_append, List.mem_singleton, or_imp, forall_and, forall_eq]
    rw [← hiff]
    cases hevent.ownersChange with
    | same haccepted howns =>
      simp only [howns]
      exact ⟨hunique, by simp [haccepted]⟩
    | @moved a b haccepted howner howns =>
      have hb : ∀ k, st'.Owns k ↔ k = b := by
        intro k
        rw [howns]
        refine ⟨?_, .inl⟩
        rintro (hk | ⟨hk, hne⟩)
        · exact hk
        · exact absurd (hunique k a hk howner) hne
      simp only [hb]
      exact ⟨fun k k' hk hk' => hk.trans hk'.symm, by simpa [haccepted] using ⟨a, howner⟩⟩
    | @lost a haccepted howner howns =>
      have hnone : ∀ k, ¬ st'.Owns k := by
        intro k hk
        obtain ⟨hk, hne⟩ := (howns k).mp hk
        exact hne (hunique k a hk howner)
      simp [hnone, haccepted]

end Owner

/-- The request of `alice` to join stays open when the owner adds the account; the owner gives the
ownership to `alice` and then, as an admin, accepts the request. -/
def leftoverJoinLog : List LogEntry :=
  log
    [(owner, [invite]), (alice, [requestJoin alice aliceSignature (recordId 1)]),
     (owner, [accountAdd alice .writer]),
     (owner, [ownershipChange alice .admin]),
     (owner, [requestAccept alice (recordId 2) .writer])]

/-- Up to the last record the owner is unique. -/
theorem existsUnique_owner_leftoverJoinLog :
    ∃ l₀ l, AcceptedLog Sample.C true root observerKey (leftoverJoinLog.take 4) l₀ l ∧
      ∃! k, l.aclState.permissionsOf k = .owner := by
  have hrun : acceptedLogWith Sample.C true root observerKey (leftoverJoinLog.take 4)
      (fun l₀ _ => (logEvents Sample.C l₀ (leftoverJoinLog.take 4)).all
        fun event => decide (event.acceptedPermissions ≠ some .owner)) = true := by
    decide +kernel
  obtain ⟨l₀, l, h, hevents⟩ := acceptedLog_of_acceptedLogWith hrun
  exact ⟨l₀, l, h, h.existsUnique_owner_iff.mpr (by simpa using hevents)⟩

/-- After the last record there is no owner. -/
theorem no_owner_leftoverJoinLog :
    ∃ l₀ l, AcceptedLog Sample.C true root observerKey leftoverJoinLog l₀ l ∧
      ¬ ∃! k, l.aclState.permissionsOf k = .owner := by
  have hrun : acceptedLogWith Sample.C true root observerKey leftoverJoinLog
      (fun _ l => l.aclState.currentAccounts.all fun a => decide (a.permissions ≠ .owner))
        = true := by
    decide +kernel
  obtain ⟨l₀, l, h, hnone⟩ := acceptedLog_of_acceptedLogWith hrun
  refine ⟨l₀, l, h, fun ⟨k, hk, _⟩ => ?_⟩
  rcases hlookup : l.aclState.accountStates.lookup k with _ | a
  · simp [permissionsOf, hlookup] at hk
  · have hmem : a ∈ l.aclState.currentAccounts :=
      List.mem_map_of_mem (f := Sigma.snd) (GoMap.lookup_eq_some_iff.mp hlookup)
    have howner : a.permissions = .owner := (permissionsOf_of_lookup hlookup).symm.trans hk
    simpa [howner] using List.all_eq_true.mp hnone a hmem

/-! ## Admins -/

/-- The permissions that the event gives to the invite of the record `id`, if it sets them. -/
def Event.setsInvite (event : Event) (id : GoString) : Option AclPermissions :=
  match event.content with
  | .invite ch => if event.record.id = id then some ch.permissions else none
  | .inviteChange ch => if ch.inviteRecordId = id then some ch.permissions else none
  | _ => none

/-- The last of `events` that set the permissions of the invite of the record `id` gave it
`permissions`, and `author` says of it who did. -/
def InviteSetBy (events : List Event) (id : GoString) (permissions : AclPermissions)
    (author : Event → Prop) : Prop :=
  ∃ pre setting post, events = pre ++ setting :: post ∧
    setting.setsInvite id = some permissions ∧ author setting ∧
    ∀ event ∈ post, event.setsInvite id = none

/-- The event was caused by an owner. -/
def Event.ByOwner (event : Event) : Prop :=
  event.state.permissions event.record.identity = .owner

section Admin

variable {C : Crypto} {st' : AclState} {event : Event} {events : List Event} {id : GoString}
  {k : GoString} {permissions : AclPermissions} {author : Event → Prop}

theorem InviteSetBy.of_last (hset : event.setsInvite id = some permissions)
    (hauthor : author event) : InviteSetBy (events ++ [event]) id permissions author :=
  ⟨events, event, [], rfl, hset, hauthor, by simp⟩

theorem InviteSetBy.append (h : InviteSetBy events id permissions author)
    (hset : event.setsInvite id = none) :
    InviteSetBy (events ++ [event]) id permissions author := by
  obtain ⟨pre, setting, post, rfl, hperms, hauthor, hpost⟩ := h
  refine ⟨pre, setting, post ++ [event], by simp, hperms, hauthor, fun event' hmem => ?_⟩
  rcases List.mem_append.mp hmem with hmem | hmem
  · exact hpost event' hmem
  · rw [List.mem_singleton.mp hmem, hset]

/-- An invite after an event was set by it, and to Admin only by an owner, or was there before
with the same permissions. -/
theorem Event.Leads.invite (h : event.Leads C st') {invite' : Invite}
    (hinvite : st'.invites.lookup id = some invite') :
    (event.setsInvite id = some invite'.permissions ∧
        (invite'.type = .anyoneCanJoin → invite'.permissions = .admin → event.ByOwner)) ∨
      (event.setsInvite id = none ∧ ∃ invite, event.state.invites.lookup id = some invite ∧
        invite.type = invite'.type ∧ invite.permissions = invite'.permissions) := by
  -- new keys do not change what an invite grants
  have hsame : ∀ {invites}, SameInvites event.state.invites invites →
      invites.lookup id = some invite' → ∃ invite, event.state.invites.lookup id = some invite ∧
        invite.type = invite'.type ∧ invite.permissions = invite'.permissions := by
    intro invites hsame hlookup
    have hinvite := hsame id
    rw [hlookup, Option.map_some, eq_comm, Option.map_eq_some_iff] at hinvite
    obtain ⟨invite, hold, hkeep⟩ := hinvite
    simp only [Invite.withoutKey, Invite.mk.injEq] at hkeep
    exact ⟨invite, hold, hkeep.2.1, hkeep.2.2.1⟩
  have ht := h.transition
  obtain ⟨record, order, position, st, ch⟩ := event
  cases ht with
  | @inviteChange ch invite _ hfound htype _ _ _ _ hadmin =>
    rw [GoMap.lookup_insert_eq] at hinvite
    by_cases hid : id = ch.inviteRecordId
    · rw [if_pos hid] at hinvite
      cases hinvite
      exact .inl ⟨by simp [setsInvite, hid], fun _ => hadmin⟩
    · rw [if_neg hid] at hinvite
      exact .inr ⟨by simp [setsInvite, Ne.symm hid], invite', hinvite, rfl, rfl⟩
  | @invite ch inviteKey _ _ _ _ _ hadmin _ =>
    rw [GoMap.lookup_insert_eq] at hinvite
    by_cases hid : id = record.id
    · rw [if_pos hid] at hinvite
      cases hinvite
      exact .inl ⟨by simp [setsInvite, hid], hadmin⟩
    · rw [if_neg hid] at hinvite
      exact .inr ⟨by simp [setsInvite, Ne.symm hid], invite', hinvite, rfl, rfl⟩
  | inviteRevoke =>
    rw [GoMap.lookup_erase_eq] at hinvite
    split at hinvite
    · cases hinvite
    · exact .inr ⟨rfl, invite', hinvite, rfl, rfl⟩
  | inviteJoin =>
    rw [AclState.dropRequestOf_eq] at hinvite
    exact .inr ⟨rfl, invite', hinvite, rfl, rfl⟩
  | accountRemove _ _ _ _ _ _ hinvites => exact .inr ⟨rfl, hsame hinvites hinvite⟩
  | readKeyChange _ _ hinvites => exact .inr ⟨rfl, hsame hinvites hinvite⟩
  | _ => exact .inr ⟨rfl, invite', hinvite, rfl, rfl⟩

/-- If the author is not the owner, another account stays admin or not, unless its request is
accepted. -/
theorem AccountChange.admin_iff {st : AclState} {record : AclRecord} {ch : AclContentValue}
    {a' : Option AccountState} {r' : Option RequestType} (h : AccountChange C st record k ch a' r')
    (howner : st.permissions record.identity ≠ .owner) (hk : k ≠ mapKeyFromPubKey record.identity)
    (haccept : ∀ ch', ch ≠ .requestAccept ch') :
    permissionsIn a' = .admin ↔ st.permissionsOf k = .admin := by
  cases h with
  | same => rfl
  | permission _ _ _ hknown _ hwas _ hnew =>
    have hwas' := fun h => howner (hwas h)
    have hnew' := fun h => howner (hnew h)
    simp only [permissionsIn_some, withPermissions, permissionsOf_of_lookup hknown]
    exact ⟨fun h => absurd h hnew', fun h => absurd h hwas'⟩
  | oldOwner hkey => exact absurd hkey hk
  | newOwner hauthor => exact absurd hauthor howner
  | added _ _ _ _ hnone _ _ hadmin =>
    have hnew := fun h => howner (hadmin h)
    simp only [permissionsIn_some, addedAccount, hnone]
    refine ⟨fun h => absurd h hnew, fun h => ?_⟩
    cases h
  | requested hkey => exact absurd hkey hk
  | accepted => exact absurd rfl (haccept _)
  | inviteJoined hkey => exact absurd hkey hk
  | declined _ _ _ _ hknown => simp [permissionsOf_of_lookup hknown]
  | canceled _ hkey => exact absurd hkey hk
  | removing hkey => exact absurd hkey hk
  | removed _ hremovable hkey hknown =>
    have hnot : st.permissionsOf k ≠ .admin := hkey ▸ fun h => howner (hremovable.admin h)
    simp [removedAccount, hnot]

/-- A request is accepted with Admin only by the owner. -/
theorem Event.Leads.admin_of_accepted (h : event.Leads C st') (howner : ¬ event.ByOwner)
    {account : PubKey} (haccepted : event.acceptedAccount = some account) :
    st'.permissionsOf (mapKeyFromPubKey account) ≠ .admin ∧
      ∀ k ≠ mapKeyFromPubKey account, st'.permissionsOf k = event.state.permissionsOf k := by
  have ht := h.transition
  obtain ⟨record, order, position, st, ch⟩ := event
  cases ht with
  | @requestAccept ch request keys _ hfound _ _ hadmin =>
    simp only [acceptedAccount, hfound, Option.map_some, Option.some.injEq] at haccepted
    subst haccepted
    refine ⟨?_, fun k hk => ?_⟩
    · rw [permissionsOf_insert rfl, if_pos rfl]
      exact fun h => howner (hadmin h)
    · rw [permissionsOf_insert rfl, if_neg hk]
  | _ => cases haccepted

/-- A content value whose author is not the owner changes which other accounts are admins iff it
accepts a request of one of them. -/
theorem Event.Leads.otherAdmins_iff (h : event.Leads C st') (howner : ¬ event.ByOwner) :
    (∀ k ≠ mapKeyFromPubKey event.record.identity,
        (st'.permissionsOf k = .admin ↔ event.state.permissionsOf k = .admin)) ↔
      ∀ account, event.acceptedAccount = some account → account ≠ event.record.identity →
        event.state.permissions account ≠ .admin := by
  cases haccepted : event.acceptedAccount with
  | some account =>
    obtain ⟨hnot, hother⟩ := h.admin_of_accepted howner haccepted
    simp only [Option.some.injEq, forall_eq']
    constructor
    · intro hall hne hadmin
      exact hnot ((hall _ (by simpa using hne)).mpr hadmin)
    · intro hkeep k hk
      by_cases hkey : k = mapKeyFromPubKey account
      · subst hkey
        exact iff_of_false hnot (hkeep (by simpa using hk))
      · rw [hother k hkey]
  | none =>
    have haccept : ∀ ch', event.content ≠ .requestAccept ch' := by
      intro ch' hch
      have ht := h.transition
      rw [hch] at ht
      cases ht with
      | requestAccept _ hfound => simp [acceptedAccount, hch, hfound] at haccepted
    exact ⟨fun _ => by simp, fun _ k hk => (h.accountChange k).admin_iff howner hk haccept⟩

/-- Every invite has the permissions that the last event about it gave it, and an invite that
anyone can join by has Admin permissions only from an owner. -/
def AclState.InvitesSetBy (events : List Event) (st : AclState) : Prop :=
  ∀ id invite, st.invites.lookup id = some invite →
    InviteSetBy events id invite.permissions fun setting =>
      invite.type = .anyoneCanJoin → invite.permissions = .admin → setting.ByOwner

theorem Event.Leads.invitesSetBy (h : event.Leads C st')
    (hset : event.state.InvitesSetBy events) : st'.InvitesSetBy (events ++ [event]) := by
  intro id invite' hinvite
  rcases h.invite hinvite with ⟨hsets, howner⟩ | ⟨hsets, invite, hold, htype, hperms⟩
  · exact .of_last hsets howner
  · have hbefore := hset id invite hold
    rw [htype, hperms] at hbefore
    exact hbefore.append hsets

/-- An account that becomes admin by a join got the Admin permissions of the invite. -/
theorem Event.Leads.admin_of_inviteJoin (h : event.Leads C st') {ch : AclAccountInviteJoin}
    (hch : event.content = .inviteJoin ch)
    (hadmin : st'.permissionsOf (mapKeyFromPubKey event.record.identity) = .admin) :
    ∃ invite, event.state.invites.lookup ch.inviteRecordId = some invite ∧
      invite.type = .anyoneCanJoin ∧ invite.permissions = .admin := by
  have ht := h.transition
  obtain ⟨record, order, position, st, content⟩ := event
  obtain rfl : content = .inviteJoin ch := hch
  cases ht with
  | @inviteJoin _ invite keyRecordId ord value keys _ hfound htype hle _ _ _ =>
    refine ⟨invite, hfound, htype, ?_⟩
    rw [permissionsOf_insert (AclState.accountStates_dropRequestOf _ _ _ _), if_pos rfl] at hadmin
    simp only [joinedAccount] at hadmin
    split at hadmin
    · exact hadmin
    · simp only [hadmin, AclPermissions.isLessOrEqual, decide_eq_true_eq] at hle
      exact hle.symm

/-- Only the owner decides who is an admin, up to accepted requests: for each content value that
took effect in an accepted log and whose author was not the owner, which other accounts are
admins changes iff the content value accepts a request of an account that is an admin; and an
author who becomes admin by an invite does so by one that an owner gave Admin permissions. -/
theorem AcceptedLog.admins_iff {validates : Bool} {root : AclRootRecord} {key : PrivKey}
    {log : List LogEntry} {l₀ l : AclList} (h : AcceptedLog C validates root key log l₀ l)
    {before after : List Event} (hevents : logEvents C l₀ log = before ++ event :: after)
    (howner : event.state.permissions event.record.identity ≠ .owner) :
    ∃ st', event.apply C = .ok st' ∧
      ((∀ k ≠ mapKeyFromPubKey event.record.identity,
          (st'.permissionsOf k = .admin ↔ event.state.permissionsOf k = .admin)) ↔
        ∀ account, event.acceptedAccount = some account → account ≠ event.record.identity →
          event.state.permissions account ≠ .admin) ∧
      ∀ ch, event.content = .inviteJoin ch →
        st'.permissionsOf (mapKeyFromPubKey event.record.identity) = .admin →
        InviteSetBy before ch.inviteRecordId .admin Event.ByOwner := by
  obtain ⟨hset, st', hleads⟩ := h.of_event (fun events st => st.InvitesSetBy events)
    (fun _ _ _ hinvite => by cases hinvite)
    (fun events event st' hevent hset => hevent.invitesSetBy hset) (fun _ _ _ hG => hG) hevents
  refine ⟨st', hleads.apply, hleads.otherAdmins_iff howner, fun ch hch hadmin => ?_⟩
  obtain ⟨invite, hfound, htype, hperms⟩ := hleads.admin_of_inviteJoin hch hadmin
  obtain ⟨pre, setting, post, hsplit, hsets, hby, hpost⟩ := hset ch.inviteRecordId invite hfound
  exact ⟨pre, setting, post, hsplit, hperms ▸ hsets, hby htype hperms, hpost⟩

end Admin

/-- The request of `alice` to join stays open when the owner makes `alice` an admin, and `bob`,
another admin, accepts it. -/
def demotedAdminLog : List LogEntry :=
  log
    [(owner, [invite]), (alice, [requestJoin alice aliceSignature (recordId 1)]),
     (owner, [accountAdd alice .admin, accountAdd bob .admin]),
     (bob, [requestAccept alice (recordId 2) .writer])]

/-- `alice` was an admin and is none afterwards, though `bob` is not the owner. -/
theorem admins_differ_demotedAdminLog :
    ∃ l₀ l before event st',
      AcceptedLog Sample.C true root observerKey demotedAdminLog l₀ l ∧
      logEvents Sample.C l₀ demotedAdminLog = before ++ [event] ∧
      event.state.permissions event.record.identity ≠ .owner ∧ event.apply Sample.C = .ok st' ∧
      ¬ ∀ k ≠ mapKeyFromPubKey event.record.identity,
        (st'.permissionsOf k = .admin ↔ event.state.permissionsOf k = .admin) := by
  have hrun : acceptedLogWith Sample.C true root observerKey demotedAdminLog
      (fun l₀ _ => lastEventWith Sample.C l₀ demotedAdminLog fun event st' =>
        decide (event.record.identity = bob ∧
          event.state.permissions event.record.identity ≠ .owner ∧
          event.state.permissions alice = .admin ∧
          st'.permissions alice = .writer)) = true := by
    decide +kernel
  obtain ⟨l₀, l, h, hlast⟩ := acceptedLog_of_acceptedLogWith hrun
  obtain ⟨before, event, st', hevents, happly, htest⟩ := exists_of_lastEventWith hlast
  obtain ⟨hauthor, howner, hadmin, hwriter⟩ := of_decide_eq_true htest
  refine ⟨l₀, l, before, event, st', h, hevents, howner, happly, fun hall => ?_⟩
  have hne : mapKeyFromPubKey alice ≠ mapKeyFromPubKey event.record.identity := by
    rw [hauthor]
    decide
  rw [AclState.permissions_eq] at hadmin hwriter
  have hstill := (hall _ hne).mpr hadmin
  rw [hwriter] at hstill
  cases hstill

/-- `alice` joins by an invite for admins. -/
def adminInviteLog : List LogEntry :=
  log
    [(owner, [openInvite .admin, accountAdd bob .admin]),
     (alice, [inviteJoin alice aliceSignature (recordId 1)])]

/-- The join of `alice` leaves the other admins alone, and the owner made the invite. -/
theorem admins_adminInviteLog :
    ∃ l₀ l before event st',
      AcceptedLog Sample.C true root observerKey adminInviteLog l₀ l ∧
      logEvents Sample.C l₀ adminInviteLog = before ++ [event] ∧
      event.state.permissions event.record.identity ≠ .owner ∧ event.apply Sample.C = .ok st' ∧
      st'.permissionsOf (mapKeyFromPubKey event.record.identity) = .admin ∧
      (∀ k ≠ mapKeyFromPubKey event.record.identity,
        (st'.permissionsOf k = .admin ↔ event.state.permissionsOf k = .admin)) ∧
      InviteSetBy before (recordId 1) .admin Event.ByOwner := by
  have hrun : acceptedLogWith Sample.C true root observerKey adminInviteLog
      (fun l₀ _ => lastEventWith Sample.C l₀ adminInviteLog fun event st' =>
        decide (event.content = inviteJoin alice aliceSignature (recordId 1) ∧
          event.state.permissions event.record.identity ≠ .owner ∧
          event.acceptedAccount = none ∧
          st'.permissionsOf (mapKeyFromPubKey event.record.identity) = .admin)) = true := by
    decide +kernel
  obtain ⟨l₀, l, h, hlast⟩ := acceptedLog_of_acceptedLogWith hrun
  obtain ⟨before, event, st', hevents, happly, htest⟩ := exists_of_lastEventWith hlast
  obtain ⟨hjoin, howner, haccepted, hadmin⟩ := of_decide_eq_true htest
  obtain ⟨st'', happly', hiff, hinvite⟩ := h.admins_iff hevents howner
  obtain rfl := Except.ok.inj (happly.symm.trans happly')
  exact ⟨l₀, l, before, event, st', h, hevents, howner, happly, hadmin,
    hiff.mpr (by simp [haccepted]), hinvite _ hjoin hadmin⟩

end Acl
