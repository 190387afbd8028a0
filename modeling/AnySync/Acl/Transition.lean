import Mathlib.Data.List.Induction
import AnySync.Acl.List

/-!
# What one content value can do

`Transition C st record ch st'` says everything the validated application of the content value
`ch` of `record` in state `st` can do: what the validator has checked and the state `st'` it
ends in. `transition_of_apply` is the only place where the handlers are taken apart; every
invariant of the ACL is proved from `Transition`.

A batch of permission changes is a sequence of single ones (`applyChangeContent_flatten`), so it
has no transition of its own.
-/

namespace Acl

open ContentValidator
open Except (bind_eq_ok)
open AclPermissions (canManageAccounts_iff isOwner_eq_false noPermissions_eq_false
  noPermissions_iff isOwner_iff isGuest_eq_false)
open Bool (not_eq_false' or_eq_false_iff)

/-! ## Small specifications -/

variable {C : Crypto} {st : AclState} {identity : PubKey}

@[simp]
theorem Crypto.pubKeyFromProto_eq_ok {b : Bytes} {k : PubKey} :
    C.pubKeyFromProto b = .ok k ↔ C.unmarshalPublicKey b = some k := by
  unfold Crypto.pubKeyFromProto
  cases C.unmarshalPublicKey b <;> simp

theorem ContentValidator.check_of_shouldValidate {v : ContentValidator}
    (hv : v.shouldValidate = true) (body : Except AclError Unit) : v.check body = body := by
  simp [check, hv]

@[simp]
theorem AclState.currentReadKeyId_eq_ok {id : GoString} :
    st.currentReadKeyId = .ok id ↔ st.readKeyChanges.getLast? = some id := by
  unfold AclState.currentReadKeyId
  cases st.readKeyChanges.getLast? <;> simp

theorem AclState.permissions_of_lookup {a : AccountState}
    (h : st.accountStates.lookup (mapKeyFromPubKey identity) = some a) :
    st.permissions identity = a.permissions := by
  simp [AclState.permissions, h]

/-- Whoever has permissions has an account. -/
theorem AclState.lookup_of_permissions_ne_none (h : st.permissions identity ≠ .none) :
    ∃ a, st.accountStates.lookup (mapKeyFromPubKey identity) = some a ∧
      a.permissions = st.permissions identity := by
  unfold AclState.permissions at h ⊢
  cases ha : st.accountStates.lookup (mapKeyFromPubKey identity) with
  | none => simp [ha] at h
  | some a => exact ⟨a, rfl, rfl⟩

/-- The author may manage accounts. -/
def AclState.CanManage (st : AclState) (author : PubKey) : Prop :=
  st.permissions author = .admin ∨ st.permissions author = .owner

/-- Unpacking a read key touches the keys only. -/
theorem AclState.unpackIfOurs_spec {st' : AclState} {key : Option Bytes}
    (h : st.unpackIfOurs C identity key = .ok st') : ∃ keys, st' = { st with keys := keys } := by
  unfold AclState.unpackIfOurs at h
  split at h
  · simp only [AclState.unpackAllKeys, bind_eq_ok] at h
    obtain ⟨_, _, keys, _, hst⟩ := h
    exact ⟨keys, (Except.ok.inj hst).symm⟩
  · exact ⟨st.keys, (Except.ok.inj h).symm⟩

/-! ## Rotation -/

/-- What all but the stored read key of an invite is. -/
def Invite.withoutKey (invite : Invite) : Invite := { invite with encryptedReadKey := none }

/-- The invites are the same up to their read keys. -/
def SameInvites (invites invites' : GoMap GoString Invite) : Prop :=
  ∀ id, (invites'.lookup id).map Invite.withoutKey = (invites.lookup id).map Invite.withoutKey

theorem SameInvites.refl (invites : GoMap GoString Invite) : SameInvites invites invites :=
  fun _ => rfl

theorem SameInvites.trans {m₁ m₂ m₃ : GoMap GoString Invite} (h₁ : SameInvites m₁ m₂)
    (h₂ : SameInvites m₂ m₃) : SameInvites m₁ m₃ :=
  fun id => (h₂ id).trans (h₁ id)

namespace AclState

variable {C : Crypto} {v : ContentValidator} {st st' : AclState} {record : AclRecord}
  {ord : RangeOrder} {value : ℕ}

theorem updateInviteKey_spec {step : ℕ} {encKey : AclEncryptedReadKey}
    (h : st.updateInviteKey C ord value step encKey = .ok st') :
    ∃ invites, SameInvites st.invites invites ∧ st' = { st with invites := invites } := by
  simp only [updateInviteKey, bind_eq_ok] at h
  obtain ⟨invKey, -, h⟩ := h
  split at h
  · exact ⟨st.invites, .refl _, (Except.ok.inj h).symm⟩
  · refine ⟨_, fun id => ?_, (Except.ok.inj h).symm⟩
    rw [GoMap.lookup_adjust_eq]
    split
    · cases st.invites.lookup id <;> rfl
    · rfl

/-- A read key change rewrites the invites' encrypted keys and nothing else. -/
theorem updateInviteKeys_spec {keys : List AclEncryptedReadKey}
    (h : st.updateInviteKeys C ord value keys = .ok st') :
    ∃ invites, SameInvites st.invites invites ∧ st' = { st with invites := invites } := by
  refine foldlM_invariant
    (fun s => ∃ invites, SameInvites st.invites invites ∧ s = { st with invites := invites })
    (fun s e s' hs hstep => ?_) ⟨st.invites, .refl _, rfl⟩ h
  obtain ⟨invites, hsame, rfl⟩ := hs
  obtain ⟨invites', hsame', rfl⟩ := updateInviteKey_spec hstep
  exact ⟨invites', hsame.trans hsame', rfl⟩

/-- A read key change adds the record to the read key changes and its keys to the keys, and may
replace the read keys of invites. -/
theorem changeReadKey_spec {ch : Option AclReadKeyChange}
    (h : st.changeReadKey C record ord value ch = .ok st') :
    ∃ rkc invites aclKeys, ch = some rkc ∧ SameInvites st.invites invites ∧
      st' = { st with
        readKeyChanges := st.readKeyChanges ++ [record.id]
        invites := invites
        keys := st.keys.insert record.id aclKeys } := by
  cases ch with
  | none => cases h
  | some rkc =>
    simp only [changeReadKey, storeReadKey, bind_eq_ok] at h
    obtain ⟨_, -, _, -, s, hs, _, -, hst⟩ := h
    obtain ⟨invites, hsame, rfl⟩ := updateInviteKeys_spec hs
    exact ⟨rkc, invites, _, rfl, hsame, (Except.ok.inj hst).symm⟩

end AclState

variable {C : Crypto} {st : AclState}

/-- The read key change addresses its key to exactly the accounts with permissions that are not
in `removed`, and to exactly the invites anyone can join by. -/
def RotationAddresses (C : Crypto) (st : AclState) (removed : List GoString)
    (ch : AclReadKeyChange) : Prop :=
  ∃ users updatedUsers updatedInvites,
    activeUsers st removed = .ok users ∧
    addressees C ch.accountKeys = .ok updatedUsers ∧
    addressees C ch.inviteKeys = .ok updatedInvites ∧
    users.Perm updatedUsers ∧ (activeInvites st).Perm updatedInvites

theorem ContentValidator.validateReadKeyChangeRemoving_spec {v : ContentValidator}
    {ch : AclReadKeyChange} {removed : List GoString} {u : Unit} (hv : v.shouldValidate = true)
    (h : validateReadKeyChangeRemoving C v st (some ch) removed = .ok u) :
    RotationAddresses C st removed ch := by
  simp only [validateReadKeyChangeRemoving, check_of_shouldValidate hv, bind_eq_ok,
    failIf_eq_ok, or_eq_false_iff, decide_eq_false_iff_not, not_not, ne_eq] at h
  obtain ⟨_, _, _, _, users, husers, updatedUsers, hupdated, updatedInvites, hinvites, _, _, _, _,
    hsort, hsort'⟩ := h
  exact ⟨users, updatedUsers, updatedInvites, husers, hupdated, hinvites,
    (sortStrings_eq_iff_perm _ _).mp hsort, (sortStrings_eq_iff_perm _ _).mp hsort'⟩

/-! ## Batches -/

/-- The accounts after a batch of additions. -/
def accountsWith (C : Crypto) (record : AclRecord) (keyRecordId : GoString)
    (accounts : GoMap GoString AccountState) (additions : List AclAccountAdd) :
    GoMap GoString AccountState :=
  additions.foldl (fun m acc =>
    match C.unmarshalPublicKey acc.identity with
    | none => m
    | some identity =>
      m.insert (mapKeyFromPubKey identity)
        (AclState.addedAccount record keyRecordId identity acc)) accounts

/-- An account after a batch of additions is as before or as one of the additions made it. -/
theorem lookup_accountsWith (C : Crypto) (record : AclRecord) (keyRecordId k : GoString)
    (accounts : GoMap GoString AccountState) (additions : List AclAccountAdd) :
    (∃ acc ∈ additions, ∃ identity, C.unmarshalPublicKey acc.identity = some identity ∧
        mapKeyFromPubKey identity = k ∧
        (accountsWith C record keyRecordId accounts additions).lookup k
          = some (AclState.addedAccount record keyRecordId identity acc)) ∨
      ((∀ acc ∈ additions, ∀ identity, C.unmarshalPublicKey acc.identity = some identity →
          mapKeyFromPubKey identity ≠ k) ∧
        (accountsWith C record keyRecordId accounts additions).lookup k = accounts.lookup k) := by
  -- the last addition of an account counts
  induction additions using List.reverseRecOn with
  | nil => exact .inr ⟨by simp, rfl⟩
  | append_singleton additions acc ih =>
    have hlast : accountsWith C record keyRecordId accounts (additions ++ [acc])
        = match C.unmarshalPublicKey acc.identity with
          | none => accountsWith C record keyRecordId accounts additions
          | some identity =>
            (accountsWith C record keyRecordId accounts additions).insert
              (mapKeyFromPubKey identity)
              (AclState.addedAccount record keyRecordId identity acc) := by
      simp [accountsWith]
    rw [hlast]
    cases hid : C.unmarshalPublicKey acc.identity with
    | none =>
      rcases ih with ⟨acc', hmem, h⟩ | ⟨hnone, h⟩
      · exact .inl ⟨acc', by simp [hmem], h⟩
      · refine .inr ⟨fun acc' hmem identity hid' => ?_, h⟩
        rcases List.mem_append.mp hmem with hmem | hmem
        · exact hnone acc' hmem identity hid'
        · rw [List.mem_singleton.mp hmem, hid] at hid'
          cases hid'
    | some identity =>
      by_cases hk : mapKeyFromPubKey identity = k
      · exact .inl ⟨acc, by simp, identity, hid, hk, by rw [← hk]; simp⟩
      · simp only [GoMap.lookup_insert_eq, if_neg (Ne.symm hk)]
        rcases ih with ⟨acc', hmem, h⟩ | ⟨hnone, h⟩
        · exact .inl ⟨acc', by simp [hmem], h⟩
        · refine .inr ⟨fun acc' hmem identity' hid' => ?_, h⟩
          rcases List.mem_append.mp hmem with hmem | hmem
          · exact hnone acc' hmem identity' hid'
          · rw [List.mem_singleton.mp hmem, hid] at hid'
            rwa [← Option.some.inj hid']

/-- A batch of additions changes the accounts and the keys. -/
theorem AclState.foldlM_addAccount_spec {st' : AclState} {record : AclRecord}
    {keyRecordId : GoString} {additions : List AclAccountAdd}
    (hkey : st.readKeyChanges.getLast? = some keyRecordId)
    (h : additions.foldlM (fun st acc => st.addAccount C record acc) st = .ok st') :
    ∃ keys, st' = { st with
      accountStates := accountsWith C record keyRecordId st.accountStates additions
      keys := keys } := by
  induction additions generalizing st with
  | nil => exact ⟨st.keys, (Except.ok.inj h).symm⟩
  | cons acc additions ih =>
    obtain ⟨m, hm, hrest⟩ := foldlM_cons_eq_ok.mp h
    simp only [addAccount, bind_eq_ok, Crypto.pubKeyFromProto_eq_ok, currentReadKeyId_eq_ok] at hm
    obtain ⟨identity, hid, keyRecordId', hkey', hm⟩ := hm
    obtain rfl := Option.some.inj (hkey.symm.trans hkey')
    obtain ⟨keys, rfl⟩ := unpackIfOurs_spec hm
    obtain ⟨keys', rfl⟩ := ih (by simpa using hkey) hrest
    refine ⟨keys', ?_⟩
    simp [accountsWith, hid]

/-- The state without the account `identity`, if it is known. -/
def AclState.without (record : AclRecord) (st : AclState) (identity : PubKey) : AclState :=
  match st.accountStates.lookup (mapKeyFromPubKey identity) with
  | none => st
  | some a => st.withoutAccount record (mapKeyFromPubKey identity) a

/-- The state without the accounts `identities`. -/
def AclState.withoutAll (record : AclRecord) (st : AclState) (identities : List PubKey) :
    AclState :=
  identities.foldl (AclState.without record) st

namespace AclState

variable {C : Crypto} {st st' : AclState} {record : AclRecord} {identity : PubKey}
  {identities : List PubKey}

/-- Removal changes accounts and requests. -/
theorem without_eq (record : AclRecord) (st : AclState) (identity : PubKey) :
    st.without record identity = { st with
      accountStates := (st.without record identity).accountStates
      pendingRequests := (st.without record identity).pendingRequests
      requestRecords := (st.without record identity).requestRecords } := by
  unfold without
  split <;> rfl

/-- A removal marks the account as removed and leaves every other one alone. -/
theorem lookup_accountStates_without (k : GoString) :
    (st.without record identity).accountStates.lookup k
      = if k = mapKeyFromPubKey identity
        then (st.accountStates.lookup k).map (removedAccount record)
        else st.accountStates.lookup k := by
  unfold without
  cases ha : st.accountStates.lookup (mapKeyFromPubKey identity) with
  | none =>
    by_cases hk : k = mapKeyFromPubKey identity
    · rw [if_pos hk, hk, ha]
      rfl
    · rw [if_neg hk]
  | some a =>
    simp only [withoutAccount, GoMap.lookup_insert_eq]
    by_cases hk : k = mapKeyFromPubKey identity
    · rw [if_pos hk, if_pos hk, hk, ha]
      rfl
    · rw [if_neg hk, if_neg hk]

theorem lookup_pendingRequests_without {a : AccountState}
    (ha : st.accountStates.lookup (mapKeyFromPubKey identity) = some a) (k : GoString) :
    (st.without record identity).pendingRequests.lookup k
      = if k = mapKeyFromPubKey identity then none else st.pendingRequests.lookup k := by
  simp only [without, ha, withoutAccount, GoMap.lookup_erase_eq]

/-- The removed account's pending request goes with it. -/
theorem lookup_requestRecords_without {a : AccountState}
    (ha : st.accountStates.lookup (mapKeyFromPubKey identity) = some a) (r : GoString) :
    (st.without record identity).requestRecords.lookup r
      = if st.pendingRequests.lookup (mapKeyFromPubKey identity) = some r then none
        else st.requestRecords.lookup r := by
  simp only [without, ha, withoutAccount]
  cases st.pendingRequests.lookup (mapKeyFromPubKey identity) with
  | none => simp
  | some r' =>
    simp only [GoMap.lookup_erase_eq, Option.some.injEq]
    by_cases hr : r = r'
    · simp [hr]
    · rw [if_neg hr, if_neg (Ne.symm hr)]

theorem withoutAll_eq (record : AclRecord) (st : AclState) (identities : List PubKey) :
    st.withoutAll record identities = { st with
      accountStates := (st.withoutAll record identities).accountStates
      pendingRequests := (st.withoutAll record identities).pendingRequests
      requestRecords := (st.withoutAll record identities).requestRecords } := by
  induction identities generalizing st with
  | nil => rfl
  | cons identity identities ih =>
    have hcons : st.withoutAll record (identity :: identities)
        = (st.without record identity).withoutAll record identities := rfl
    rw [hcons, ih, without_eq record st identity]

theorem lookup_accountStates_withoutAll (hnodup : identities.Nodup) (k : GoString) :
    (st.withoutAll record identities).accountStates.lookup k
      = if k ∈ identities.map mapKeyFromPubKey
        then (st.accountStates.lookup k).map (removedAccount record)
        else st.accountStates.lookup k := by
  induction identities generalizing st with
  | nil => rfl
  | cons identity identities ih =>
    obtain ⟨hnot, hnodup⟩ := List.nodup_cons.mp hnodup
    have hcons : st.withoutAll record (identity :: identities)
        = (st.without record identity).withoutAll record identities := rfl
    rw [hcons, ih hnodup, lookup_accountStates_without]
    by_cases hk : k = mapKeyFromPubKey identity
    · have hnot' : k ∉ identities.map mapKeyFromPubKey := by
        rw [hk, List.mem_map_of_injective mapKeyFromPubKey_injective]
        exact hnot
      simp [hk, hk ▸ hnot']
    · simp [hk]

/-- The accounts in `identities` are known. -/
def Known (st : AclState) (identities : List PubKey) : Prop :=
  ∀ identity ∈ identities, ∃ a, st.accountStates.lookup (mapKeyFromPubKey identity) = some a

theorem Known.without (h : st.Known identities) :
    (st.without record identity).Known identities := by
  intro identity' hmem
  obtain ⟨a, ha⟩ := h identity' hmem
  rw [lookup_accountStates_without, ha]
  split <;> exact ⟨_, rfl⟩

theorem lookup_pendingRequests_withoutAll (hknown : st.Known identities) (k : GoString) :
    (st.withoutAll record identities).pendingRequests.lookup k
      = if k ∈ identities.map mapKeyFromPubKey then none else st.pendingRequests.lookup k := by
  induction identities generalizing st with
  | nil => rfl
  | cons identity identities ih =>
    obtain ⟨⟨a, ha⟩, hknown⟩ := List.forall_mem_cons.mp hknown
    have hcons : st.withoutAll record (identity :: identities)
        = (st.without record identity).withoutAll record identities := rfl
    rw [hcons, ih (Known.without hknown), lookup_pendingRequests_without ha]
    by_cases hk : k = mapKeyFromPubKey identity <;> simp [hk]

theorem lookup_requestRecords_withoutAll (hnodup : identities.Nodup) (hknown : st.Known identities)
    (r : GoString) :
    (st.withoutAll record identities).requestRecords.lookup r
      = if ∃ identity ∈ identities, st.pendingRequests.lookup (mapKeyFromPubKey identity) = some r
        then none else st.requestRecords.lookup r := by
  induction identities generalizing st with
  | nil => simp [withoutAll]
  | cons identity identities ih =>
    obtain ⟨hnot, hnodup⟩ := List.nodup_cons.mp hnodup
    obtain ⟨⟨a, ha⟩, hknown⟩ := List.forall_mem_cons.mp hknown
    have hcons : st.withoutAll record (identity :: identities)
        = (st.without record identity).withoutAll record identities := rfl
    have hpending : ∀ identity' ∈ identities,
        (st.without record identity).pendingRequests.lookup (mapKeyFromPubKey identity')
          = st.pendingRequests.lookup (mapKeyFromPubKey identity') := by
      intro identity' hmem
      have hne : identity' ≠ identity := fun heq => hnot (heq ▸ hmem)
      rw [lookup_pendingRequests_without ha, if_neg (by simpa using hne)]
    have hexists : (∃ identity' ∈ identities, (st.without record identity).pendingRequests.lookup
          (mapKeyFromPubKey identity') = some r)
        ↔ ∃ identity' ∈ identities,
          st.pendingRequests.lookup (mapKeyFromPubKey identity') = some r := by
      constructor
      · rintro ⟨identity', hmem, h⟩
        exact ⟨identity', hmem, hpending identity' hmem ▸ h⟩
      · rintro ⟨identity', hmem, h⟩
        exact ⟨identity', hmem, (hpending identity' hmem).trans h⟩
    rw [hcons, ih hnodup (Known.without hknown), lookup_requestRecords_without ha]
    simp only [hexists, List.exists_mem_cons_iff]
    by_cases h : st.pendingRequests.lookup (mapKeyFromPubKey identity) = some r <;> simp [h]

/-- The loop of `applyAccountRemove` removes the accounts that the identities stand for. -/
theorem foldlM_removeAccount_spec {rawIdentities : List Bytes}
    (hraw : List.Forall₂ (fun raw identity => C.unmarshalPublicKey raw = some identity)
      rawIdentities identities)
    (h : rawIdentities.foldlM (fun st raw => st.removeAccount C record raw) st = .ok st') :
    st' = st.withoutAll record identities := by
  induction hraw generalizing st with
  | nil => exact (Except.ok.inj h).symm
  | @cons raw identity _ _ hid _ ih =>
    obtain ⟨m, hm, hrest⟩ := foldlM_cons_eq_ok.mp h
    simp only [removeAccount, bind_eq_ok, Crypto.pubKeyFromProto_eq_ok] at hm
    obtain ⟨identity', hid', hm⟩ := hm
    obtain rfl := Option.some.inj (hid.symm.trans hid')
    have hm' : m = st.without record identity := by
      unfold without
      cases ha : st.accountStates.lookup (mapKeyFromPubKey identity) with
      | none => simp [ha] at hm
      | some a =>
        rw [ha] at hm
        exact (Except.ok.inj hm).symm
    rw [ih hrest, hm']
    rfl

end AclState

/-- What the validator of an account removal has checked of each identity. -/
structure Removable (st : AclState) (author identity : PubKey) : Prop where
  /-- No account removes itself. -/
  ne_author : identity ≠ author
  /-- The account has permissions. -/
  granted : st.permissions identity ≠ .none
  /-- The owner is never removed. -/
  not_owner : st.permissions identity ≠ .owner
  /-- Only the owner removes an admin. -/
  admin : st.permissions identity = .admin → st.permissions author = .owner

theorem ContentValidator.foldlM_validateRemovedIdentity_spec {C : Crypto} {st : AclState}
    {author : PubKey} {rawIdentities : List Bytes} {seen seen' : List GoString}
    (h : rawIdentities.foldlM
      (validateRemovedIdentity C st author (st.permissions author)) seen = .ok seen') :
    ∃ identities : List PubKey,
      List.Forall₂ (fun raw identity => C.unmarshalPublicKey raw = some identity)
        rawIdentities identities ∧
      seen' = (identities.map mapKeyFromPubKey).reverse ++ seen ∧
      identities.Nodup ∧ (∀ identity ∈ identities, mapKeyFromPubKey identity ∉ seen) ∧
      ∀ identity ∈ identities, Removable st author identity := by
  induction rawIdentities generalizing seen with
  | nil => exact ⟨[], .nil, (Except.ok.inj h).symm, by simp, by simp, by simp⟩
  | cons raw rawIdentities ih =>
    obtain ⟨m, hm, hrest⟩ := foldlM_cons_eq_ok.mp h
    simp only [validateRemovedIdentity, bind_eq_ok, failIf_eq_ok,
      Crypto.pubKeyFromProto_eq_ok, decide_eq_false_iff_not,
      noPermissions_eq_false, isOwner_eq_false] at hm
    obtain ⟨identity, hid, _, hauthor, _, hgranted, _, howner, _, hadmin, _, hseen, hm⟩ := hm
    obtain ⟨identities, hraw, hseen', hnodup, hfresh, hremovable⟩ := ih hrest
    obtain rfl := Except.ok.inj hm
    refine ⟨identity :: identities, .cons hid hraw, by simp [hseen'], ?_, ?_, ?_⟩
    · refine List.nodup_cons.mpr ⟨fun hmem => ?_, hnodup⟩
      exact hfresh identity hmem List.mem_cons_self
    · refine List.forall_mem_cons.mpr ⟨hseen, fun identity' hmem hin => ?_⟩
      exact hfresh identity' hmem (List.mem_cons_of_mem _ hin)
    · refine List.forall_mem_cons.mpr ⟨⟨hauthor, hgranted, howner, fun hadm => ?_⟩, hremovable⟩
      simpa [hadm] using hadmin

/-! ## Transitions -/

/-- The record `request` is the open request under `requestId`. -/
abbrev AclState.IsRequest (st : AclState) (requestId : GoString) (request : RequestRecord) :
    Prop :=
  st.requestRecords.lookup requestId = some request

/-- The validated application of a content value of `record` in the state `st`. -/
inductive Transition (C : Crypto) (st : AclState) (record : AclRecord) :
    AclContentValue → AclState → Prop
  | ownershipChange {ch : AclOwnershipChange} {newOwner : PubKey} {state : AccountState}
      (author : st.permissions record.identity = .owner)
      (identity : C.unmarshalPublicKey ch.newOwnerIdentity = some newOwner)
      (known : st.accountStates.lookup (mapKeyFromPubKey newOwner) = some state)
      (active : state.status = .active) (granted : state.permissions ≠ .none)
      (not_owner : state.permissions ≠ .owner)
      (old_not_owner : ch.oldOwnerPermissions ≠ .owner)
      (old_granted : ch.oldOwnerPermissions ≠ .none) :
      Transition C st record (.ownershipChange ch)
        ((st.updatePermissions (mapKeyFromPubKey record.identity) ch.oldOwnerPermissions
          record).updatePermissions (mapKeyFromPubKey newOwner) .owner record)
  | inviteChange {ch : AclAccountInviteChange} {invite : Invite}
      (author : st.CanManage record.identity)
      (found : st.invites.lookup ch.inviteRecordId = some invite)
      (type : invite.type = .anyoneCanJoin) (changed : invite.permissions ≠ ch.permissions)
      (not_owner : ch.permissions ≠ .owner) (granted : ch.permissions ≠ .none)
      (not_guest : ch.permissions ≠ .guest)
      (admin : ch.permissions = .admin → st.permissions record.identity = .owner) :
      Transition C st record (.inviteChange ch)
        { st with
          invites :=
            st.invites.insert ch.inviteRecordId { invite with permissions := ch.permissions } }
  | inviteJoin {ch : AclAccountInviteJoin} {invite : Invite} {keyRecordId : GoString}
      {ord : RangeOrder} {value : ℕ} {keys : GoMap GoString AclKeys}
      (author : st.permissions record.identity = .none)
      (found : st.invites.lookup ch.inviteRecordId = some invite)
      (type : invite.type = .anyoneCanJoin)
      (le : ch.permissions.isLessOrEqual invite.permissions = true)
      (identity : C.unmarshalPublicKey ch.identity = some record.identity)
      (key : ch.encryptedReadKey.isSome) (current : st.readKeyChanges.getLast? = some keyRecordId) :
      Transition C st record (.inviteJoin ch)
        { ({ st with
              accountStates := st.accountStates.insert (mapKeyFromPubKey record.identity)
                (st.joinedAccount record (mapKeyFromPubKey record.identity) record.identity
                  (if ch.permissions = .none then invite.permissions else ch.permissions)
                  ch.metadata keyRecordId) } : AclState).dropRequestOf ord value
            record.identity with keys := keys }
  | permissionChange {ch : AclAccountPermissionChange} {target : PubKey} {state : AccountState}
      (author : st.CanManage record.identity)
      (identity : C.unmarshalPublicKey ch.identity = some target)
      (known : st.accountStates.lookup (mapKeyFromPubKey target) = some state)
      (not_guest : state.permissions ≠ .guest) (not_owner : state.permissions ≠ .owner)
      (was_admin : state.permissions = .admin → st.permissions record.identity = .owner)
      (new_not_owner : ch.permissions ≠ .owner)
      (new_admin : ch.permissions = .admin → st.permissions record.identity = .owner)
      (new_guest : ch.permissions = .guest → state.permissions = .reader) :
      Transition C st record (.permissionChange ch)
        (st.updatePermissions (mapKeyFromPubKey target) ch.permissions record)
  | invite {ch : AclAccountInvite} {inviteKey : PubKey}
      (author : st.CanManage record.identity)
      (identity : C.unmarshalPublicKey ch.inviteKey = some inviteKey)
      (not_owner : ch.inviteType = .anyoneCanJoin → ch.permissions ≠ .owner)
      (granted : ch.inviteType = .anyoneCanJoin → ch.permissions ≠ .none)
      (not_guest : ch.inviteType = .anyoneCanJoin → ch.permissions ≠ .guest)
      (admin : ch.inviteType = .anyoneCanJoin → ch.permissions = .admin →
        st.permissions record.identity = .owner)
      (key : ch.inviteType = .anyoneCanJoin → ch.encryptedReadKey.isSome) :
      Transition C st record (.invite ch)
        { st with
          invites := st.invites.insert record.id
            { key := inviteKey, id := record.id, type := ch.inviteType,
              permissions := ch.permissions, encryptedReadKey := ch.encryptedReadKey } }
  | inviteRevoke {ch : AclAccountInviteRevoke} (author : st.CanManage record.identity)
      (found : ∃ invite, st.invites.lookup ch.inviteRecordId = some invite) :
      Transition C st record (.inviteRevoke ch)
        { st with invites := st.invites.erase ch.inviteRecordId }
  | requestJoin {ch : AclAccountRequestJoin} {invite : Invite} {keyRecordId : GoString}
      (author : st.permissions record.identity = .none)
      (found : st.invites.lookup ch.inviteRecordId = some invite)
      (type : invite.type = .requestToJoin)
      (no_pending : st.pendingRequests.lookup (mapKeyFromPubKey record.identity) = none)
      (current : st.readKeyChanges.getLast? = some keyRecordId) :
      Transition C st record (.requestJoin ch)
        { st with
          pendingRequests := st.pendingRequests.insert (mapKeyFromPubKey record.identity) record.id
          requestRecords := st.requestRecords.insert record.id
            { requestIdentity := record.identity, requestMetadata := ch.metadata,
              keyRecordId := keyRecordId, recordId := record.id, type := .join }
          accountStates := st.accountStates.insert (mapKeyFromPubKey record.identity)
            { pubKey := some record.identity, permissions := .none, status := .joining,
              requestMetadata := ch.metadata, keyRecordId := keyRecordId,
              permissionChanges :=
                match st.accountStates.lookup (mapKeyFromPubKey record.identity) with
                | none => []
                | some state => state.permissionChanges } }
  | requestAccept {ch : AclAccountRequestAccept} {request : RequestRecord}
      {keys : GoMap GoString AclKeys} (author : st.CanManage record.identity)
      (found : st.IsRequest ch.requestRecordId request)
      (identity : C.unmarshalPublicKey ch.identity = some request.requestIdentity)
      (not_owner : ch.permissions ≠ .owner)
      (admin : ch.permissions = .admin → st.permissions record.identity = .owner) :
      Transition C st record (.requestAccept ch)
        { st with
          accountStates := st.accountStates.insert (mapKeyFromPubKey request.requestIdentity)
            (st.joinedAccount record (mapKeyFromPubKey request.requestIdentity)
              request.requestIdentity ch.permissions request.requestMetadata request.keyRecordId)
          pendingRequests :=
            st.pendingRequests.erase (mapKeyFromPubKey request.requestIdentity)
          requestRecords := st.requestRecords.erase ch.requestRecordId
          keys := keys }
  | requestDecline {ch : AclAccountRequestDecline} {request : RequestRecord} {state : AccountState}
      (author : st.CanManage record.identity)
      (found : st.IsRequest ch.requestRecordId request) (type : request.type = .join)
      (known : st.accountStates.lookup (mapKeyFromPubKey request.requestIdentity) = some state) :
      Transition C st record (.requestDecline ch)
        { st with
          accountStates := st.accountStates.insert (mapKeyFromPubKey request.requestIdentity)
            { state with status := .declined }
          pendingRequests :=
            st.pendingRequests.erase (mapKeyFromPubKey request.requestIdentity)
          requestRecords := st.requestRecords.erase ch.requestRecordId }
  | requestCancel {ch : AclAccountRequestCancel} {request : RequestRecord} {state : AccountState}
      (found : st.IsRequest ch.recordId request)
      (author : request.requestIdentity = record.identity)
      (known : st.accountStates.lookup (mapKeyFromPubKey record.identity) = some state) :
      Transition C st record (.requestCancel ch)
        { st with
          accountStates := st.accountStates.insert (mapKeyFromPubKey record.identity)
            { state with
              status := if request.type = .join then AclStatus.canceled else AclStatus.active }
          pendingRequests := st.pendingRequests.erase (mapKeyFromPubKey record.identity)
          requestRecords := st.requestRecords.erase ch.recordId }
  | accountRemove {ch : AclAccountRemove} {identities : List PubKey} {rkc : AclReadKeyChange}
      {invites : GoMap GoString Invite} {aclKeys : AclKeys}
      (author : st.CanManage record.identity)
      (identity : List.Forall₂ (fun raw identity => C.unmarshalPublicKey raw = some identity)
        ch.identities identities)
      (nodup : identities.Nodup)
      (removable : ∀ identity ∈ identities, Removable st record.identity identity)
      (rotation : ch.readKeyChange = some rkc)
      (addresses : RotationAddresses C st (identities.map mapKeyFromPubKey) rkc)
      (same : SameInvites st.invites invites) :
      Transition C st record (.accountRemove ch)
        { st with
          accountStates := (st.withoutAll record identities).accountStates
          pendingRequests := (st.withoutAll record identities).pendingRequests
          requestRecords := (st.withoutAll record identities).requestRecords
          readKeyChanges := st.readKeyChanges ++ [record.id]
          invites := invites
          keys := st.keys.insert record.id aclKeys }
  | readKeyChange {ch : AclReadKeyChange} {invites : GoMap GoString Invite} {aclKeys : AclKeys}
      (author : st.CanManage record.identity) (addresses : RotationAddresses C st [] ch)
      (same : SameInvites st.invites invites) :
      Transition C st record (.readKeyChange ch)
        { st with
          readKeyChanges := st.readKeyChanges ++ [record.id]
          invites := invites
          keys := st.keys.insert record.id aclKeys }
  | accountRequestRemove {state : AccountState}
      (known : st.accountStates.lookup (mapKeyFromPubKey record.identity) = some state)
      (granted : state.permissions ≠ .none) (not_owner : state.permissions ≠ .owner)
      (not_guest : state.permissions ≠ .guest)
      (no_pending : st.pendingRequests.lookup (mapKeyFromPubKey record.identity) = none) :
      Transition C st record .accountRequestRemove
        { st with
          requestRecords := st.requestRecords.insert record.id
            { requestIdentity := record.identity, requestMetadata := [], keyRecordId := [],
              recordId := record.id, type := .remove }
          pendingRequests := st.pendingRequests.insert (mapKeyFromPubKey record.identity) record.id
          accountStates := st.accountStates.insert (mapKeyFromPubKey record.identity)
            { state with status := .removing } }
  | accountsAdd {ch : AclAccountsAdd} {keyRecordId : GoString} {keys : GoMap GoString AclKeys}
      (author : st.CanManage record.identity)
      (addable : ∀ acc ∈ ch.additions, ∃ identity,
        C.unmarshalPublicKey acc.identity = some identity ∧ st.permissions identity = .none ∧
        acc.permissions ≠ .owner ∧ acc.permissions ≠ .none ∧
        (acc.permissions = .admin → st.permissions record.identity = .owner))
      (current : ch.additions ≠ [] → st.readKeyChanges.getLast? = some keyRecordId) :
      Transition C st record (.accountsAdd ch)
        { st with
          accountStates := accountsWith C record keyRecordId st.accountStates ch.additions
          keys := keys }
  | spaceOptionsChange {ch : AclSpaceOptionsChange}
      (author : st.permissions record.identity = .owner) :
      Transition C st record (.spaceOptionsChange ch)
        { st with optionChanges := st.optionChanges ++ [⟨record.id, ch.options⟩] }
  | unset : Transition C st record .unset st

section Inversion

variable {C : Crypto} {v : ContentValidator} {st st' : AclState} {record : AclRecord}
  {ord : RangeOrder} {value : ℕ} (hv : v.shouldValidate = true)

include hv

/-- The owner passes the ownership on. -/
theorem transition_of_ownershipChange {ch : AclOwnershipChange}
    (h : st.applyOwnershipChange C v record ch = .ok st') :
    Transition C st record (.ownershipChange ch) st' := by
  simp only [AclState.applyOwnershipChange, validateOwnershipChange, check_of_shouldValidate hv,
    bind_eq_ok, failIf_eq_ok, Crypto.pubKeyFromProto_eq_ok, or_eq_false_iff,
    not_eq_false', isOwner_iff, noPermissions_eq_false,
    isOwner_eq_false, decide_eq_false_iff_not, not_not, ne_eq] at h
  obtain ⟨_, ⟨_, hauthor, newOwner, hid, _, hgranted, ⟨⟨hactive, hnot⟩, hold⟩, hold'⟩, newOwner',
    hid', hst⟩ := h
  obtain rfl := Option.some.inj (hid.symm.trans hid')
  obtain ⟨state, hstate, hperms⟩ := AclState.lookup_of_permissions_ne_none hgranted
  rw [hstate] at hactive
  obtain rfl := Except.ok.inj hst
  exact .ownershipChange hauthor hid hstate hactive (hperms ▸ hgranted) (hperms ▸ hnot) hold hold'

/-- A manager changes the permissions of an open invite. -/
theorem transition_of_inviteChange {ch : AclAccountInviteChange}
    (h : st.applyInviteChange v record ch = .ok st') :
    Transition C st record (.inviteChange ch) st' := by
  simp only [AclState.applyInviteChange, validateInviteChange, check_of_shouldValidate hv,
    bind_eq_ok, failIf_eq_ok, not_eq_false', canManageAccounts_iff] at h
  cases hinvite : st.invites.lookup ch.inviteRecordId with
  | none => simp [hinvite] at h
  | some invite =>
    simp only [hinvite, bind_eq_ok, failIf_eq_ok, or_eq_false_iff,
      noPermissions_eq_false, isOwner_eq_false,
      isGuest_eq_false, decide_eq_false_iff_not, not_not, ne_eq] at h
    obtain ⟨_, ⟨_, hauthor, _, htype, _, hchanged, _, ⟨⟨howner, hnone⟩, hguest⟩, hadmin⟩, hst⟩ := h
    obtain rfl := Except.ok.inj hst
    exact .inviteChange hauthor hinvite htype hchanged howner hnone hguest
      (fun hadm => by simpa [hadm] using hadmin)

/-- An account joins by an open invite. -/
theorem transition_of_inviteJoin {ch : AclAccountInviteJoin}
    (h : st.applyInviteJoinWithoutApprove C v record ord value ch = .ok st') :
    Transition C st record (.inviteJoin ch) st' := by
  simp only [AclState.applyInviteJoinWithoutApprove, validateInviteJoin,
    check_of_shouldValidate hv, bind_eq_ok, failIf_eq_ok, not_eq_false',
    noPermissions_iff, Crypto.pubKeyFromProto_eq_ok] at h
  cases hinvite : st.invites.lookup ch.inviteRecordId with
  | none => simp [hinvite] at h
  | some invite =>
    simp only [hinvite, bind_eq_ok, failIf_eq_ok, Crypto.pubKeyFromProto_eq_ok,
      not_eq_false', decide_eq_false_iff_not, not_not, ne_eq, Option.isNone_eq_false_iff,
      AclState.currentReadKeyId_eq_ok] at h
    obtain ⟨_, ⟨_, hauthor, _, htype, _, hle, _, _, identity, hid, _, hsame, _, _, _, _, hkey⟩,
      identity', hid', keyRecordId, hcurrent, hst⟩ := h
    obtain rfl := Option.some.inj (hid.symm.trans hid')
    obtain rfl := hsame
    obtain ⟨keys, rfl⟩ := AclState.unpackIfOurs_spec hst
    exact .inviteJoin hauthor hinvite htype hle hid hkey hcurrent

/-- A manager changes the permissions of an account. -/
theorem transition_of_permissionChange {ch : AclAccountPermissionChange}
    (h : st.applyPermissionChange C v record ch = .ok st') :
    Transition C st record (.permissionChange ch) st' := by
  simp only [AclState.applyPermissionChange, validatePermissionChange,
    check_of_shouldValidate hv, bind_eq_ok, failIf_eq_ok, not_eq_false',
    canManageAccounts_iff, Crypto.pubKeyFromProto_eq_ok] at h
  obtain ⟨target, hid, _, ⟨_, hauthor, target', hid', hchecks⟩, hst⟩ := h
  obtain rfl := Option.some.inj (hid.symm.trans hid')
  obtain rfl := Except.ok.inj hst
  cases hstate : st.accountStates.lookup (mapKeyFromPubKey target) with
  | none => simp [hstate] at hchecks
  | some state =>
    simp only [hstate, bind_eq_ok, failIf_eq_ok, decide_eq_false_iff_not] at hchecks
    obtain ⟨_, hguest, _, howner, _, hadmin, _, hnew, _, hnewAdmin, hnewGuest⟩ := hchecks
    exact .permissionChange hauthor hid hstate hguest howner
      (fun hadm => by simpa [hadm] using hadmin) hnew
      (fun hadm => by simpa [hadm] using hnewAdmin)
      (fun hg => by simpa [hg] using hnewGuest)

/-- A manager makes an invite. -/
theorem transition_of_invite {ch : AclAccountInvite} (h : st.applyInvite C v record ch = .ok st') :
    Transition C st record (.invite ch) st' := by
  simp only [AclState.applyInvite, validateInvite, check_of_shouldValidate hv,
    bind_eq_ok, failIf_eq_ok, not_eq_false', canManageAccounts_iff,
    Crypto.pubKeyFromProto_eq_ok] at h
  obtain ⟨inviteKey, hid, _, ⟨_, hauthor, hchecks⟩, hst⟩ := h
  obtain rfl := Except.ok.inj hst
  have hopen : ch.inviteType = .anyoneCanJoin →
      (ch.permissions ≠ .owner ∧ ch.permissions ≠ .none ∧ ch.permissions ≠ .guest) ∧
      (ch.permissions = .admin → st.permissions record.identity = .owner) ∧
      ch.encryptedReadKey.isSome := by
    intro htype
    simp only [htype, if_true, bind_eq_ok, failIf_eq_ok, or_eq_false_iff,
      noPermissions_eq_false, isOwner_eq_false,
      isGuest_eq_false, Option.isNone_eq_false_iff] at hchecks
    obtain ⟨_, ⟨⟨howner, hnone⟩, hguest⟩, _, hadmin, _, hkey, _⟩ := hchecks
    exact ⟨⟨howner, hnone, hguest⟩, fun hadm => by simpa [hadm] using hadmin, hkey⟩
  exact .invite hauthor hid (fun h => (hopen h).1.1) (fun h => (hopen h).1.2.1)
    (fun h => (hopen h).1.2.2) (fun h => (hopen h).2.1) (fun h => (hopen h).2.2)

/-- A manager revokes an invite. -/
theorem transition_of_inviteRevoke {ch : AclAccountInviteRevoke}
    (h : st.applyInviteRevoke v record ch = .ok st') :
    Transition C st record (.inviteRevoke ch) st' := by
  simp only [AclState.applyInviteRevoke, validateInviteRevoke, check_of_shouldValidate hv,
    bind_eq_ok, failIf_eq_ok, not_eq_false', canManageAccounts_iff,
    Option.isNone_eq_false_iff, Option.isSome_iff_exists] at h
  obtain ⟨_, ⟨_, hauthor, hfound⟩, hst⟩ := h
  obtain rfl := Except.ok.inj hst
  exact .inviteRevoke hauthor hfound

/-- An account asks to join by an invite. -/
theorem transition_of_requestJoin {ch : AclAccountRequestJoin}
    (h : st.applyRequestJoin C v record ch = .ok st') :
    Transition C st record (.requestJoin ch) st' := by
  simp only [AclState.applyRequestJoin, validateRequestJoin, check_of_shouldValidate hv,
    bind_eq_ok, AclState.currentReadKeyId_eq_ok] at h
  cases hinvite : st.invites.lookup ch.inviteRecordId with
  | none => simp [hinvite] at h
  | some invite =>
    simp only [hinvite, bind_eq_ok, failIf_eq_ok, Crypto.pubKeyFromProto_eq_ok,
      not_eq_false', noPermissions_iff, decide_eq_false_iff_not, not_not,
      ne_eq, Option.isSome_eq_false_iff, Option.isNone_iff_eq_none] at h
    obtain ⟨_, ⟨_, hauthor, _, htype, identity, _, _, hpending, _, hsame, _, _, _⟩,
      keyRecordId, hcurrent, hst⟩ := h
    obtain rfl := hsame
    obtain rfl := Except.ok.inj hst
    exact .requestJoin hauthor hinvite htype hpending hcurrent

/-- A manager accepts a request to join. -/
theorem transition_of_requestAccept {ch : AclAccountRequestAccept}
    (h : st.applyRequestAccept C v record ch = .ok st') :
    Transition C st record (.requestAccept ch) st' := by
  simp only [AclState.applyRequestAccept, validateRequestAccept, check_of_shouldValidate hv,
    bind_eq_ok, failIf_eq_ok, not_eq_false', canManageAccounts_iff,
    Crypto.pubKeyFromProto_eq_ok] at h
  cases hrequest : st.requestRecords.lookup ch.requestRecordId with
  | none => simp [hrequest] at h
  | some request =>
    simp only [hrequest, bind_eq_ok, failIf_eq_ok, Crypto.pubKeyFromProto_eq_ok,
      decide_eq_false_iff_not, not_not, ne_eq] at h
    obtain ⟨_, ⟨_, hauthor, identity, hid, _, hsame, _, howner, hadmin⟩, identity', hid', hst⟩ := h
    obtain rfl := Option.some.inj (hid.symm.trans hid')
    obtain rfl := hsame
    obtain ⟨keys, rfl⟩ := AclState.unpackIfOurs_spec hst
    exact .requestAccept hauthor hrequest hid howner
      (fun hadm => by simpa [hadm] using hadmin)

/-- A manager declines a request. -/
theorem transition_of_requestDecline {ch : AclAccountRequestDecline}
    (h : st.applyRequestDecline v record ch = .ok st') :
    Transition C st record (.requestDecline ch) st' := by
  simp only [AclState.applyRequestDecline, validateRequestDecline, check_of_shouldValidate hv,
    bind_eq_ok, failIf_eq_ok, not_eq_false', canManageAccounts_iff] at h
  cases hrequest : st.requestRecords.lookup ch.requestRecordId with
  | none => simp [hrequest] at h
  | some request =>
    simp only [hrequest, failIf_eq_ok, decide_eq_false_iff_not, not_not, ne_eq] at h
    obtain ⟨_, ⟨_, hauthor, htype⟩, hst⟩ := h
    cases hstate : st.accountStates.lookup (mapKeyFromPubKey request.requestIdentity) with
    | none => simp [hstate] at hst
    | some state =>
      rw [hstate] at hst
      obtain rfl := Except.ok.inj hst
      exact .requestDecline hauthor hrequest htype hstate

/-- An account takes its request back. -/
theorem transition_of_requestCancel {ch : AclAccountRequestCancel}
    (h : st.applyRequestCancel v record ch = .ok st') :
    Transition C st record (.requestCancel ch) st' := by
  simp only [AclState.applyRequestCancel, validateRequestCancel, check_of_shouldValidate hv,
    bind_eq_ok] at h
  cases hrequest : st.requestRecords.lookup ch.recordId with
  | none => simp [hrequest] at h
  | some request =>
    simp only [hrequest, failIf_eq_ok, decide_eq_false_iff_not, not_not, ne_eq] at h
    obtain ⟨_, hauthor, hst⟩ := h
    rw [hauthor] at hst
    cases hstate : st.accountStates.lookup (mapKeyFromPubKey record.identity) with
    | none => simp [hstate] at hst
    | some state =>
      rw [hstate] at hst
      obtain rfl := Except.ok.inj hst
      exact .requestCancel hrequest hauthor hstate

/-- A manager removes accounts and changes the read key. -/
theorem transition_of_accountRemove {ch : AclAccountRemove}
    (h : st.applyAccountRemove C v record ord value ch = .ok st') :
    Transition C st record (.accountRemove ch) st' := by
  simp only [AclState.applyAccountRemove, validateAccountRemove, check_of_shouldValidate hv,
    bind_eq_ok, failIf_eq_ok, not_eq_false', canManageAccounts_iff] at h
  obtain ⟨_, ⟨_, hauthor, seen, hseen, hvalid⟩, st₁, hremoved, hst⟩ := h
  obtain ⟨identities, hraw, rfl, hnodup, _, hremovable⟩ :=
    foldlM_validateRemovedIdentity_spec hseen
  obtain rfl := AclState.foldlM_removeAccount_spec hraw hremoved
  obtain ⟨rkc, invites, aclKeys, hrkc, hsame, rfl⟩ := AclState.changeReadKey_spec hst
  rw [hrkc] at hvalid
  obtain ⟨users, users', invites', husers, hrest⟩ := validateReadKeyChangeRemoving_spec hv hvalid
  have haddresses : RotationAddresses C st (identities.map mapKeyFromPubKey) rkc := by
    refine ⟨users, users', invites', ?_, hrest⟩
    simpa [activeUsers] using husers
  rw [AclState.withoutAll_eq]
  rw [AclState.withoutAll_eq] at hsame
  exact .accountRemove hauthor hraw hnodup hremovable hrkc haddresses hsame

/-- A manager changes the read key. -/
theorem transition_of_readKeyChange {ch : AclReadKeyChange}
    (h : st.applyReadKeyChange C v record ord value ch = .ok st') :
    Transition C st record (.readKeyChange ch) st' := by
  simp only [AclState.applyReadKeyChange, validateReadKeyChange, check_of_shouldValidate hv,
    bind_eq_ok, failIf_eq_ok, not_eq_false', canManageAccounts_iff] at h
  obtain ⟨_, ⟨_, hauthor, hvalid⟩, hst⟩ := h
  obtain ⟨rkc, invites, aclKeys, hrkc, hsame, rfl⟩ := AclState.changeReadKey_spec hst
  obtain rfl := Option.some.inj hrkc
  exact .readKeyChange hauthor (validateReadKeyChangeRemoving_spec hv hvalid) hsame

/-- An account asks to be removed. -/
theorem transition_of_requestRemove (h : st.applyRequestRemove v record = .ok st') :
    Transition C st record .accountRequestRemove st' := by
  simp only [AclState.applyRequestRemove, validateRequestRemove, check_of_shouldValidate hv,
    bind_eq_ok, failIf_eq_ok, noPermissions_eq_false,
    isOwner_eq_false, not_eq_false', AclPermissions.canRequestRemove_iff,
    Option.isSome_eq_false_iff, Option.isNone_iff_eq_none] at h
  obtain ⟨_, ⟨_, hgranted, _, howner, hpending⟩, _, hguest, _, _, hst⟩ := h
  obtain ⟨state, hstate, hperms⟩ := AclState.lookup_of_permissions_ne_none hgranted
  simp only [hstate, Option.getD_some] at hguest hst
  obtain rfl := Except.ok.inj hst
  exact .accountRequestRemove hstate (hperms ▸ hgranted) (hperms ▸ howner) hguest hpending

/-- A manager adds accounts. -/
theorem transition_of_accountsAdd {ch : AclAccountsAdd}
    (h : st.applyAccountsAdd C v record ch = .ok st') :
    Transition C st record (.accountsAdd ch) st' := by
  simp only [AclState.applyAccountsAdd, validateAccountsAdd, check_of_shouldValidate hv,
    bind_eq_ok, failIf_eq_ok, not_eq_false', canManageAccounts_iff] at h
  obtain ⟨_, ⟨_, hauthor, hvalid⟩, hst⟩ := h
  have haddable : ∀ acc ∈ ch.additions, ∃ identity,
      C.unmarshalPublicKey acc.identity = some identity ∧ st.permissions identity = .none ∧
      acc.permissions ≠ .owner ∧ acc.permissions ≠ .none ∧
      (acc.permissions = .admin → st.permissions record.identity = .owner) := by
    intro acc hmem
    have hacc := forM_eq_ok.mp hvalid acc hmem
    simp only [validateAccountAdd, bind_eq_ok, failIf_eq_ok,
      Crypto.pubKeyFromProto_eq_ok, not_eq_false', noPermissions_iff,
      noPermissions_eq_false, isOwner_eq_false] at hacc
    obtain ⟨identity, hid, _, hnone, _, howner, _, hgranted, hadmin⟩ := hacc
    exact ⟨identity, hid, hnone, howner, hgranted, fun hadm => by simpa [hadm] using hadmin⟩
  cases hcurrent : st.readKeyChanges.getLast? with
  | some keyRecordId =>
    obtain ⟨keys, rfl⟩ := AclState.foldlM_addAccount_spec hcurrent hst
    exact .accountsAdd hauthor haddable (fun _ => hcurrent)
  | none =>
    -- without a read key change the first addition would already fail
    cases hadd : ch.additions with
    | nil =>
      rw [hadd] at hst
      obtain rfl := Except.ok.inj hst
      have h := @Transition.accountsAdd C st record ch [] st.keys hauthor haddable
        (by simp [hadd])
      simpa [hadd, accountsWith] using h
    | cons acc additions =>
      rw [hadd] at hst
      obtain ⟨m, hm, _⟩ := foldlM_cons_eq_ok.mp hst
      simp [AclState.addAccount, bind_eq_ok, hcurrent] at hm

theorem transition_of_spaceOptionsChange {ch : AclSpaceOptionsChange}
    (h : st.applySpaceOptionsChange v record ch = .ok st') :
    Transition C st record (.spaceOptionsChange ch) st' := by
  simp only [AclState.applySpaceOptionsChange, validateSpaceOptionsChange,
    check_of_shouldValidate hv, bind_eq_ok, failIf_eq_ok, not_eq_false',
    isOwner_iff] at h
  obtain ⟨_, hauthor, hst⟩ := h
  obtain rfl := Except.ok.inj hst
  exact .spaceOptionsChange hauthor

/-- Every validated application of a content value that is not a batch of permission changes is
a transition. -/
theorem transition_of_apply {ch : AclContentValue}
    (hsingle : ∀ changes, ch ≠ .permissionChanges changes)
    (h : st.applyChangeContent C v record ord value ch = .ok st') :
    Transition C st record ch st' := by
  cases ch with
  | ownershipChange ch => exact transition_of_ownershipChange hv h
  | inviteChange ch => exact transition_of_inviteChange hv h
  | inviteJoin ch => exact transition_of_inviteJoin hv h
  | permissionChange ch => exact transition_of_permissionChange hv h
  | invite ch => exact transition_of_invite hv h
  | inviteRevoke ch => exact transition_of_inviteRevoke hv h
  | requestJoin ch => exact transition_of_requestJoin hv h
  | requestAccept ch => exact transition_of_requestAccept hv h
  | requestDecline ch => exact transition_of_requestDecline hv h
  | requestCancel ch => exact transition_of_requestCancel hv h
  | accountRemove ch => exact transition_of_accountRemove hv h
  | readKeyChange ch => exact transition_of_readKeyChange hv h
  | accountRequestRemove => exact transition_of_requestRemove hv h
  | accountsAdd ch => exact transition_of_accountsAdd hv h
  | permissionChanges changes => exact absurd rfl (hsingle changes)
  | spaceOptionsChange ch => exact transition_of_spaceOptionsChange hv h
  | unset =>
    obtain ⟨_, _, hst⟩ := bind_eq_ok.mp h
    obtain rfl := Except.ok.inj hst
    exact .unset

end Inversion

/-! ## Batches of permission changes -/

/-- A batch of permission changes as single ones, and any other content value as itself. -/
def AclContentValue.flatten : AclContentValue → List AclContentValue
  | .permissionChanges ch => ch.changes.map .permissionChange
  | ch => [ch]

theorem AclContentValue.ne_permissionChanges_of_mem_flatten {ch ch' : AclContentValue}
    (h : ch' ∈ ch.flatten) (changes : AclAccountPermissionChanges) :
    ch' ≠ .permissionChanges changes := by
  rintro rfl
  cases ch <;> simp [flatten] at h

/-- A batch of permission changes is applied one change after the other. -/
theorem AclState.applyChangeContent_flatten (C : Crypto) (v : ContentValidator) (st : AclState)
    (record : AclRecord) (ord : RangeOrder) (value : ℕ) (ch : AclContentValue) :
    ch.flatten.foldlM (fun st ch => st.applyChangeContent C v record ord value ch) st
      = st.applyChangeContent C v record ord value ch := by
  cases ch with
  | permissionChanges ch =>
    simp only [AclContentValue.flatten, List.foldlM_map]
    rfl
  | _ => simp [AclContentValue.flatten]

end Acl
