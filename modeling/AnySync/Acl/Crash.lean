import AnySync.Acl.Frame
import AnySync.Acl.ReadKeys

/-!
# When admission crashes

A coordinator runs `ValidateRawRecord` on whatever a user submits. The decoded content may lack any
of its sub-messages and the bytes in it may have any length. This file says for which content the
call does not return.

The main result is `AclList.validateRawRecord_ne_panicked_iff`.
-/

namespace Acl

open ContentValidator
open Except (bind_eq_error bind_eq_ok ok_bind)

/-! ## The content that crashes -/

/-- The encrypted read key is meant for the account of the state and too short to be opened. -/
def AclState.ShortKeyFor (C : Crypto) (st : AclState) (identity : Bytes)
    (encryptedReadKey : Option Bytes) : Prop :=
  C.unmarshalPublicKey identity = some st.pubKey ∧ (encryptedReadKey.getD []).length < 32

/-- One of the keys of a read key change is too short for the account of the state. -/
def AclState.ShortKeyIn (C : Crypto) (st : AclState) (ch : AclReadKeyChange) : Prop :=
  ∃ key ∈ ch.accountKeys, st.ShortKeyFor C key.identity key.encryptedReadKey

/-- The content values of `record` on which admission panics in the state `st`. Either an account
removal comes without a read key change, or an encrypted read key for the account of the state
itself is shorter than the ephemeral key it has to start with. -/
def AclState.CrashesOn (C : Crypto) (st : AclState) (record : AclRecord) :
    AclContentValue → Prop
  | .accountRemove ch =>
    match ch.readKeyChange with
    -- the fields of the read key change are read once the identities are checked
    | none =>
      (st.permissions record.identity).canManageAccounts = true ∧
      ∃ seen, ch.identities.foldlM (validateRemovedIdentity C st record.identity
        (st.permissions record.identity)) [] = .ok seen
    | some rotation =>
      validateAccountRemove C newAdmissionValidator st record.identity ch = .ok () ∧
      st.ShortKeyIn C rotation
  | .readKeyChange ch =>
    validateReadKeyChange C newAdmissionValidator st record.identity ch = .ok () ∧
    st.ShortKeyIn C ch
  | .requestAccept ch =>
    validateRequestAccept C newAdmissionValidator st record.identity ch = .ok () ∧
    st.ShortKeyFor C ch.identity ch.encryptedReadKey
  | .inviteJoin ch =>
    validateInviteJoin C newAdmissionValidator st record.identity ch = .ok () ∧
    st.ShortKeyFor C ch.identity ch.encryptedReadKey
  | .accountsAdd ch =>
    validateAccountsAdd C newAdmissionValidator st record.identity ch = .ok () ∧
    -- the same account may be added twice, and the first time with a good key
    ∃ before acc after st', ch.additions = before ++ acc :: after ∧
      before.foldlM (fun st acc => st.addAccount C record acc) st = .ok st' ∧
      st.ShortKeyFor C acc.identity acc.encryptedReadKey
  | _ => False

/-! ## The checks -/

@[simp]
theorem Crypto.pubKeyFromProto_eq_error {C : Crypto} {b : Bytes} {e : AclError} :
    C.pubKeyFromProto b = .error e ↔ C.unmarshalPublicKey b = none ∧ .badPublicKey = e := by
  unfold Crypto.pubKeyFromProto
  cases C.unmarshalPublicKey b <;> simp

@[simp]
theorem Crypto.keyDecrypt_ne_panicked (C : Crypto) (key : SymKey) (msg : Bytes) :
    C.keyDecrypt key msg ≠ .error .panicked := by
  unfold Crypto.keyDecrypt
  split <;> simp

/-- `Decrypt` slices off an ephemeral key without a look at the length. -/
@[simp]
theorem Crypto.privDecrypt_eq_panicked {C : Crypto} {key : PrivKey} {msg : Bytes} :
    C.privDecrypt key msg = .error .panicked ↔ msg.length < 32 := by
  unfold Crypto.privDecrypt
  split
  · simp [*]
  · split <;> simp [*]

section Keys

variable {C : Crypto} {st : AclState} {msg : Option Bytes}
  {decryptor : Bytes → Except AclError Bytes}

theorem unmarshallDecryptReadKey_eq_panicked :
    unmarshallDecryptReadKey C msg decryptor = .error .panicked ↔
      decryptor (msg.getD []) = .error .panicked := by
  rw [unmarshallDecryptReadKey, bind_eq_error]
  refine ⟨fun h => h.resolve_right ?_, .inl⟩
  rintro ⟨decrypted, -, h⟩
  split at h <;> cases h

theorem unmarshallDecryptPrivKey_eq_panicked :
    unmarshallDecryptPrivKey C msg decryptor = .error .panicked ↔
      decryptor (msg.getD []) = .error .panicked := by
  rw [unmarshallDecryptPrivKey, bind_eq_error]
  refine ⟨fun h => h.resolve_right ?_, .inl⟩
  rintro ⟨decrypted, -, h⟩
  split at h <;> cases h

/-- Only the key that starts the chain is decrypted with a private key. -/
theorem unpackKeys_ne_panicked (keys : GoMap GoString AclKeys) (readKey : SymKey)
    (ids : List GoString) : unpackKeys C keys readKey ids ≠ .error .panicked := by
  induction ids generalizing keys readKey with
  | nil => simp [unpackKeys]
  | cons id ids ih =>
    simp only [unpackKeys, ne_eq, bind_eq_error, unmarshallDecryptPrivKey_eq_panicked,
      Crypto.keyDecrypt_ne_panicked, false_or, not_exists, not_and]
    intro metadataKey _
    split
    · simp
    · simp [bind_eq_error, unmarshallDecryptReadKey_eq_panicked, ih]

/-- Only keys for the own account are decrypted. -/
theorem AclState.unpackIfOurs_eq_panicked {identity : PubKey} :
    st.unpackIfOurs C identity msg = .error .panicked ↔
      st.pubKey = identity ∧ (msg.getD []).length < 32 := by
  unfold AclState.unpackIfOurs
  split
  · next hours =>
    simp [AclState.unpackAllKeys, bind_eq_error, unmarshallDecryptReadKey_eq_panicked,
      unpackKeys_ne_panicked, hours, pure, Except.pure]
  · next hother => simp [hother, pure, Except.pure]

end Keys

/-! ## Read key changes -/

section Rotation

variable {C : Crypto} {v : ContentValidator} {st : AclState} {record : AclRecord}
  {ord : RangeOrder} {value : ℕ} {ch : AclReadKeyChange} {removed : List GoString}

/-- The accounts have their public keys, so listing those with permissions does not panic. -/
theorem activeUsers_ne_panicked (hst : st.PubKeysWF) (removed : List GoString) :
    activeUsers st removed ≠ .error .panicked := by
  simp only [activeUsers, ne_eq, bind_eq_error, pure, Except.pure, reduceCtorEq, and_false,
    exists_false, or_false]
  intro h
  obtain ⟨a, hmem, ha⟩ := exists_of_mapM_eq_error h
  obtain ⟨⟨k, a'⟩, he, rfl⟩ := List.mem_map.mp (List.mem_filter.mp hmem).1
  have hpubKey := hst k a' (GoMap.lookup_eq_some_iff.mpr he)
  unfold accountKey at ha
  cases hnone : a'.pubKey with
  | none => simp [hnone] at hpubKey
  | some pubKey => simp [hnone] at ha

theorem addressees_ne_panicked (keys : List AclEncryptedReadKey) :
    addressees C keys ≠ .error .panicked := by
  intro h
  obtain ⟨key, -, hkey⟩ := exists_of_mapM_eq_error h
  simp [bind_eq_error, pure, Except.pure] at hkey

/-- The check of a read key change that is present. -/
theorem validateReadKeyChangeRemoving_ne_panicked (hst : st.PubKeysWF) :
    validateReadKeyChangeRemoving C v st (some ch) removed ≠ .error .panicked := by
  simp only [validateReadKeyChangeRemoving, check]
  split
  · simp
  · simp [bind_eq_error, activeUsers_ne_panicked hst, addressees_ne_panicked]

/-- Keys for other accounts are skipped. -/
theorem AclState.ownReadKey_of_others {keys : List AclEncryptedReadKey}
    (h : ∀ key ∈ keys, ∃ identity, C.unmarshalPublicKey key.identity = some identity ∧
      st.pubKey ≠ identity) : st.ownReadKey C keys = .ok none := by
  induction keys with
  | nil => rfl
  | cons key keys ih =>
    obtain ⟨⟨identity, hid, hother⟩, hkeys⟩ := List.forall_mem_cons.mp h
    rw [AclState.ownReadKey, List.foldlM_cons, hid]
    simp only [if_neg hother]
    exact ih hkeys

/-- The read key for the account of the state is looked for among the account keys. -/
theorem AclState.ownReadKey_eq_panicked_iff {s : AclState} (hst : st.PubKeysWF)
    (haddresses : RotationAddresses C st removed ch) :
    s.ownReadKey C ch.accountKeys = .error .panicked ↔ s.ShortKeyIn C ch := by
  obtain ⟨users, updatedUsers, _, husers, hupdated, -, hperm, -⟩ := haddresses
  have hkeys := addressees_eq_ok hupdated
  have hnodup : (ch.accountKeys.map (identityKey C ·.identity)).Nodup := by
    rw [hkeys]
    exact (hperm.nodup (activeUsers_spec hst husers).1).map (Option.some_injective _)
  have hdecodes : ∀ key ∈ ch.accountKeys, ∃ identity,
      C.unmarshalPublicKey key.identity = some identity := by
    intro key hmem
    have hsome : identityKey C key.identity ∈ updatedUsers.map some :=
      hkeys ▸ List.mem_map_of_mem hmem
    obtain ⟨user, -, huser⟩ := List.mem_map.mp hsome
    obtain ⟨identity, hid, -⟩ := Option.map_eq_some_iff.mp huser.symm
    exact ⟨identity, hid⟩
  constructor
  · intro h
    obtain ⟨before, key, after, readKey, hsplit, -, hstep⟩ := foldlM_eq_error.mp h
    have hmem : key ∈ ch.accountKeys := by simp [hsplit]
    obtain ⟨identity, hid⟩ := hdecodes key hmem
    refine ⟨key, hmem, ?_⟩
    simp only [hid] at hstep
    split at hstep
    · next hours =>
      simp only [bind_eq_error, unmarshallDecryptReadKey_eq_panicked,
        Crypto.privDecrypt_eq_panicked, pure, Except.pure, reduceCtorEq, and_false,
        exists_false, or_false] at hstep
      exact ⟨hours ▸ hid, hstep⟩
    · cases hstep
  · rintro ⟨key, hmem, hid, hshort⟩
    obtain ⟨before, after, hsplit⟩ := List.append_of_mem hmem
    -- the keys are for different accounts, so those before it are for others
    have hothers : ∀ other ∈ before, ∃ identity,
        C.unmarshalPublicKey other.identity = some identity ∧ s.pubKey ≠ identity := by
      intro other hother
      obtain ⟨identity, hid'⟩ := hdecodes other (by simp [hsplit, hother])
      refine ⟨identity, hid', fun heq => ?_⟩
      rw [hsplit, List.map_append, List.map_cons, List.nodup_append] at hnodup
      exact hnodup.2.2 _ (List.mem_map_of_mem hother) _ List.mem_cons_self
        (by simp [identityKey, hid, hid', heq])
    refine foldlM_eq_error.mpr ⟨before, key, after, none, hsplit,
      AclState.ownReadKey_of_others hothers, ?_⟩
    simp only [hid, if_true]
    exact bind_eq_error.mpr (.inl (unmarshallDecryptReadKey_eq_panicked.mpr
      (Crypto.privDecrypt_eq_panicked.mpr hshort)))

theorem AclState.updateInviteKeys_ne_panicked (keys : List AclEncryptedReadKey) :
    st.updateInviteKeys C ord value keys ≠ .error .panicked := by
  intro h
  obtain ⟨_, _, _, s, -, -, hstep⟩ := foldlM_eq_error.mp h
  simp only [AclState.updateInviteKey, bind_eq_error, Crypto.pubKeyFromProto_eq_error,
    reduceCtorEq, and_false, false_or] at hstep
  obtain ⟨_, -, hstep⟩ := hstep
  split at hstep <;> cases hstep

theorem ownMetadataKey_ne_panicked (readKey : Option SymKey) (msg : Option Bytes) :
    AclState.ownMetadataKey C readKey msg ≠ .error .panicked := by
  cases readKey with
  | none => simp [AclState.ownMetadataKey, pure, Except.pure]
  | some key =>
    simp [AclState.ownMetadataKey, bind_eq_error, unmarshallDecryptPrivKey_eq_panicked,
      pure, Except.pure]

/-- A read key change that has passed its check. -/
theorem AclState.changeReadKey_eq_panicked_iff {s : AclState} (hst : st.PubKeysWF)
    (hvalid : validateReadKeyChangeRemoving C newAdmissionValidator st (some ch) removed = .ok ()) :
    s.changeReadKey C record ord value (some ch) = .error .panicked ↔ s.ShortKeyIn C ch := by
  have haddresses := validateReadKeyChangeRemoving_spec rfl hvalid
  have hmetadata : ∃ key, C.unmarshalPublicKey ch.metadataPubKey = some key := by
    simp only [validateReadKeyChangeRemoving, check_of_shouldValidate (v := newAdmissionValidator)
      rfl, bind_eq_ok, failIf_eq_ok, Option.isNone_eq_false_iff,
      Option.isSome_iff_exists] at hvalid
    exact hvalid.choose_spec.1
  obtain ⟨mkPubKey, hmkPubKey⟩ := hmetadata
  have hkey := Crypto.pubKeyFromProto_eq_ok.mpr hmkPubKey
  rw [AclState.changeReadKey, AclState.storeReadKey, hkey, ok_bind, bind_eq_error]
  have hrest : ∀ readKey, (((s.addReadKeyChange record.id).updateInviteKeys C ord value
      ch.inviteKeys >>= fun s' => AclState.ownMetadataKey C readKey ch.encryptedMetadataPrivKey >>=
        fun metadataPrivKey => pure (s'.setKeys record.id
          { readKey := readKey, metadataPrivKey := metadataPrivKey,
            metadataPubKey := some mkPubKey,
            encryptedPreviousReadKey := ch.encryptedOldReadKey,
            encryptedMetadataKey := ch.encryptedMetadataPrivKey })) : Except AclError AclState)
      ≠ .error .panicked := by
    intro readKey
    simp [bind_eq_error, AclState.updateInviteKeys_ne_panicked, ownMetadataKey_ne_panicked,
      pure, Except.pure]
  refine ⟨?_, fun h => .inl ((AclState.ownReadKey_eq_panicked_iff hst haddresses).mpr h)⟩
  rintro (h | ⟨readKey, -, h⟩)
  · exact (AclState.ownReadKey_eq_panicked_iff hst haddresses).mp h
  · exact absurd h (hrest readKey)

end Rotation

/-! ## Content values -/

section Content

variable {C : Crypto} {st : AclState} {record : AclRecord} {ord : RangeOrder} {value : ℕ}

theorem AclState.currentReadKeyId_ne_panicked (h : st.readKeyChanges ≠ []) :
    st.currentReadKeyId ≠ .error .panicked := by
  unfold AclState.currentReadKeyId
  rw [List.getLast?_eq_some_getLast h]
  simp

/-- The checks on one identity of an account removal. -/
theorem validateRemovedIdentity_ne_panicked (author : PubKey) (perms : AclPermissions)
    (identities : List Bytes) (seen : List GoString) :
    identities.foldlM (validateRemovedIdentity C st author perms) seen ≠ .error .panicked := by
  intro h
  obtain ⟨_, _, _, _, -, -, hstep⟩ := foldlM_eq_error.mp h
  simp [validateRemovedIdentity, bind_eq_error, pure, Except.pure] at hstep

theorem AclState.applyPermissionChange_ne_panicked (ch : AclAccountPermissionChange) :
    st.applyPermissionChange C newAdmissionValidator record ch ≠ .error .panicked := by
  simp only [AclState.applyPermissionChange, validatePermissionChange,
    check_of_shouldValidate (v := newAdmissionValidator) rfl, ne_eq, bind_eq_error,
    Crypto.pubKeyFromProto_eq_error, failIf_eq_error, reduceCtorEq, and_false, false_or]
  rintro ⟨identity, -, (⟨_, -, identity', -, h⟩ | ⟨_, -, h⟩)⟩
  · split at h
    · cases h
    · simp [bind_eq_error] at h
  · cases h

/-- The loop of `applyAccountRemove` succeeds on accounts that are known. -/
theorem AclState.foldlM_removeAccount_eq_ok {rawIdentities : List Bytes}
    {identities : List PubKey}
    (hraw : List.Forall₂ (fun raw identity => C.unmarshalPublicKey raw = some identity)
      rawIdentities identities) (hknown : st.Known identities) :
    rawIdentities.foldlM (fun st raw => st.removeAccount C record raw) st
      = .ok (st.withoutAll record identities) := by
  induction hraw generalizing st with
  | nil => rfl
  | @cons raw identity _ identities hid _ ih =>
    obtain ⟨⟨a, ha⟩, hknown⟩ := List.forall_mem_cons.mp hknown
    have hstep : st.removeAccount C record raw = .ok (st.without record identity) := by
      simp only [AclState.removeAccount, Crypto.pubKeyFromProto_eq_ok.mpr hid, ok_bind, ha,
        AclState.without]
      rfl
    exact foldlM_cons_eq_ok.mpr ⟨_, hstep, ih (AclState.Known.without hknown)⟩

/-- The handler of an accepted request. -/
theorem AclState.applyRequestAccept_eq_panicked_iff (ch : AclAccountRequestAccept) :
    st.applyRequestAccept C newAdmissionValidator record ch = .error .panicked ↔
      validateRequestAccept C newAdmissionValidator st record.identity ch = .ok () ∧
      st.ShortKeyFor C ch.identity ch.encryptedReadKey := by
  have hvalidate : validateRequestAccept C newAdmissionValidator st record.identity ch
      ≠ .error .panicked := by
    simp only [validateRequestAccept, check_of_shouldValidate (v := newAdmissionValidator) rfl]
    cases st.requestRecords.lookup ch.requestRecordId <;> simp [bind_eq_error]
  rw [AclState.applyRequestAccept, bind_eq_error]
  refine Iff.trans (or_iff_right hvalidate) ?_
  constructor
  · rintro ⟨_, hvalid, h⟩
    simp only [bind_eq_error, Crypto.pubKeyFromProto_eq_error, reduceCtorEq, and_false,
      false_or, Crypto.pubKeyFromProto_eq_ok] at h
    obtain ⟨identity, hid, h⟩ := h
    split at h
    · cases h
    · obtain ⟨hours, hshort⟩ := AclState.unpackIfOurs_eq_panicked.mp h
      exact ⟨hvalid, hours ▸ hid, hshort⟩
  · rintro ⟨hvalid, hid, hshort⟩
    refine ⟨(), hvalid, ?_⟩
    rw [Crypto.pubKeyFromProto_eq_ok.mpr hid, ok_bind]
    cases hfound : st.requestRecords.lookup ch.requestRecordId with
    | none =>
      simp [validateRequestAccept, check_of_shouldValidate (v := newAdmissionValidator) rfl,
        hfound, bind_eq_ok] at hvalid
    | some request => exact AclState.unpackIfOurs_eq_panicked.mpr ⟨rfl, hshort⟩

/-- The handler of a join by an invite. -/
theorem AclState.applyInviteJoin_eq_panicked_iff (hcurrent : st.readKeyChanges ≠ [])
    (ch : AclAccountInviteJoin) :
    st.applyInviteJoinWithoutApprove C newAdmissionValidator record ord value ch
        = .error .panicked ↔
      validateInviteJoin C newAdmissionValidator st record.identity ch = .ok () ∧
      st.ShortKeyFor C ch.identity ch.encryptedReadKey := by
  have hvalidate : validateInviteJoin C newAdmissionValidator st record.identity ch
      ≠ .error .panicked := by
    simp only [validateInviteJoin, check_of_shouldValidate (v := newAdmissionValidator) rfl]
    cases st.invites.lookup ch.inviteRecordId <;> simp [bind_eq_error]
  have hpubKey : ∀ (s : AclState) identity, (s.dropRequestOf ord value identity).pubKey =
      s.pubKey :=
    fun s identity => by rw [AclState.dropRequestOf_eq]
  rw [AclState.applyInviteJoinWithoutApprove, bind_eq_error]
  refine Iff.trans (or_iff_right hvalidate) ?_
  constructor
  · rintro ⟨_, hvalid, h⟩
    simp only [bind_eq_error, Crypto.pubKeyFromProto_eq_error, reduceCtorEq, and_false,
      false_or, Crypto.pubKeyFromProto_eq_ok] at h
    obtain ⟨identity, hid, h⟩ := h
    split at h
    · cases h
    · simp only [bind_eq_error, AclState.currentReadKeyId_ne_panicked hcurrent, false_or,
        AclState.unpackIfOurs_eq_panicked, hpubKey] at h
      obtain ⟨_, -, hours, hshort⟩ := h
      exact ⟨hvalid, hours ▸ hid, hshort⟩
  · rintro ⟨hvalid, hid, hshort⟩
    refine ⟨(), hvalid, ?_⟩
    rw [Crypto.pubKeyFromProto_eq_ok.mpr hid, ok_bind]
    cases hfound : st.invites.lookup ch.inviteRecordId with
    | none =>
      simp [validateInviteJoin, check_of_shouldValidate (v := newAdmissionValidator) rfl,
        hfound, bind_eq_ok] at hvalid
    | some invite =>
      have hlast := AclState.currentReadKeyId_eq_ok.mpr (List.getLast?_eq_some_getLast hcurrent)
      exact bind_eq_error.mpr (.inr ⟨_, hlast,
        AclState.unpackIfOurs_eq_panicked.mpr ⟨hpubKey _ _, hshort⟩⟩)

theorem AclState.addAccount_eq_panicked_iff (hcurrent : st.readKeyChanges ≠ [])
    (acc : AclAccountAdd) :
    st.addAccount C record acc = .error .panicked ↔
      st.ShortKeyFor C acc.identity acc.encryptedReadKey := by
  simp only [AclState.addAccount, bind_eq_error, Crypto.pubKeyFromProto_eq_error,
    reduceCtorEq, and_false, false_or, Crypto.pubKeyFromProto_eq_ok,
    AclState.currentReadKeyId_ne_panicked hcurrent, AclState.unpackIfOurs_eq_panicked]
  constructor
  · rintro ⟨identity, hid, _, -, hours, hshort⟩
    exact ⟨hours ▸ hid, hshort⟩
  · rintro ⟨hid, hshort⟩
    have hlast := AclState.currentReadKeyId_eq_ok.mpr (List.getLast?_eq_some_getLast hcurrent)
    exact ⟨_, hid, _, hlast, rfl, hshort⟩

/-- The handler of added accounts, which stops at the first short key. -/
theorem AclState.applyAccountsAdd_eq_panicked_iff (hcurrent : st.readKeyChanges ≠ [])
    (ch : AclAccountsAdd) :
    st.applyAccountsAdd C newAdmissionValidator record ch = .error .panicked ↔
      validateAccountsAdd C newAdmissionValidator st record.identity ch = .ok () ∧
      ∃ before acc after st', ch.additions = before ++ acc :: after ∧
        before.foldlM (fun st acc => st.addAccount C record acc) st = .ok st' ∧
        st.ShortKeyFor C acc.identity acc.encryptedReadKey := by
  have hvalidate : validateAccountsAdd C newAdmissionValidator st record.identity ch
      ≠ .error .panicked := by
    simp only [validateAccountsAdd, check_of_shouldValidate (v := newAdmissionValidator) rfl,
      ne_eq, bind_eq_error, failIf_eq_error, reduceCtorEq, and_false, false_or]
    rintro ⟨_, -, h⟩
    obtain ⟨acc, -, hacc⟩ := exists_of_forM_eq_error h
    simp [validateAccountAdd, bind_eq_error] at hacc
  rw [AclState.applyAccountsAdd, bind_eq_error]
  refine Iff.trans (or_iff_right hvalidate) ?_
  -- an addition changes neither the account of the state nor its read key changes
  have hstep : ∀ {before : List AclAccountAdd} {st' : AclState},
      before.foldlM (fun st acc => st.addAccount C record acc) st = .ok st' → ∀ acc,
      (st'.addAccount C record acc = .error .panicked ↔
        st.ShortKeyFor C acc.identity acc.encryptedReadKey) := by
    intro before st' hbefore acc
    obtain ⟨keys, rfl⟩ := AclState.foldlM_addAccount_spec
      (List.getLast?_eq_some_getLast hcurrent) hbefore
    refine Iff.trans (AclState.addAccount_eq_panicked_iff ?_ acc) Iff.rfl
    exact hcurrent
  constructor
  · rintro ⟨_, hvalid, h⟩
    obtain ⟨before, acc, after, st', hsplit, hbefore, hacc⟩ := foldlM_eq_error.mp h
    exact ⟨hvalid, before, acc, after, st', hsplit, hbefore, (hstep hbefore acc).mp hacc⟩
  · rintro ⟨hvalid, before, acc, after, st', hsplit, hbefore, hacc⟩
    exact ⟨(), hvalid, foldlM_eq_error.mpr
      ⟨before, acc, after, st', hsplit, hbefore, (hstep hbefore acc).mpr hacc⟩⟩

/-- The handler of a read key change. -/
theorem AclState.applyReadKeyChange_eq_panicked_iff (hst : st.PubKeysWF) (ch : AclReadKeyChange) :
    st.applyReadKeyChange C newAdmissionValidator record ord value ch = .error .panicked ↔
      validateReadKeyChange C newAdmissionValidator st record.identity ch = .ok () ∧
      st.ShortKeyIn C ch := by
  have hvalidate : validateReadKeyChange C newAdmissionValidator st record.identity ch
      ≠ .error .panicked := by
    simp [validateReadKeyChange, check_of_shouldValidate (v := newAdmissionValidator) rfl,
      bind_eq_error, validateReadKeyChangeRemoving_ne_panicked hst]
  have hrotation : validateReadKeyChange C newAdmissionValidator st record.identity ch = .ok () →
      validateReadKeyChangeRemoving C newAdmissionValidator st (some ch) [] = .ok () := by
    intro h
    simp only [validateReadKeyChange, check_of_shouldValidate (v := newAdmissionValidator) rfl,
      bind_eq_ok] at h
    exact h.choose_spec.2
  rw [AclState.applyReadKeyChange, bind_eq_error]
  refine Iff.trans (or_iff_right hvalidate) ⟨?_, ?_⟩
  · rintro ⟨_, hvalid, h⟩
    exact ⟨hvalid, (AclState.changeReadKey_eq_panicked_iff hst (hrotation hvalid)).mp h⟩
  · rintro ⟨hvalid, h⟩
    exact ⟨(), hvalid, (AclState.changeReadKey_eq_panicked_iff hst (hrotation hvalid)).mpr h⟩

/-- The handler of an account removal, which may lack its read key change. -/
theorem AclState.applyAccountRemove_eq_panicked_iff (hst : st.PubKeysWF) (ch : AclAccountRemove) :
    st.applyAccountRemove C newAdmissionValidator record ord value ch = .error .panicked ↔
      st.CrashesOn C record (.accountRemove ch) := by
  have hvalidate : ∀ {result : Except AclError Unit},
      validateAccountRemove C newAdmissionValidator st record.identity ch = result ↔
      (failIf (!(st.permissions record.identity).canManageAccounts)
          AclError.insufficientPermissions >>= fun _ =>
        ch.identities.foldlM (validateRemovedIdentity C st record.identity
          (st.permissions record.identity)) [] >>= fun seen =>
        validateReadKeyChangeRemoving C newAdmissionValidator st ch.readKeyChange seen)
        = result :=
    fun {_} => Iff.rfl
  simp only [AclState.applyAccountRemove, AclState.CrashesOn]
  cases hrotation : ch.readKeyChange with
  | none =>
    simp only [bind_eq_error, hvalidate, hrotation, failIf_eq_error, reduceCtorEq,
      and_false, false_or, validateRemovedIdentity_ne_panicked, failIf_eq_ok]
    constructor
    · rintro (⟨_, hmanage, seen, hseen, -⟩ | ⟨_, hvalid, -⟩)
      · exact ⟨by simpa using hmanage, seen, hseen⟩
      · simp only [bind_eq_ok] at hvalid
        obtain ⟨_, -, _, -, hnone⟩ := hvalid
        cases hnone
    · rintro ⟨hmanage, seen, hseen⟩
      exact .inl ⟨(), by simp [hmanage], seen, hseen, rfl⟩
  | some rotation =>
    have hne : validateAccountRemove C newAdmissionValidator st record.identity ch
        ≠ .error .panicked := by
      simp [hvalidate, hrotation, bind_eq_error, validateRemovedIdentity_ne_panicked,
        validateReadKeyChangeRemoving_ne_panicked hst]
    rw [bind_eq_error]
    refine Iff.trans (or_iff_right hne) (Iff.trans ⟨?_, ?_⟩ Iff.rfl)
    · rintro ⟨_, hvalid, h⟩
      refine ⟨hvalid, ?_⟩
      simp only [hvalidate, hrotation, bind_eq_ok] at hvalid
      obtain ⟨_, -, seen, hseen, hvalid⟩ := hvalid
      obtain ⟨identities, hraw, -, -, -, hremovable⟩ :=
        foldlM_validateRemovedIdentity_spec hseen
      rw [AclState.foldlM_removeAccount_eq_ok hraw (Removable.known hremovable), ok_bind,
        AclState.changeReadKey_eq_panicked_iff hst hvalid, AclState.withoutAll_eq] at h
      exact h
    · rintro ⟨hvalid, hshort⟩
      refine ⟨(), hvalid, ?_⟩
      simp only [hvalidate, hrotation, bind_eq_ok] at hvalid
      obtain ⟨_, -, seen, hseen, hvalid⟩ := hvalid
      obtain ⟨identities, hraw, -, -, -, hremovable⟩ :=
        foldlM_validateRemovedIdentity_spec hseen
      rw [AclState.foldlM_removeAccount_eq_ok hraw (Removable.known hremovable), ok_bind,
        AclState.changeReadKey_eq_panicked_iff hst hvalid, AclState.withoutAll_eq]
      exact hshort

/-- In a state in which each account has its public key and there is a read key, the handlers panic
on the content values of `CrashesOn` and on no others. -/
theorem AclState.applyChangeContent_eq_panicked_iff (hst : st.PubKeysWF)
    (hcurrent : st.readKeyChanges ≠ []) (ch : AclContentValue) :
    st.applyChangeContent C newAdmissionValidator record ord value ch = .error .panicked ↔
      st.CrashesOn C record ch := by
  have hcheck := fun body => check_of_shouldValidate (v := newAdmissionValidator) rfl body
  cases ch with
  | accountRemove ch => exact AclState.applyAccountRemove_eq_panicked_iff hst ch
  | readKeyChange ch => exact AclState.applyReadKeyChange_eq_panicked_iff hst ch
  | requestAccept ch => exact AclState.applyRequestAccept_eq_panicked_iff ch
  | inviteJoin ch => exact AclState.applyInviteJoin_eq_panicked_iff hcurrent ch
  | accountsAdd ch => exact AclState.applyAccountsAdd_eq_panicked_iff hcurrent ch
  | permissionChange ch => exact iff_false_intro (AclState.applyPermissionChange_ne_panicked ch)
  | permissionChanges ch =>
    refine iff_false_intro fun h => ?_
    obtain ⟨_, change, _, _, -, -, hstep⟩ := foldlM_eq_error.mp h
    exact AclState.applyPermissionChange_ne_panicked change hstep
  -- the other handlers decrypt nothing
  | ownershipChange ch =>
    simp [AclState.applyChangeContent, AclState.applyOwnershipChange, validateOwnershipChange,
      hcheck, bind_eq_error, pure, Except.pure, AclState.CrashesOn]
  | inviteChange ch =>
    simp only [AclState.applyChangeContent, AclState.applyInviteChange, validateInviteChange,
      hcheck, AclState.CrashesOn]
    cases st.invites.lookup ch.inviteRecordId <;>
      simp [bind_eq_error, pure, Except.pure]
  | invite ch =>
    simp only [AclState.applyChangeContent, AclState.applyInvite, validateInvite, hcheck,
      AclState.CrashesOn]
    split <;> simp [bind_eq_error, pure, Except.pure]
  | inviteRevoke ch =>
    simp [AclState.applyChangeContent, AclState.applyInviteRevoke, validateInviteRevoke, hcheck,
      bind_eq_error, pure, Except.pure, AclState.CrashesOn]
  | requestJoin ch =>
    simp only [AclState.applyChangeContent, AclState.applyRequestJoin, validateRequestJoin,
      hcheck, AclState.CrashesOn]
    cases st.invites.lookup ch.inviteRecordId <;>
      simp [bind_eq_error, AclState.currentReadKeyId_ne_panicked hcurrent, pure, Except.pure]
  | requestDecline ch =>
    simp only [AclState.applyChangeContent, AclState.applyRequestDecline, validateRequestDecline,
      hcheck, AclState.CrashesOn]
    cases st.requestRecords.lookup ch.requestRecordId with
    | none => simp [bind_eq_error, pure, Except.pure]
    | some request =>
      cases ha : st.accountStates.lookup (mapKeyFromPubKey request.requestIdentity) <;>
        simp [ha, bind_eq_error, pure, Except.pure]
  | requestCancel ch =>
    simp only [AclState.applyChangeContent, AclState.applyRequestCancel, validateRequestCancel,
      hcheck, AclState.CrashesOn]
    cases st.requestRecords.lookup ch.recordId with
    | none => simp
    | some request =>
      cases ha : st.accountStates.lookup (mapKeyFromPubKey request.requestIdentity) <;>
        simp [ha, bind_eq_error, pure, Except.pure]
  | accountRequestRemove =>
    simp [AclState.applyChangeContent, AclState.applyRequestRemove, validateRequestRemove, hcheck,
      bind_eq_error, pure, Except.pure, AclState.CrashesOn]
  | spaceOptionsChange ch =>
    simp [AclState.applyChangeContent, AclState.applySpaceOptionsChange,
      validateSpaceOptionsChange, hcheck, bind_eq_error, pure, Except.pure,
      AclState.CrashesOn]
  | unset =>
    simp [AclState.applyChangeContent, validateUnexpectedContent, newAdmissionValidator,
      AclState.CrashesOn]

end Content

/-! ## Records -/

/-- The content of `record` comes to a value on which admission panics. -/
def AclList.CrashesOn (C : Crypto) (l : AclList) (record : AclRecord) (ord : RangeOrder) : Prop :=
  -- these checks come first and return an error
  l.aclState.isOneToOne = false ∧ l.aclState.lastRecordId = record.prevId ∧ record.id ≠ [] ∧
  newAdmissionValidator.validateAclData record.model = .ok () ∧
  ∃ before ch after st, AclState.contents record = before ++ ch :: after ∧
    before.foldlM (AclState.applyStep C newAdmissionValidator record ord) l.aclState = .ok st ∧
    st.CrashesOn C record ch.1

/-- A list that validated records have led to: the list of a space after an accepted log, or the
list of a one-to-one space, which has a root only. -/
def AclList.Reached (C : Crypto) (l : AclList) : Prop :=
  (∃ validates root key log l₀, AcceptedLog C validates root key log l₀ l) ∨
  ∃ validates root key, root.model.oneToOneInfo.isSome = true ∧
    AclList.build C validates root key = .ok l

section Record

variable {C : Crypto} {st st' : AclState} {l : AclList} {record : AclRecord} {ord : RangeOrder}

/-- The content values of a record keep what `applyChangeContent_eq_panicked_iff` asks for. -/
theorem AclState.pubKeysWF_of_applyStep {ch : AclContentValue × ℕ}
    (hst : st.PubKeysWF ∧ st.readKeyChanges ≠ [])
    (h : st.applyStep C newAdmissionValidator record ord ch = .ok st') :
    st'.PubKeysWF ∧ st'.readKeyChanges ≠ [] := by
  rw [AclState.applyStep, ← AclState.applyChangeContent_flatten] at h
  refine foldlM_invariant_of_trace (fun s => s.PubKeysWF ∧ s.readKeyChanges ≠ [])
    (fun x => x.2 ∈ ch.1.flatten) (fun s ch' s' hs hmem hstep => ?_) hst
    (fun x hx => mem_of_mem_runTrace hx) h
  have t := transition_of_apply rfl (AclContentValue.ne_permissionChanges_of_mem_flatten hmem) hstep
  refine ⟨t.pubKeysWF hs.1, ?_⟩
  rw [t.readKeyChanges_eq]
  simp [hs.2]

theorem AclList.build_isOneToOne {validates : Bool} {root : AclRootRecord} {key : PrivKey}
    (hinfo : root.model.oneToOneInfo.isSome = true)
    (h : AclList.build C validates root key = .ok l) : l.aclState.isOneToOne = true := by
  obtain ⟨info, hinfo⟩ := Option.isSome_iff_exists.mp hinfo
  simp only [AclList.build, newAclStateWithKeys, AclState.applyRoot, hinfo,
    AclState.setOneToOneAcl, bind_eq_ok] at h
  obtain ⟨st, ⟨_, -, _, -, hst⟩, hl⟩ := h
  have hset : st.isOneToOne = true := by
    split at hst
    all_goals
      simp only [bind_eq_ok] at hst
      obtain ⟨_, -, _, -, _, -, hst⟩ := hst
      obtain rfl := Except.ok.inj hst
      rfl
  obtain rfl := Except.ok.inj hl
  exact hset

/-- `ApplyRecord` on the copy of the state panics iff the content comes to a value that does. -/
theorem AclList.Reached.validateRecord_eq_panicked_iff (h : l.Reached C) :
    l.validateRecord C record ord = .error .panicked ↔ l.CrashesOn C record ord := by
  rcases h with ⟨validates, root, key, log, l₀, h⟩ | ⟨validates, root, key, hinfo, hbuild⟩
  · have hstate : l.aclState.PubKeysWF ∧ l.aclState.readKeyChanges ≠ [] :=
      ⟨h.pubKeysWF, by simp [h.bookkeeping.readKeyChanges]⟩
    have hcontent : ∀ (before : List (AclContentValue × ℕ)) (st : AclState) ch,
        before.foldlM (AclState.applyStep C newAdmissionValidator record ord) l.aclState = .ok st →
        (st.applyStep C newAdmissionValidator record ord ch = .error .panicked ↔
          st.CrashesOn C record ch.1) := by
      intro before st ch hbefore
      obtain ⟨hpubKeys, hcurrent⟩ := foldlM_invariant
        (fun s => s.PubKeysWF ∧ s.readKeyChanges ≠ [])
        (fun _ _ _ hs hstep => AclState.pubKeysWF_of_applyStep hs hstep) hstate hbefore
      exact AclState.applyChangeContent_eq_panicked_iff hpubKeys hcurrent ch.1
    have hdata : newAdmissionValidator.validateAclData record.model ≠ .error .panicked := by
      simp [validateAclData, newAdmissionValidator, bind_eq_error]
    rw [AclList.validateRecord, h.bookkeeping.wf.state.copy_eq]
    simp only [AclState.applyRecord, AclState.applyChangeData, bind_eq_error,
      failIf_eq_error, failIf_eq_ok, reduceCtorEq, and_false, false_or, hdata, pure, Except.pure,
      exists_false, or_false, decide_eq_false_iff_not, ne_eq, not_not, AclList.CrashesOn]
    constructor
    · rintro ⟨_, hone, _, hlast, _, hid, _, hvalid, hrun⟩
      obtain ⟨before, ch, after, st, hsplit, hbefore, hch⟩ := foldlM_eq_error.mp hrun
      exact ⟨hone, hlast, hid, hvalid, before, ch, after, st, hsplit, hbefore,
        (hcontent before st ch hbefore).mp hch⟩
    · rintro ⟨hone, hlast, hid, hvalid, before, ch, after, st, hsplit, hbefore, hch⟩
      exact ⟨(), hone, (), hlast, (), hid, (), hvalid, foldlM_eq_error.mpr
        ⟨before, ch, after, st, hsplit, hbefore, (hcontent before st ch hbefore).mpr hch⟩⟩
  · have hone := AclList.build_isOneToOne hinfo hbuild
    have hcopy : (l.aclState.copy C).isOneToOne = true := hone
    simp [AclList.validateRecord, AclState.applyRecord, hcopy, failIf, AclList.CrashesOn, hone]

/-- On a list that validated records have led to, `ValidateRawRecord` returns unless the record
decodes to content that comes to a value of `AclState.CrashesOn`. -/
theorem AclList.validateRawRecord_ne_panicked_iff (h : l.Reached C) (D : Codec) (raw : RawRecord) :
    l.validateRawRecord C D raw ord ≠ .error .panicked ↔
      ∀ record, D.unmarshall C raw = .ok record → ¬ l.CrashesOn C record ord := by
  have hdecode : D.unmarshall C raw ≠ .error .panicked := by
    intro hpanic
    simp only [Codec.unmarshall, bind_eq_error] at hpanic
    have hdecoded : ∀ {α : Type} (a : Option α), Codec.decoded a ≠ .error .panicked := by
      intro α a
      cases a <;> simp [Codec.decoded]
    simp [hdecoded, pure, Except.pure] at hpanic
  rw [AclList.validateRawRecord, ne_eq, bind_eq_error, or_iff_right hdecode]
  simp only [h.validateRecord_eq_panicked_iff, not_exists, not_and]

end Record

/-- A read key change that the observer is not addressed in passes admission. -/
theorem validateRawRecord_rotationRaw :
    ∃ l₀ l, AcceptedLog Sample.rotationC true Sample.root Sample.observerKey
        (Sample.invitesLog Sample.bob) l₀ l ∧
      l.validateRawRecord Sample.rotationC Sample.rotationCodec Sample.rotation.raw .listed
        ≠ .error .panicked ∧
      ¬ l.CrashesOn Sample.rotationC Sample.rotation.record .listed := by
  have hrun : acceptedLogWith Sample.rotationC true Sample.root Sample.observerKey
      (Sample.invitesLog Sample.bob)
      (fun _ l => (l.validateRawRecord Sample.rotationC Sample.rotationCodec Sample.rotation.raw
        .listed).isOk) = true := by
    decide +kernel
  obtain ⟨l₀, l, h, htest⟩ := acceptedLog_of_acceptedLogWith hrun
  have hne : l.validateRawRecord Sample.rotationC Sample.rotationCodec Sample.rotation.raw .listed
      ≠ .error .panicked := by
    intro hpanic
    rw [hpanic] at htest
    cases htest
  have hreached : l.Reached Sample.rotationC := .inl ⟨_, _, _, _, _, h⟩
  exact ⟨l₀, l, h, hne, (AclList.validateRawRecord_ne_panicked_iff hreached Sample.rotationCodec
    Sample.rotation.raw).mp hne _ Sample.unmarshall_rotation⟩

namespace Sample

/-- An account removal without any field, after the root. -/
def emptyRemoval : Signed where
  prevId := recordId 0
  data := field 1 (field 6 [])
  model := ⟨[.accountRemove { identities := [], readKeyChange := none }]⟩
  signature := bytesOfHalves 0x22b87cb162ad25fba8b996580dcde3ca6f13829fc0a76393ddd66bb8d767fd37
    0x1267ed6f7ce84dce18c28e213cf00bec73affbc2e5722619993d6bf2473aad0f
  hash := ascii "bafyreibcglqoel5nufpphvism4osc6jz277wmfj3pgv44twm2lctodxq6u"
  id := ascii "bafyreifetxg5q4veibd4tyv4fkurrif5jwmxxgnr5uubrjv6yu2rlistii"

def emptyRemovalCodec : Codec := codec [emptyRemoval]

def emptyRemovalC : Crypto := signedC [emptyRemoval]

end Sample

open Sample

/-- An account removal of the owner without a read key change crashes whoever validates it. -/
theorem validateRawRecord_emptyRemoval_panics :
    ∃ l₀ l, AcceptedLog emptyRemovalC true root observerKey [] l₀ l ∧
      l.validateRawRecord emptyRemovalC emptyRemovalCodec emptyRemoval.raw
        .listed = .error .panicked := by
  have hrun : acceptedLogWith emptyRemovalC true root observerKey []
      (fun _ l =>
        match l.validateRawRecord emptyRemovalC emptyRemovalCodec
          emptyRemoval.raw .listed with
        | .ok _ => false
        | .error e => decide (e = .panicked)) = true := by
    decide +kernel
  obtain ⟨l₀, l, h, htest⟩ := acceptedLog_of_acceptedLogWith hrun
  refine ⟨l₀, l, h, ?_⟩
  split at htest
  · cases htest
  · next e he => rw [he, of_decide_eq_true htest]

end Acl
