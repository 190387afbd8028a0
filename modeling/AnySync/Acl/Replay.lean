import Mathlib.Data.Fintype.EquivFin
import AnySync.Acl.Account
import AnySync.Acl.Rename

/-!
# Admission and replay

A record is applied twice before it is part of a log: under the hash of its payload, with full
validation, when the network admits it, and under the id the network assigned, by every replica.
This file proves that the second application succeeds and does what the first one did.

The main result is `AclList.append_of_validateRecord`.
-/

namespace Acl

open ContentValidator
open Except (bind_eq_ok)
open GoMap (mapKV mapKV_eq_self)
open Equiv (swap swap_apply_of_ne_of_ne)

/-! ## The steps of a record -/

/-- The content values of a record one by one, with their positions: a batch of permission
changes counts as single ones. -/
def AclRecord.steps (record : AclRecord) : List (AclContentValue × ℕ) :=
  (AclState.contents record).flatMap fun x => x.1.flatten.map fun ch => (ch, x.2)

/-- One step of a record. -/
def AclState.applyStep (C : Crypto) (v : ContentValidator) (record : AclRecord) (ord : RangeOrder)
    (st : AclState) (x : AclContentValue × ℕ) : Except AclError AclState :=
  st.applyChangeContent C v record ord x.2 x.1

theorem AclRecord.steps_single {record : AclRecord} {x : AclContentValue × ℕ}
    (hx : x ∈ record.steps) (changes : AclAccountPermissionChanges) :
    x.1 ≠ .permissionChanges changes := by
  obtain ⟨y, _, hy⟩ := List.mem_flatMap.mp hx
  obtain ⟨ch, hch, rfl⟩ := List.mem_map.mp hy
  exact AclContentValue.ne_permissionChanges_of_mem_flatten hch changes

/-- The content of a record is applied step by step. -/
theorem AclState.applyChangeData_eq (C : Crypto) (v : ContentValidator) (st : AclState)
    (record : AclRecord) (ord : RangeOrder) :
    st.applyChangeData C v record ord
      = (v.validateAclData record.model >>= fun _ =>
          record.steps.foldlM (AclState.applyStep C v record ord) st) := by
  have hstep : (fun (st : AclState) (x : AclContentValue × ℕ) =>
      (x.1.flatten.map fun ch => (ch, x.2)).foldlM (AclState.applyStep C v record ord) st)
      = fun st x => st.applyChangeContent C v record ord x.2 x.1 := by
    funext st x
    rw [List.foldlM_map]
    exact AclState.applyChangeContent_flatten C v st record ord x.2 x.1
  rw [AclState.applyChangeData, AclRecord.steps, foldlM_flatMap_eq, hstep]

/-- A handler reads only the id and the author of the record. -/
theorem AclState.applyChangeContent_congr (C : Crypto) (v : ContentValidator) (st : AclState)
    (record record' : AclRecord) (hid : record'.id = record.id)
    (hidentity : record'.identity = record.identity) (ord : RangeOrder) (value : ℕ)
    (ch : AclContentValue) :
    st.applyChangeContent C v record' ord value ch
      = st.applyChangeContent C v record ord value ch := by
  obtain ⟨id, prevId, identity, model⟩ := record
  obtain ⟨id', prevId', identity', model'⟩ := record'
  obtain rfl : id' = id := hid
  obtain rfl : identity' = identity := hidentity
  cases ch <;> rfl

/-! ## Less validation -/

/-- `v'` checks no more than `v`. -/
structure ContentValidator.Weaker (v' v : ContentValidator) : Prop where
  shouldValidate : v'.shouldValidate = true → v.shouldValidate = true
  admission : v'.admission = true → v.admission = true

/-- The validators of the lists check no more than one that validates. -/
theorem weaker_of_shouldValidate {v : ContentValidator} (hv : v.shouldValidate = true) (b : Bool) :
    (newContentValidator b).Weaker v :=
  ⟨fun _ => hv, fun h => by cases h⟩

section Weaker

variable {C : Crypto} {v v' : ContentValidator} {st st' : AclState} {record : AclRecord}
  {ord : RangeOrder} {value : ℕ}
variable {u : Unit} {author : PubKey}

theorem ContentValidator.check_weaken (hv : v'.Weaker v) {body : Except AclError Unit}
    (h : v.check body = .ok u) : v'.check body = .ok u := by
  unfold check at h ⊢
  cases hv' : v'.shouldValidate with
  | false => rfl
  | true => simpa [hv.shouldValidate hv'] using h

theorem validateReadKeyChangeRemoving_weaken (hv : v'.Weaker v) {ch : Option AclReadKeyChange}
    {removed : List GoString} (h : validateReadKeyChangeRemoving C v st ch removed = .ok u) :
    validateReadKeyChangeRemoving C v' st ch removed = .ok u :=
  check_weaken hv h

theorem validateReadKeyChange_weaken (hv : v'.Weaker v) {ch : AclReadKeyChange}
    (h : validateReadKeyChange C v st author ch = .ok u) :
    validateReadKeyChange C v' st author ch = .ok u := by
  have h' := check_weaken hv h
  unfold check at h'
  unfold validateReadKeyChange check
  split at h'
  · next hoff => rw [if_pos hoff]
  · next hon =>
    rw [if_neg hon]
    simp only [bind_eq_ok] at h' ⊢
    obtain ⟨w, hauthor, hkeys⟩ := h'
    exact ⟨w, hauthor, validateReadKeyChangeRemoving_weaken hv hkeys⟩

theorem validateAccountRemove_weaken (hv : v'.Weaker v) {ch : AclAccountRemove}
    (h : validateAccountRemove C v st author ch = .ok u) :
    validateAccountRemove C v' st author ch = .ok u := by
  have h' := check_weaken hv h
  unfold check at h'
  unfold validateAccountRemove check
  split at h'
  · next hoff => rw [if_pos hoff]
  · next hon =>
    rw [if_neg hon]
    simp only [bind_eq_ok] at h' ⊢
    obtain ⟨w, hauthor, seen, hseen, hkeys⟩ := h'
    exact ⟨w, hauthor, seen, hseen, validateReadKeyChangeRemoving_weaken hv hkeys⟩

/-- A validator that checks less accepts the same content, with the same result. -/
theorem AclState.applyChangeContent_weaken (hv : v'.Weaker v) {ch : AclContentValue}
    (hsingle : ∀ changes, ch ≠ .permissionChanges changes)
    (h : st.applyChangeContent C v record ord value ch = .ok st') :
    st.applyChangeContent C v' record ord value ch = .ok st' := by
  cases ch with
  | permissionChange ch =>
    obtain ⟨identity, hid, h⟩ := bind_eq_ok.mp h
    obtain ⟨u, hu, hst⟩ := bind_eq_ok.mp h
    exact bind_eq_ok.mpr ⟨identity, hid,
      bind_eq_ok.mpr ⟨u, check_weaken hv hu, hst⟩⟩
  | invite ch =>
    obtain ⟨key, hkey, h⟩ := bind_eq_ok.mp h
    obtain ⟨u, hu, hst⟩ := bind_eq_ok.mp h
    exact bind_eq_ok.mpr ⟨key, hkey,
      bind_eq_ok.mpr ⟨u, check_weaken hv hu, hst⟩⟩
  | accountRemove ch =>
    obtain ⟨u, hu, hst⟩ := bind_eq_ok.mp h
    exact bind_eq_ok.mpr ⟨u, validateAccountRemove_weaken hv hu, hst⟩
  | readKeyChange ch =>
    obtain ⟨u, hu, hst⟩ := bind_eq_ok.mp h
    exact bind_eq_ok.mpr ⟨u, validateReadKeyChange_weaken hv hu, hst⟩
  | permissionChanges changes => exact absurd rfl (hsingle changes)
  | unset =>
    obtain ⟨u, hu, hst⟩ := bind_eq_ok.mp h
    refine bind_eq_ok.mpr ⟨u, ?_, hst⟩
    unfold validateUnexpectedContent at hu ⊢
    cases hv' : v'.admission with
    | false => rfl
    | true => simp [hv.admission hv'] at hu
  | _ =>
    -- the handler validates first
    obtain ⟨u, hu, hst⟩ := bind_eq_ok.mp h
    exact bind_eq_ok.mpr ⟨u, check_weaken hv hu, hst⟩

end Weaker

/-! ## Dropping read keys of others -/

section Filter

variable {C : Crypto} {v : ContentValidator} {st st' : AclState} {record : AclRecord}
  {ord : RangeOrder} {value : ℕ}

theorem AclState.ownReadKey_filter {keys : List AclEncryptedReadKey} {readKey : Option SymKey}
    (h : st.ownReadKey C keys = .ok readKey) :
    st.ownReadKey C (filterAccountKeys (isOurIdentity C st.pubKey) keys) = .ok readKey := by
  refine foldlM_filter_of_skip (fun s k s' hnot hstep => ?_) h
  simp only [isOurIdentity, Bool.or_eq_false_iff, decide_eq_false_iff_not] at hnot
  cases hid : C.unmarshalPublicKey k.identity with
  | none => simp [hid] at hstep
  | some identity =>
    have hne : st.pubKey ≠ identity := fun heq => hnot.2 (by rw [hid, heq])
    simp only [hid, if_neg hne] at hstep
    exact (Except.ok.inj hstep).symm

theorem AclState.changeReadKey_filter {ch : Option AclReadKeyChange}
    (h : st.changeReadKey C record ord value ch = .ok st') :
    st.changeReadKey C record ord value
      (ch.map (·.filterKeys (isOurIdentity C st.pubKey))) = .ok st' := by
  cases ch with
  | none => exact h
  | some ch =>
    simp only [changeReadKey, storeReadKey, bind_eq_ok, Option.map_some] at h ⊢
    obtain ⟨mkPubKey, hmk, readKey, hread, h⟩ := h
    exact ⟨mkPubKey, hmk, readKey, ownReadKey_filter hread, h⟩

theorem AclState.removeAccount_frame {raw : Bytes} (h : st.removeAccount C record raw = .ok st') :
    st'.pubKey = st.pubKey ∧ st'.invites = st.invites := by
  simp only [removeAccount, bind_eq_ok] at h
  obtain ⟨identity, _, h⟩ := h
  split at h
  · cases h
  · cases h
    exact ⟨rfl, rfl⟩

/-- Without validation, a content value has the same effect when only the read keys addressed to
us are decoded. -/
theorem AclState.applyChangeContent_filter (hv : v.shouldValidate = false) {ch : AclContentValue}
    (h : st.applyChangeContent C v record ord value ch = .ok st') :
    st.applyChangeContent C v record ord value
      (ch.filterKeys (isOurIdentity C st.pubKey)) = .ok st' := by
  have hcheck : ∀ body, v.check body = .ok () := fun body => by simp [check, hv]
  cases ch with
  | readKeyChange ch =>
    obtain ⟨u, _, hst⟩ := bind_eq_ok.mp h
    exact bind_eq_ok.mpr ⟨(), hcheck _, changeReadKey_filter hst⟩
  | accountRemove ch =>
    obtain ⟨u, _, hst⟩ := bind_eq_ok.mp h
    obtain ⟨m, hm, hst⟩ := bind_eq_ok.mp hst
    have hpubKey : m.pubKey = st.pubKey := foldlM_invariant (·.pubKey = st.pubKey)
      (fun s raw s' hs hstep => (removeAccount_frame hstep).1.trans hs) rfl hm
    refine bind_eq_ok.mpr ⟨(), hcheck _, bind_eq_ok.mpr ⟨_, hm, ?_⟩⟩
    rw [← hpubKey]
    exact changeReadKey_filter hst
  | _ => exact h

end Filter

/-! ## Map orders -/

theorem View.refl_nil : Equiv.refl GoString [] = [] := rfl

/-- The view that hides the read keys of invites and renames nothing. -/
def View.hideInviteKeys : View where
  ids := Equiv.refl _
  ids_nil := View.refl_nil
  inviteKey _ := none
  inviteKey_idem _ := rfl

/-- No two requests are of `identity`. -/
def DistinctRequest (requests : GoMap GoString RequestRecord) (identity : PubKey) : Prop :=
  ∀ e ∈ requests.entries, ∀ e' ∈ requests.entries, e.2.requestIdentity = identity →
    e'.2.requestIdentity = identity → e.1 = e'.1

instance (requests : GoMap GoString RequestRecord) (identity : PubKey) :
    Decidable (DistinctRequest requests identity) := by
  unfold DistinctRequest
  infer_instance

/-- In a well-formed state each open request is the pending one of its account. -/
theorem AclState.RequestsWF.distinctRequest {st : AclState} (hwf : st.RequestsWF)
    (identity : PubKey) : DistinctRequest st.requestRecords identity := by
  rintro ⟨r, a⟩ hr ⟨r', b⟩ hr' rfl hsame
  have ha := hwf.request r a (GoMap.lookup_eq_some_iff.mpr hr)
  have hb := hwf.request r' b (GoMap.lookup_eq_some_iff.mpr hr')
  rw [hsame] at hb
  exact Option.some.inj (ha.2.symm.trans hb.2)

/-- If an account has at most one open request, it does not matter in which order a join by invite
looks for it. -/
theorem AclState.dropRequestOf_order {st : AclState} {identity : PubKey}
    (h : DistinctRequest st.requestRecords identity) (ord ord' : RangeOrder) (value : ℕ) :
    st.dropRequestOf ord' value identity = st.dropRequestOf ord value identity := by
  have hunique : ∀ a ∈ st.requestRecords.entries.map Sigma.snd,
      ∀ b ∈ st.requestRecords.entries.map Sigma.snd,
      decide (a.requestIdentity = identity) = true → decide (b.requestIdentity = identity) = true →
        a = b := by
    intro a ha b hb hida hidb
    obtain ⟨e, he, rfl⟩ := List.mem_map.mp ha
    obtain ⟨e', he', rfl⟩ := List.mem_map.mp hb
    rw [GoMap.eq_of_mem_entries he he'
      (h e he e' he' (of_decide_eq_true hida) (of_decide_eq_true hidb))]
  simp only [dropRequestOf, RangeOrder.find?_shuffle _ _ _ hunique]

/-- The account that joins by an invite. -/
def AclContentValue.joining (C : Crypto) : AclContentValue → Option PubKey
  | .inviteJoin ch => C.unmarshalPublicKey ch.identity
  | _ => none

section Order

variable {C : Crypto} {v : ContentValidator} {s s' : AclState} {record : AclRecord}
  {ord ord' : RangeOrder} {value : ℕ} {ch : AclContentValue}

/-- The content values other than read key changes and removals do not depend on the order. -/
theorem AclState.applyChangeContent_order_eq
    (hjoin : ∀ identity ∈ ch.joining C, DistinctRequest s.requestRecords identity)
    (hread : ∀ ch', ch ≠ .readKeyChange ch') (hremove : ∀ ch', ch ≠ .accountRemove ch') :
    s.applyChangeContent C v record ord' value ch
      = s.applyChangeContent C v record ord value ch := by
  cases ch with
  | readKeyChange ch => exact absurd rfl (hread ch)
  | accountRemove ch => exact absurd rfl (hremove ch)
  | inviteJoin ch =>
    simp only [applyChangeContent, applyInviteJoinWithoutApprove]
    refine bind_congr fun _ => ?_
    cases hkey : C.unmarshalPublicKey ch.identity with
    | none => simp only [Crypto.pubKeyFromProto, hkey, Except.error_bind]
    | some identity =>
      simp only [Crypto.pubKeyFromProto, hkey, Except.ok_bind]
      split
      · rfl
      · refine bind_congr fun keyRecordId => congrArg (unpackIfOurs C · identity _) ?_
        apply dropRequestOf_order
        exact hjoin identity hkey
  | _ => rfl

/-- Up to the read keys of invites, no content value depends on the order. -/
theorem AclState.applyChangeContent_order (hwf : s.RequestsWF)
    (hs : s'.view View.hideInviteKeys = s.view View.hideInviteKeys) :
    AclState.view View.hideInviteKeys <$> s'.applyChangeContent C v record ord' value ch
      = AclState.view View.hideInviteKeys <$> s.applyChangeContent C v record ord value ch := by
  have hcongr := fun (s : AclState) (ord : RangeOrder) (ch : AclContentValue) =>
    applyChangeContent_congr C v s record (record.view View.hideInviteKeys) rfl rfl ord value ch
  by_cases hread : ∃ ch', ch = .readKeyChange ch'
  · obtain ⟨ch', rfl⟩ := hread
    rw [← hcongr s' ord']
    exact applyReadKeyChange_simulates _ C v record (.inr fun _ => rfl) value ch' s' s hs
  · by_cases hremove : ∃ ch', ch = .accountRemove ch'
    · obtain ⟨ch', rfl⟩ := hremove
      rw [← hcongr s' ord']
      exact applyAccountRemove_simulates _ C v record (.inr fun _ => rfl) value ch' s' s hs
    · have hview : ch.view View.hideInviteKeys = ch := by cases ch <;> rfl
      rw [← applyChangeContent_order_eq (fun identity _ => hwf.distinctRequest identity)
        (fun ch' h => hread ⟨ch', h⟩) (fun ch' h => hremove ⟨ch', h⟩), ← hcongr s' ord']
      have hsim := applyChangeContent_simulates View.hideInviteKeys C v record ord' value ch s' s hs
      rwa [hview] at hsim

end Order

/-! ## Record ids -/

variable {ch : AclContentValue}

/-- The view that renames record ids and shows everything. -/
@[simps]
def View.rename (ids : Equiv.Perm GoString) (h : ids [] = []) : View where
  ids := ids
  ids_nil := h
  inviteKey k := k
  inviteKey_idem _ := rfl

/-- The renaming of the id of one record. No state holds both ids, so that the exchange of the two
replaces `old` by `new`. -/
def View.renameRecord (old new : GoString) (hold : old ≠ []) (hnew : new ≠ []) : View :=
  .rename (swap old new) (swap_apply_of_ne_of_ne hold.symm hnew.symm)

theorem view_rename_refl (st : AclState) : st.view (View.rename (Equiv.refl _) rfl) = st := by
  have hchange : PermissionChange.view (View.rename (Equiv.refl _) rfl) = id := rfl
  have haccount : AccountState.view (View.rename (Equiv.refl _) rfl) = id := by
    funext a
    simp only [AccountState.view, hchange, List.map_id]
    rfl
  have hmap : ∀ {W : Type} (m : GoMap GoString W), mapKV (Equiv.refl _) id m = m := fun m =>
    AList.ext (List.map_id _)
  have hoption : OptionChange.view (View.rename (Equiv.refl _) rfl) = id := rfl
  obtain ⟨⟩ := st
  simp only [AclState.view, haccount, hmap, hoption, List.map_id, AclState.mk.injEq, true_and]
  exact ⟨rfl, hmap _, hmap _, hmap _, hmap _, List.map_id _, rfl, trivial⟩

/-- Renaming commutes with the application of a content value. -/
theorem applyChangeContent_rename (ids : Equiv.Perm GoString) (hnil : ids [] = []) (C : Crypto)
    (v : ContentValidator) (st : AclState) (record : AclRecord) (ord : RangeOrder) (value : ℕ)
    (ch : AclContentValue) :
    (st.view (.rename ids hnil)).applyChangeContent C v (record.view (.rename ids hnil)) ord value
        (ch.view (.rename ids hnil))
      = AclState.view (.rename ids hnil) <$> st.applyChangeContent C v record ord value ch := by
  have hstill : AclState.view (View.rename ids hnil).still = id := funext view_rename_refl
  have h := AclState.applyChangeContent_simulates (.rename ids hnil) C v record ord value ch
    (st.view (.rename ids hnil)) st (by rw [hstill, id])
  rwa [hstill, id_map] at h

/-- The ids of the records that a content value mentions. -/
def AclContentValue.recordIds : AclContentValue → List GoString
  | .inviteRevoke ch => [ch.inviteRecordId]
  | .requestJoin ch => [ch.inviteRecordId]
  | .requestAccept ch => [ch.requestRecordId]
  | .requestDecline ch => [ch.requestRecordId]
  | .requestCancel ch => [ch.recordId]
  | .inviteJoin ch => [ch.inviteRecordId]
  | .inviteChange ch => [ch.inviteRecordId]
  | _ => []

theorem AclContentValue.view_of_fixed {V : View} (h : ∀ id ∈ ch.recordIds, V.ids id = id) :
    ch.view V = ch := by
  cases ch <;> simp_all [view, recordIds]

/-- A content value that passes validation mentions only invites and open requests. -/
theorem Transition.recordIds_resolve {C : Crypto} {st st' : AclState} {record : AclRecord}
    (t : Transition C st record ch st') :
    ∀ id ∈ ch.recordIds, (∃ invite, st.invites.lookup id = some invite) ∨
      ∃ request, st.IsRequest id request := by
  intro id hid
  cases t <;> simp only [AclContentValue.recordIds, List.mem_singleton, List.not_mem_nil] at hid
  case inviteChange found _ _ _ _ _ _ => exact .inl ⟨_, hid ▸ found⟩
  case inviteJoin found _ _ _ _ _ => exact .inl ⟨_, hid ▸ found⟩
  case inviteRevoke found => exact .inl (hid ▸ found)
  case requestJoin found _ _ _ => exact .inl ⟨_, hid ▸ found⟩
  case requestAccept found _ _ _ => exact .inr ⟨_, hid ▸ found⟩
  case requestDecline found _ _ => exact .inr ⟨_, hid ▸ found⟩
  case requestCancel found _ _ => exact .inr ⟨_, hid ▸ found⟩

/-- The state speaks about no record ids but `known`: renaming others changes nothing. -/
def AclState.Supported (st : AclState) (known : List GoString) : Prop :=
  ∀ (ids : Equiv.Perm GoString) (hnil : ids [] = []), (∀ id ∈ known, ids id = id) →
    st.view (.rename ids hnil) = st

/-- The ids of the records that a state speaks about. -/
def AclState.recordIds (st : AclState) : List GoString :=
  [st.id, st.lastRecordId] ++ st.readKeyChanges ++ st.optionChanges.map OptionChange.recordId ++
    st.keys.entries.map Sigma.fst ++ st.pendingRequests.entries.map Sigma.snd ++
    st.invites.entries.flatMap (fun e => [e.1, e.2.id]) ++
    st.requestRecords.entries.flatMap (fun e => [e.1, e.2.recordId, e.2.keyRecordId]) ++
    st.accountStates.entries.flatMap fun e =>
      e.2.keyRecordId :: e.2.permissionChanges.map PermissionChange.recordId

/-- A state speaks about no record ids but its own. -/
theorem AclState.supported_recordIds (st : AclState) : st.Supported st.recordIds := by
  intro ids hnil hfix
  simp only [recordIds, List.forall_mem_append, List.forall_mem_cons, List.forall_mem_map,
    List.forall_mem_flatMap, List.not_mem_nil, false_imp_iff, forall_const, and_true] at hfix
  obtain ⟨⟨⟨⟨⟨⟨⟨⟨hid, hlast⟩, hread⟩, hoptions⟩, hkeys⟩, hpending⟩, hinvites⟩, hrequests⟩,
    haccounts⟩ := hfix
  have hmap : ∀ {α : Type} (f : α → α) (l : List α), (∀ a ∈ l, f a = a) → l.map f = l :=
    fun f l h => (List.map_congr_left h).trans (List.map_id l)
  have hoptions' := hmap (OptionChange.view (.rename ids hnil)) st.optionChanges fun c hc => by
    rw [OptionChange.view, View.rename_ids, hoptions c hc]
  have hkeys' : mapKV ids (fun k => k) st.keys = st.keys :=
    mapKV_eq_self fun e he => ⟨hkeys e he, rfl⟩
  have hpending' : mapKV (Equiv.refl _) ids st.pendingRequests = st.pendingRequests :=
    mapKV_eq_self fun e he => ⟨rfl, hpending e he⟩
  have haccounts' : mapKV (Equiv.refl _) (AccountState.view (.rename ids hnil))
      st.accountStates = st.accountStates := by
    refine mapKV_eq_self fun e he => ⟨rfl, ?_⟩
    rw [AccountState.view, View.rename_ids, (haccounts e he).1, hmap]
    intro c hc
    rw [PermissionChange.view, View.rename_ids, (haccounts e he).2 c hc]
  have hinvites' : mapKV ids (Invite.view (.rename ids hnil)) st.invites = st.invites := by
    refine mapKV_eq_self fun e he => ⟨(hinvites e he).1, ?_⟩
    rw [Invite.view, View.rename_ids, (hinvites e he).2, View.rename_inviteKey]
  have hrequests' : mapKV ids (RequestRecord.view (.rename ids hnil)) st.requestRecords =
      st.requestRecords := by
    refine mapKV_eq_self fun e he => ⟨(hrequests e he).1, ?_⟩
    rw [RequestRecord.view, View.rename_ids, (hrequests e he).2.1, (hrequests e he).2.2]
  simp only [AclState.view, View.rename_ids, hid, hlast, hmap ids _ hread, hoptions', hkeys',
    hpending', haccounts', hinvites', hrequests']

/-- An id that no renaming outside of `known` moves is in `known`. -/
theorem mem_of_fixed {known : List GoString} {id : GoString}
    (h : ∀ ids : Equiv.Perm GoString, ids [] = [] → (∀ k ∈ known, ids k = k) → ids id = id) :
    id = [] ∨ id ∈ known := by
  by_contra hnot
  obtain ⟨hnil, hknown⟩ := not_or.mp hnot
  obtain ⟨x, hx⟩ := Infinite.exists_notMem_finset (id :: [] :: known).toFinset
  simp only [List.mem_toFinset, List.mem_cons, not_or] at hx
  obtain ⟨hxid, hxnil, hxknown⟩ := hx
  refine hxid ?_
  rw [← h (swap id x) (swap_apply_of_ne_of_ne (Ne.symm hnil) (Ne.symm hxnil))
    (fun k hk => swap_apply_of_ne_of_ne (fun heq => hknown (heq ▸ hk))
      (fun heq => hxknown (heq ▸ hk))), Equiv.swap_apply_left]

namespace AclState.Supported

variable {C : Crypto} {v : ContentValidator} {st st' : AclState} {record : AclRecord}
  {known : List GoString} {ord : RangeOrder} {value : ℕ} {ch : AclContentValue}

theorem mono {known' : List GoString} (h : st.Supported known) (hsub : known ⊆ known') :
    st.Supported known' :=
  fun ids hnil hfix => h ids hnil fun id hid => hfix id (hsub hid)

/-- The keys of the invites and of the requests are known. -/
theorem mem_of_resolve (h : st.Supported known) {id : GoString}
    (hid : (∃ invite, st.invites.lookup id = some invite) ∨ ∃ request, st.IsRequest id request) :
    id = [] ∨ id ∈ known := by
  refine mem_of_fixed fun ids hnil hfix => ?_
  have hview := h ids hnil hfix
  rcases hid with ⟨_, hinvite⟩ | ⟨_, hrequest⟩
  · exact (GoMap.fixed_of_mapKV_eq (congrArg AclState.invites hview) hinvite).1
  · exact (GoMap.fixed_of_mapKV_eq (congrArg AclState.requestRecords hview) hrequest).1

/-- A validated content value of a known record creates nothing under other ids. -/
theorem step (h : st.Supported known) (hrecord : record.id ∈ known) (hv : v.shouldValidate = true)
    (hsingle : ∀ changes, ch ≠ .permissionChanges changes)
    (happly : st.applyChangeContent C v record ord value ch = .ok st') : st'.Supported known := by
  intro ids hnil hfix
  have hch : ch.view (.rename ids hnil) = ch := by
    refine AclContentValue.view_of_fixed fun id hid => ?_
    have hresolve := (transition_of_apply hv hsingle happly).recordIds_resolve id hid
    rcases h.mem_of_resolve hresolve with rfl | hmem
    · exact hnil
    · exact hfix id hmem
  have hrename := applyChangeContent_rename ids hnil C v st record ord value ch
  have hcongr : st.applyChangeContent C v (record.view (.rename ids hnil)) ord value ch
      = st.applyChangeContent C v record ord value ch :=
    applyChangeContent_congr C v st record (record.view (.rename ids hnil)) (hfix _ hrecord) rfl
      ord value ch
  rw [hch, h ids hnil hfix, hcongr, happly] at hrename
  exact (Except.ok.inj hrename).symm

end AclState.Supported

/-! ## Well-formed states -/

/-- What holds of a state in which the records `known` were applied. -/
structure AclState.WF (C : Crypto) (st : AclState) (known : List GoString) : Prop where
  pubKey : st.pubKey = C.getPublic st.key
  requests : st.RequestsWF
  invites : st.InvitesWF
  supported : st.Supported known

theorem Transition.keys_eq {C : Crypto} {st st' : AclState} {record : AclRecord}
    {ch : AclContentValue} (t : Transition C st record ch st') :
    st'.key = st.key ∧ st'.pubKey = st.pubKey := by
  cases t with
  | inviteJoin => rw [AclState.dropRequestOf_eq]; exact ⟨rfl, rfl⟩
  | _ => exact ⟨rfl, rfl⟩

section WF

variable {C : Crypto} {v : ContentValidator} {st st' : AclState} {record : AclRecord}
  {known : List GoString} {ord : RangeOrder}

theorem AclState.WF.copy_eq (h : st.WF C known) : st.copy C = st := by
  rw [AclState.copy, ← h.pubKey]

/-- A record with a new id has no request yet. -/
theorem AclState.Supported.ownRequest (h : st.Supported known) (hnew : record.id ∉ known)
    (hne : record.id ≠ []) : st.OwnRequest record := by
  intro request hrequest
  rcases h.mem_of_resolve (.inr ⟨request, hrequest⟩) with hnil | hmem
  · exact absurd hnil hne
  · exact absurd hmem hnew

/-- What holds of a state while the content of `record` is applied. -/
structure AclState.WFDuring (C : Crypto) (st : AclState) (known : List GoString)
    (record : AclRecord) : Prop extends st.WF C known where
  record_known : record.id ∈ known
  ownRequest : st.OwnRequest record

theorem AclState.WF.during (h : st.WF C known) (hnew : record.id ∉ known) (hne : record.id ≠ []) :
    st.WFDuring C (record.id :: known) record where
  pubKey := h.pubKey
  requests := h.requests
  invites := h.invites
  supported := h.supported.mono (List.subset_cons_self _ _)
  record_known := List.mem_cons_self
  ownRequest := h.supported.ownRequest hnew hne

/-- Each validated content value keeps the state well formed. -/
theorem AclState.WFDuring.single (h : st.WFDuring C known record) (hv : v.shouldValidate = true)
    {ch : AclContentValue} {value : ℕ} (hsingle : ∀ changes, ch ≠ .permissionChanges changes)
    (happly : st.applyChangeContent C v record ord value ch = .ok st') :
    st'.WFDuring C known record := by
  have t := transition_of_apply hv hsingle happly
  obtain ⟨hkey, hpubKey⟩ := t.keys_eq
  exact
    { pubKey := by rw [hkey, hpubKey, h.pubKey]
      requests := t.requestsWF h.requests h.ownRequest
      invites := t.invitesWF h.invites
      supported := h.supported.step h.record_known hv hsingle happly
      record_known := h.record_known
      ownRequest := t.ownRequest h.requests h.ownRequest }

theorem AclState.WFDuring.step (h : st.WFDuring C known record) (hv : v.shouldValidate = true)
    {x : AclContentValue × ℕ} (hx : x ∈ record.steps)
    (happly : st.applyStep C v record ord x = .ok st') : st'.WFDuring C known record :=
  h.single hv (AclRecord.steps_single hx) happly

theorem AclState.WF.setLast (h : st.WF C known) {id : GoString} (hid : id ∈ known) :
    { st with lastRecordId := id }.WF C known where
  pubKey := h.pubKey
  requests := ⟨h.requests.pending, h.requests.request, h.requests.known⟩
  invites := h.invites
  supported ids hnil hfix := by
    have hview := h.supported ids hnil hfix
    calc ({ st with lastRecordId := id } : AclState).view (.rename ids hnil)
        = { st.view (.rename ids hnil) with lastRecordId := ids id } := rfl
      _ = { st with lastRecordId := id } := by rw [hview, hfix id hid]

end WF

/-! ## Steps of the two applications -/

section Steps

variable {C : Crypto} {v v' : ContentValidator} {st st' : AclState} {record : AclRecord}
  {known : List GoString} {ord ord' : RangeOrder}

/-- The content of a record that is accepted with one map order is accepted with every order, with
the same result up to the read keys of invites. -/
theorem AclState.WFDuring.steps_reorder (h : st.WFDuring C known record)
    (hv : v.shouldValidate = true) (ord' : RangeOrder)
    (hrun : record.steps.foldlM (AclState.applyStep C v record ord) st = .ok st') :
    ∃ m, record.steps.foldlM (AclState.applyStep C v record ord') st = .ok m ∧
      m.view View.hideInviteKeys = st'.view View.hideInviteKeys := by
  let R (s t : AclState) : Prop :=
    s.WFDuring C known record ∧ t.view View.hideInviteKeys = s.view View.hideInviteKeys
  have hstep : ∀ s t x s', x ∈ record.steps → R s t → s.applyStep C v record ord x = .ok s' →
      ∃ t', t.applyStep C v record ord' x = .ok t' ∧ R s' t' := by
    rintro s t x s' hx ⟨hs, hst⟩ happly
    have horder : AclState.view View.hideInviteKeys <$> t.applyStep C v record ord' x
        = AclState.view View.hideInviteKeys <$> s.applyStep C v record ord x :=
      AclState.applyChangeContent_order hs.requests hst
    rw [happly] at horder
    cases ht : t.applyStep C v record ord' x with
    | error e =>
      rw [ht] at horder
      cases horder
    | ok t' =>
      rw [ht] at horder
      exact ⟨t', rfl, hs.step hv hx happly, Except.ok.inj horder⟩
  obtain ⟨m, hm, -, hview⟩ := foldlM_simulation_same R _ hstep ⟨h, rfl⟩ hrun
  exact ⟨m, hm, hview⟩

/-- The content of a record that is accepted under the id `record.id` is accepted under the id
`id`, with the renamed result, if it mentions neither of the two. -/
theorem AclState.Supported.steps_rename (h : st.Supported known) (hv : v.shouldValidate = true)
    (hprovisional : record.id ∉ known) (hne : record.id ≠ [])
    (hmention : ∀ x ∈ record.steps, record.id ∉ x.1.recordIds) {id : GoString} (hid : id ∉ known)
    (hid' : id ≠ []) (hrun : record.steps.foldlM (AclState.applyStep C v record ord) st = .ok st') :
    record.steps.foldlM (AclState.applyStep C v { record with id := id } ord) st
      = .ok (st'.view (.renameRecord record.id id hne hid')) := by
  have hnil : swap record.id id [] = [] :=
    swap_apply_of_ne_of_ne hne.symm hid'.symm
  -- the known ids stay, and the state speaks of no others
  have hfix : ∀ k ∈ known, swap record.id id k = k := fun k hk =>
    swap_apply_of_ne_of_ne (fun heq => hprovisional (heq ▸ hk)) (fun heq => hid (heq ▸ hk))
  let V : View := .rename (swap record.id id) hnil
  let R (s t : AclState) : Prop :=
    s.Supported (record.id :: known) ∧ t = s.view V
  have hstep : ∀ s t x s', x ∈ record.steps → R s t → s.applyStep C v record ord x = .ok s' →
      ∃ t', t.applyStep C v { record with id := id } ord x = .ok t' ∧ R s' t' := by
    rintro s t x s' hx ⟨hs, rfl⟩ happly
    have hsingle := AclRecord.steps_single hx
    refine ⟨s'.view V, ?_, hs.step List.mem_cons_self hv hsingle happly, rfl⟩
    -- the content names only ids that the state knows
    have hch : x.1.view V = x.1 := by
      refine AclContentValue.view_of_fixed fun k hk => ?_
      have hresolve := (transition_of_apply hv hsingle happly).recordIds_resolve k hk
      rcases hs.mem_of_resolve hresolve with rfl | hmem
      · exact hnil
      · rcases List.mem_cons.mp hmem with rfl | hmem
        · exact absurd hk (hmention x hx)
        · exact hfix k hmem
    have hrename := applyChangeContent_rename _ hnil C v s record ord x.2 x.1
    rw [hch] at hrename
    have hcongr : (s.view V).applyChangeContent C v { record with id := id } ord x.2 x.1
        = (s.view V).applyChangeContent C v (record.view V) ord x.2 x.1 :=
      AclState.applyChangeContent_congr C v _ (record.view V) { record with id := id }
        (Equiv.swap_apply_left _ _).symm rfl ord x.2 x.1
    exact hcongr.trans (hrename.trans (congrArg _ happly))
  obtain ⟨t, ht, -, rfl⟩ := foldlM_simulation_same R _ hstep
    ⟨h.mono (List.subset_cons_self _ _), (h _ hnil hfix).symm⟩ hrun
  exact ht

/-- A record is applied iff it follows the last record and all its steps succeed. -/
theorem AclState.applyRecord_eq_ok :
    st.applyRecord C v record ord = .ok st' ↔
      st.isOneToOne = false ∧ st.lastRecordId = record.prevId ∧ record.id ≠ [] ∧
        v.validateAclData record.model = .ok () ∧
        ∃ m, record.steps.foldlM (AclState.applyStep C v record ord) st = .ok m ∧
          st' = { m with lastRecordId := record.id } := by
  simp only [AclState.applyRecord, AclState.applyChangeData_eq, bind_eq_ok, failIf_eq_ok,
    decide_eq_false_iff_not, ne_eq, not_not]
  constructor
  · rintro ⟨_, hone, _, hprev, _, hne, m, ⟨_, hdata, hrun⟩, hst⟩
    exact ⟨hone, hprev, hne, hdata, m, hrun, (Except.ok.inj hst).symm⟩
  · rintro ⟨hone, hprev, hne, hdata, m, hrun, rfl⟩
    exact ⟨(), hone, (), hprev, (), hne, m, ⟨(), hdata, hrun⟩, rfl⟩

theorem AclContentValue.flatten_filterKeys (isOurs : Bytes → Bool) (ch : AclContentValue) :
    (ch.filterKeys isOurs).flatten = ch.flatten.map (·.filterKeys isOurs) := by
  cases ch with
  | permissionChanges ch =>
    simp [filterKeys, flatten]
  | _ => rfl

/-- The record with only the read keys that `isOurs` keeps. -/
def AclRecord.filterKeys (isOurs : Bytes → Bool) (record : AclRecord) : AclRecord :=
  { record with model := record.model.filterKeys isOurs }

theorem AclRecord.steps_filterKeys (isOurs : Bytes → Bool) (record : AclRecord) :
    (record.filterKeys isOurs).steps = record.steps.map fun x => (x.1.filterKeys isOurs, x.2) := by
  simp only [AclRecord.steps, AclState.contents, AclRecord.filterKeys, AclData.filterKeys,
    List.zipIdx_map, List.flatMap_map, List.map_flatMap, List.map_map, Prod.map,
    AclContentValue.flatten_filterKeys]
  rfl

/-- What passed a validator passes every one that checks no more. -/
theorem AclState.steps_weaken (hv : v'.Weaker v)
    (hrun : record.steps.foldlM (AclState.applyStep C v record ord) st = .ok st') :
    record.steps.foldlM (AclState.applyStep C v' record ord) st = .ok st' := by
  obtain ⟨t, ht, rfl⟩ := foldlM_simulation_same (· = ·) (AclState.applyStep C v' record ord)
    (fun s t x s' hx hst happly => ⟨s', hst ▸ AclState.applyChangeContent_weaken
      hv (AclRecord.steps_single hx) happly, rfl⟩) rfl hrun
  exact ht

/-- What passed validation can be applied without it and with only our read keys. -/
theorem AclState.steps_filter (hv : v.shouldValidate = true) (hw : v'.Weaker v)
    (hv' : v'.shouldValidate = false)
    (hrun : record.steps.foldlM (AclState.applyStep C v record ord) st = .ok st') :
    (record.filterKeys (isOurIdentity C st.pubKey)).steps.foldlM
      (AclState.applyStep C v' (record.filterKeys (isOurIdentity C st.pubKey)) ord) st
        = .ok st' := by
  let record' := record.filterKeys (isOurIdentity C st.pubKey)
  let R (s t : AclState) : Prop := t = s ∧ s.pubKey = st.pubKey
  have hstep : ∀ s t x s', x ∈ record.steps → R s t → s.applyStep C v record ord x = .ok s' →
      ∃ t', t.applyStep C v' record' ord (x.1.filterKeys (isOurIdentity C st.pubKey), x.2) = .ok t'
        ∧ R s' t' := by
    rintro s t x s' hx ⟨rfl, hpubKey⟩ happly
    have hsingle := AclRecord.steps_single hx
    have hkeys := (transition_of_apply hv hsingle happly).keys_eq
    refine ⟨s', ?_, rfl, hkeys.2.trans hpubKey⟩
    have hweak := AclState.applyChangeContent_weaken hw hsingle happly
    have hfilter := AclState.applyChangeContent_filter hv' hweak
    rw [hpubKey] at hfilter
    exact (AclState.applyChangeContent_congr C v' t record record' rfl rfl ord x.2 _).trans hfilter
  obtain ⟨t, ht, rfl, -⟩ := foldlM_simulation R _ _ hstep ⟨rfl, rfl⟩ hrun
  rwa [AclRecord.steps_filterKeys]

end Steps

/-! ## The list -/

variable {l : AclList} {id : GoString}

/-- The list with one more record, which led to the state `st`. -/
def AclList.extend (l : AclList) (id : GoString) (st : AclState) : AclList :=
  { l with
    aclState := { st with lastRecordId := id }
    records := l.records ++ [id]
    indexes := l.indexes.insert id l.records.length }

/-- The index of a list has its records under their positions. -/
def AclList.Positioned (l : AclList) : Prop :=
  ∀ id i, l.indexes.lookup id = some i ↔ l.records[i]? = some id

/-- A list has the records that its index has. -/
theorem AclList.Positioned.hasHead_iff (h : l.Positioned) :
    l.hasHead id = true ↔ id ∈ l.records := by
  rw [AclList.hasHead, Option.isSome_iff_exists, List.mem_iff_getElem?]
  exact exists_congr (h id)

/-- No record is in the list twice. -/
theorem AclList.Positioned.nodup (h : l.Positioned) : l.records.Nodup := by
  refine List.nodup_iff_getElem?_ne_getElem?.mpr fun i j hij hj heq => ?_
  obtain ⟨id, hid⟩ : ∃ id, l.records[j]? = some id := ⟨_, List.getElem?_eq_getElem hj⟩
  have hi := (h id i).mpr (heq.trans hid)
  rw [(h id j).mpr hid] at hi
  exact hij.ne' (Option.some.inj hi)

/-- A new record gets the next position. -/
theorem AclList.Positioned.snoc {l' : AclList} (h : l.Positioned) (hnew : l.hasHead id = false)
    (hrecords : l'.records = l.records ++ [id])
    (hindexes : l'.indexes = l.indexes.insert id l.records.length) : l'.Positioned := by
  have hnone : l.indexes.lookup id = none := by simpa [AclList.hasHead] using hnew
  intro id' i
  have hold := h id' i
  rw [hrecords, hindexes, GoMap.lookup_insert_eq]
  rcases Nat.lt_trichotomy i l.records.length with hi | rfl | hi
  · rw [List.getElem?_append_left hi, ← hold]
    split
    · next heq =>
      -- the index did not have the new id
      rw [heq, hnone]
      simp [hi.ne']
    · rfl
  · rw [List.getElem?_concat_length]
    rw [List.getElem?_eq_none le_rfl] at hold
    split
    · next heq => simp [heq]
    · next hne => simp [hold, Ne.symm hne]
  · rw [List.getElem?_eq_none (by simp; omega)]
    rw [List.getElem?_eq_none hi.le] at hold
    split
    · simp [hi.ne]
    · exact hold

/-- What holds of every list of an accepted log. -/
structure AclList.WF (C : Crypto) (l : AclList) : Prop where
  state : l.aclState.WF C l.indexes.keys

/-- The hash of the payload of an entry is the id of no record of the list, and the payload does
not contain it. -/
structure LogEntry.Fresh (e : LogEntry) (l : AclList) : Prop where
  new : l.hasHead e.provisionalId = false
  not_mentioned : ∀ ch ∈ e.record.model.aclContent, e.provisionalId ∉ ch.recordIds

section List

variable {C : Crypto} {l l' : AclList} {e : LogEntry} {st : AclState} {record : AclRecord}
  {ord : RangeOrder}

theorem AclList.hasHead_eq_false {id : GoString} : l.hasHead id = false ↔ id ∉ l.indexes.keys := by
  rw [AclList.hasHead, ← Bool.not_eq_true, AList.lookup_isSome]
  rfl

theorem AclRecord.recordIds_of_mem_steps {x : AclContentValue × ℕ} (hx : x ∈ record.steps)
    {id : GoString} (hid : id ∈ x.1.recordIds) :
    ∃ ch ∈ record.model.aclContent, id ∈ ch.recordIds := by
  obtain ⟨y, hy, hxy⟩ := List.mem_flatMap.mp hx
  obtain ⟨ch, hch, rfl⟩ := List.mem_map.mp hxy
  refine ⟨y.1, List.fst_mem_of_mem_zipIdx hy, ?_⟩
  cases hvalue : y.1 <;> simp only [hvalue, AclContentValue.flatten, List.mem_singleton,
    List.mem_map] at hch
  case permissionChanges =>
    obtain ⟨_, _, rfl⟩ := hch
    cases hid
  all_goals exact hch ▸ hid

/-- A list appends a record whose steps pass validation. -/
theorem AclList.append_of_steps {v : ContentValidator} (hv : v.shouldValidate = true)
    (hone : l.aclState.isOneToOne = false) (hprev : l.aclState.lastRecordId = record.prevId)
    (hne : record.id ≠ [])
    (hrun : record.steps.foldlM (AclState.applyStep C v record ord) (l.aclState.copy C) = .ok st) :
    l.append C (l.keepOurs C record) ord = .ok (l.extend record.id st) := by
  have hweaker := weaker_of_shouldValidate hv l.shouldValidate
  have happly : (l.aclState.copy C).applyRecord C (newContentValidator l.shouldValidate)
      (l.keepOurs C record) ord = .ok { st with lastRecordId := record.id } := by
    unfold AclList.keepOurs
    cases hvalidate : l.shouldValidate with
    | true =>
      have hweak := AclState.steps_weaken (hvalidate ▸ hweaker) hrun
      exact AclState.applyRecord_eq_ok.mpr ⟨hone, hprev, hne, rfl, st, hweak, rfl⟩
    | false =>
      -- the copy has the public key by which the list filters
      have hfilter := AclState.steps_filter hv (hvalidate ▸ hweaker) rfl hrun
      exact AclState.applyRecord_eq_ok.mpr ⟨hone, hprev, hne, rfl, st, hfilter, rfl⟩
  have hid : (l.keepOurs C record).id = record.id := by
    unfold AclList.keepOurs
    split <;> rfl
  rw [AclList.append, happly, hid]
  rfl

/-- What a list admits under the hash of the payload, every replica adds under the id the network
assigned, for whatever map order: the steps pass validation there as well, and the list has the
state they lead to. Up to the read keys of invites, it is the renamed state of admission. -/
theorem AclList.append_of_validateRecord (hwf : l.WF C) (hfresh : e.Fresh l)
    (hnew : l.hasHead e.record.id = false) (hne : e.record.id ≠ [])
    (hvalid : l.validateRecord C e.provisional e.admissionOrder = .ok st) :
    ∃ (hne' : e.provisionalId ≠ []) (m₀ m : AclState),
      e.provisional.steps.foldlM
        (AclState.applyStep C newAdmissionValidator e.provisional e.admissionOrder) l.aclState
          = .ok m₀ ∧
      st = { m₀ with lastRecordId := e.provisionalId } ∧
      e.provisional.steps.foldlM
        (AclState.applyStep C newAdmissionValidator e.provisional e.replayOrder) l.aclState
          = .ok m ∧
      m.view View.hideInviteKeys = m₀.view View.hideInviteKeys ∧
      e.record.steps.foldlM
        (AclState.applyStep C newAdmissionValidator e.record e.replayOrder) l.aclState
          = .ok (m.view (.renameRecord e.provisionalId e.record.id hne' hne)) ∧
      l.append C (l.keepOurs C e.record) e.replayOrder
        = .ok (l.extend e.record.id
            (m.view (.renameRecord e.provisionalId e.record.id hne' hne))) := by
  rw [AclList.validateRecord, hwf.state.copy_eq] at hvalid
  obtain ⟨hone, hprev, hne', -, m₀, hrun, hst⟩ := AclState.applyRecord_eq_ok.mp hvalid
  have hnew' := AclList.hasHead_eq_false.mp hfresh.new
  have hduring : l.aclState.WFDuring C (e.provisionalId :: l.indexes.keys) e.provisional :=
    hwf.state.during hnew' hne'
  obtain ⟨m, hrun', hview⟩ := hduring.steps_reorder rfl e.replayOrder hrun
  have hmention : ∀ x ∈ e.provisional.steps, e.provisionalId ∉ x.1.recordIds := by
    intro x hx hid
    obtain ⟨ch, hch, hid'⟩ := AclRecord.recordIds_of_mem_steps hx hid
    exact hfresh.not_mentioned ch hch hid'
  have hreal := hwf.state.supported.steps_rename rfl hnew' hne' hmention
    (AclList.hasHead_eq_false.mp hnew) hne hrun'
  have hcopy := hreal
  rw [← hwf.state.copy_eq] at hcopy
  exact ⟨hne', m₀, m, hrun, hst, hrun', hview, hreal,
    AclList.append_of_steps rfl hone hprev hne hcopy⟩

/-- A log entry is accepted only if its steps pass validation under the id the network assigned,
and the list then has the state they lead to. -/
theorem AclList.accept_spec (hwf : l.WF C) (hfresh : e.Fresh l) (h : l.accept C e = .ok l') :
    l.hasHead e.record.id = false ∧ e.record.id ≠ [] ∧
      ∃ m, e.record.steps.foldlM
          (AclState.applyStep C newAdmissionValidator e.record e.replayOrder) l.aclState = .ok m ∧
        l' = l.extend e.record.id m := by
  simp only [AclList.accept, bind_eq_ok, failIf_eq_ok] at h
  obtain ⟨st, hvalid, _, hnew, happend⟩ := h
  have hne : e.record.id ≠ [] := by
    simp only [AclList.append, bind_eq_ok] at happend
    obtain ⟨_, happly, _⟩ := happend
    obtain ⟨_, _, hne, _⟩ := AclState.applyRecord_eq_ok.mp happly
    unfold AclList.keepOurs at hne
    split at hne <;> exact hne
  obtain ⟨_, _, m, -, -, -, -, hrun, happend'⟩ :=
    AclList.append_of_validateRecord hwf hfresh hnew hne hvalid
  exact ⟨hnew, hne, _, hrun, Except.ok.inj (happend.symm.trans happend')⟩

/-- The steps of an accepted entry start in a well-formed state. -/
theorem AclList.WF.during (hwf : l.WF C) (hnew : l.hasHead record.id = false)
    (hne : record.id ≠ []) : l.aclState.WFDuring C (record.id :: l.indexes.keys) record :=
  hwf.state.during (AclList.hasHead_eq_false.mp hnew) hne

/-- Every state in which a step of an accepted entry is taken, and the state after the last, is
well formed. -/
theorem AclState.WFDuring.steps {known : List GoString} {st st' : AclState}
    (h : st.WFDuring C known record)
    (hrun : record.steps.foldlM (AclState.applyStep C newAdmissionValidator record ord) st
      = .ok st') : st'.WFDuring C known record :=
  foldlM_invariant_of_trace (·.WFDuring C known record) (·.2 ∈ record.steps)
    (fun _ _ _ hs hx happly => hs.step rfl hx happly) h
    (fun _ hx => mem_of_mem_runTrace hx) hrun

/-- A list that is extended by the steps of a new record stays well formed. -/
theorem AclList.WF.extend (hwf : l.WF C) (hnew : l.hasHead record.id = false) (hne : record.id ≠ [])
    {m : AclState}
    (hrun : record.steps.foldlM (AclState.applyStep C newAdmissionValidator record ord) l.aclState
      = .ok m) : (l.extend record.id m).WF C := by
  have hm := ((hwf.during hnew hne).steps hrun).toWF.setLast List.mem_cons_self
  have hsub : record.id :: l.indexes.keys ⊆ (l.extend record.id m).indexes.keys := by
    intro id hid
    exact AList.mem_keys.mp
      ((AList.mem_insert _).mpr ((List.mem_cons.mp hid).imp_right AList.mem_keys.mpr))
  exact ⟨⟨hm.pubKey, hm.requests, hm.invites, hm.supported.mono hsub⟩⟩

theorem AclList.WF.accept (hwf : l.WF C) (hfresh : e.Fresh l) (h : l.accept C e = .ok l') :
    l'.WF C := by
  obtain ⟨hnew, hne, m, hrun, rfl⟩ := AclList.accept_spec hwf hfresh h
  exact hwf.extend hnew hne hrun

end List

/-! ## The root -/

/-- The state that an ordinary root leads to. -/
def AclState.ofRoot (C : Crypto) (root : AclRootRecord) (key : PrivKey) (aclKeys : AclKeys) :
    AclState :=
  { AclState.new C root.id key with
    keys := (∅ : GoMap GoString AclKeys).insert root.id aclKeys
    accountStates := (∅ : GoMap GoString AccountState).insert (mapKeyFromPubKey root.identity)
      { pubKey := some root.identity, permissions := .owner, status := .active,
        requestMetadata := root.model.encryptedOwnerMetadata, keyRecordId := root.id,
        permissionChanges := [⟨root.id, .owner⟩] }
    readKeyChanges := [root.id]
    lastRecordId := root.id
    optionChanges := match root.model.options with
      | some options => [⟨root.id, some options⟩]
      | none => [] }

section Root

variable {C : Crypto} {root : AclRootRecord} {key : PrivKey} {b : Bool} {l : AclList}

theorem AclState.saveKeysFromRoot_spec {st st' : AclState} {id : GoString} {model : AclRoot}
    (h : st.saveKeysFromRoot C id model = .ok st') :
    ∃ aclKeys, st' = { st with keys := st.keys.insert id aclKeys } := by
  unfold saveKeysFromRoot at h
  split at h
  · split at h
    · cases h
    · exact ⟨_, (Except.ok.inj h).symm⟩
  · simp only [bind_eq_ok] at h
    obtain ⟨_, _, _, _, h⟩ := h
    exact ⟨_, (Except.ok.inj h).symm⟩

/-- An ordinary root leads to a state with one account, the owner. -/
theorem AclList.build_spec (hroot : root.model.oneToOneInfo = none)
    (h : AclList.build C b root key = .ok l) :
    ∃ aclKeys, l =
      { shouldValidate := b, records := [root.id],
        indexes := (∅ : GoMap GoString ℕ).insert root.id 0,
        aclState := AclState.ofRoot C root key aclKeys } := by
  simp only [AclList.build, newAclStateWithKeys, AclState.applyRoot, hroot, bind_eq_ok] at h
  obtain ⟨st, ⟨aclKeys, _, st₁, hsave, hst⟩, hl⟩ := h
  obtain rfl := Except.ok.inj hst
  obtain rfl := Except.ok.inj hl
  have hkeys : ∃ aclKeys', st₁ = { AclState.new C root.id key with
      keys := (∅ : GoMap GoString AclKeys).insert root.id aclKeys' } := by
    unfold AclState.saveKeysIfOurs at hsave
    split at hsave
    · obtain ⟨aclKeys', rfl⟩ := AclState.saveKeysFromRoot_spec hsave
      exact ⟨aclKeys', by rw [AclState.new, AList.insert_insert]⟩
    · exact ⟨aclKeys, (Except.ok.inj hsave).symm⟩
  obtain ⟨aclKeys', rfl⟩ := hkeys
  exact ⟨aclKeys', rfl⟩

theorem AclState.WF.ofRoot (aclKeys : AclKeys) :
    (AclState.ofRoot C root key aclKeys).WF C [root.id] where
  pubKey := rfl
  requests := by
    constructor <;> intro k r h <;> cases h
  invites := by
    intro id invite h
    cases h
  supported ids hnil hfix := by
    have hid := hfix root.id List.mem_cons_self
    cases hoptions : root.model.options <;>
      simp only [view, AclState.ofRoot, AclState.new, GoMap.mapKV_insert, GoMap.mapKV_empty,
        AccountState.view, PermissionChange.view, OptionChange.view, View.rename_ids, hid, hoptions,
        List.map_cons, List.map_nil, Equiv.refl_apply]

theorem AclList.WF.build (hroot : root.model.oneToOneInfo = none)
    (h : AclList.build C b root key = .ok l) : l.WF C := by
  obtain ⟨aclKeys, rfl⟩ := AclList.build_spec hroot h
  exact ⟨AclState.WF.ofRoot aclKeys⟩

end Root

end Acl
