import AnySync.Acl.History
import AnySync.Acl.Raw

/-!
# Requests, read keys and options over a whole log

The list answers questions about the past from what its last state has collected: the open
requests in two tables, the records that changed the read key, and the records that changed the
space options.

The main result is `AcceptedLog.bookkeeping_iff`.
-/

namespace Acl

open ContentValidator
open Except (bind_eq_ok)
open Sample
open List (replicate append_nil append_assoc map_cons)
open AclState (ofRoot contents dropRequestOf_eq)

/-! ## Queries -/

variable {keys : GoMap GoString AclKeys}

/-- `ReadKeyForAclId`: the newest read key change that is not after the record. -/
def AclList.readKeyForAclId (l : AclList) (id : GoString) : Except AclError GoString :=
  match l.indexes.lookup id with
  | none => .error .noSuchRecord
  | some recIdx =>
    match l.aclState.readKeyChanges.reverse.find?
        (fun recId => (l.indexes.lookup recId).getD 0 ≤ recIdx) with
    | none => .error .noSuchRecord
    | some recId => .ok recId

/-- `OptionsAtRecord`: the newest options that are not after the record. -/
def AclList.optionsAtRecord (l : AclList) (recordId : GoString) : Option AclSpaceOptions :=
  (l.aclState.optionChanges.reverse.find?
    (fun change => l.isAfterNoCheck recordId change.recordId)).bind OptionChange.options

/-- `CurrentOptions`. -/
def AclState.currentOptions (st : AclState) : Option AclSpaceOptions :=
  st.optionChanges.getLast?.bind OptionChange.options

/-! ## The table of keys -/

/-- What everyone can see of the keys that a record introduced. -/
def AclKeys.withoutSecrets (keys : AclKeys) : AclKeys :=
  { keys with readKey := none, metadataPrivKey := none }

/-- The keys are the same up to the secrets that were decrypted. -/
def SameKeys (keys keys' : GoMap GoString AclKeys) : Prop :=
  ∀ id, (keys'.lookup id).map AclKeys.withoutSecrets = (keys.lookup id).map AclKeys.withoutSecrets

theorem SameKeys.refl (keys : GoMap GoString AclKeys) : SameKeys keys keys := fun _ => rfl

theorem SameKeys.trans {m₁ m₂ m₃ : GoMap GoString AclKeys} (h₁ : SameKeys m₁ m₂)
    (h₂ : SameKeys m₂ m₃) : SameKeys m₁ m₃ :=
  fun id => (h₂ id).trans (h₁ id)

theorem SameKeys.isSome_iff {keys' : GoMap GoString AclKeys} (h : SameKeys keys keys')
    (id : GoString) : (keys'.lookup id).isSome = (keys.lookup id).isSome := by
  have := congrArg Option.isSome (h id)
  simpa using this

/-- Filling in the secrets of an entry. -/
theorem SameKeys.insert {id : GoString} {aclKeys aclKeys' : AclKeys}
    (h : keys.lookup id = some aclKeys) (hsame : aclKeys'.withoutSecrets = aclKeys.withoutSecrets) :
    SameKeys keys (keys.insert id aclKeys') := by
  intro id'
  rw [GoMap.lookup_insert_eq]
  split
  · next heq => rw [heq, h, Option.map_some, Option.map_some, hsame]
  · rfl

/-- Every read key change has its keys. -/
def AclState.KeysWF (st : AclState) : Prop :=
  ∀ id ∈ st.readKeyChanges, (st.keys.lookup id).isSome

section Keys

variable {C : Crypto} {v : ContentValidator} {st st' : AclState} {record : AclRecord}
  {ord : RangeOrder} {value : ℕ}

theorem unpackKeys_same {keys keys' : GoMap GoString AclKeys} {readKey : SymKey}
    {ids : List GoString} (hids : ∀ id ∈ ids, (keys.lookup id).isSome)
    (h : unpackKeys C keys readKey ids = .ok keys') : SameKeys keys keys' := by
  induction ids generalizing keys readKey with
  | nil =>
    obtain rfl := Except.ok.inj h
    exact .refl _
  | cons recId older ih =>
    obtain ⟨hrec, holder⟩ := List.forall_mem_cons.mp hids
    obtain ⟨aclKeys, hlookup⟩ := Option.isSome_iff_exists.mp hrec
    simp only [unpackKeys, hlookup, Option.getD_some, bind_eq_ok] at h
    obtain ⟨metadataKey, -, h⟩ := h
    have hfill : SameKeys keys (keys.insert recId
        { aclKeys with readKey := some readKey, metadataPrivKey := some metadataKey }) :=
      .insert hlookup rfl
    split at h
    · obtain rfl := Except.ok.inj h
      exact hfill
    · simp only [bind_eq_ok] at h
      obtain ⟨_, -, oldReadKey, -, h⟩ := h
      -- the older changes still have their keys
      have hrest := ih (fun id hid => by rw [hfill.isSome_iff]; exact holder id hid) h
      exact hfill.trans hrest

/-- Decrypting keys changes only secrets, and those of others not at all. -/
theorem AclState.unpackIfOurs_keys {identity : PubKey} {key : Option Bytes}
    (h : st.unpackIfOurs C identity key = .ok st') (hkeys : st.KeysWF) :
    SameKeys st.keys st'.keys ∧ (st.pubKey ≠ identity → st'.keys = st.keys) ∧
      st'.readKeyChanges = st.readKeyChanges := by
  unfold AclState.unpackIfOurs at h
  split at h
  · next hours =>
    simp only [AclState.unpackAllKeys, bind_eq_ok] at h
    obtain ⟨_, -, keys, hunpack, hst⟩ := h
    obtain rfl := Except.ok.inj hst
    refine ⟨unpackKeys_same (fun id hid => ?_) hunpack, fun hne => absurd hours hne, rfl⟩
    exact hkeys id (List.mem_reverse.mp hid)
  · obtain rfl := Except.ok.inj h
    exact ⟨.refl _, fun _ => rfl, rfl⟩

/-- A batch of additions decrypts the keys at most. -/
theorem AclState.foldlM_addAccount_keys {additions : List AclAccountAdd} (hkeys : st.KeysWF)
    (h : additions.foldlM (fun st acc => st.addAccount C record acc) st = .ok st') :
    SameKeys st.keys st'.keys := by
  have hinv := foldlM_invariant
    (fun s => SameKeys st.keys s.keys ∧ s.KeysWF) (fun s acc s' hs hstep => ?_)
    ⟨.refl _, hkeys⟩ h
  · exact hinv.1
  · simp only [addAccount, bind_eq_ok] at hstep
    obtain ⟨identity, -, keyRecordId, -, hstep⟩ := hstep
    obtain ⟨hsame, -, hchanges⟩ := unpackIfOurs_keys hstep hs.2
    refine ⟨hs.1.trans hsame, fun id hid => ?_⟩
    rw [hchanges] at hid
    rw [hsame.isSome_iff]
    exact hs.2 id hid

/-- Joining decrypts the keys of the invite. -/
theorem AclState.inviteJoin_keys {ch : AclAccountInviteJoin} (hkeys : st.KeysWF)
    (hv : v.shouldValidate = true)
    (h : st.applyInviteJoinWithoutApprove C v record ord value ch = .ok st') :
    SameKeys st.keys st'.keys ∧ (st.pubKey ≠ record.identity → st'.keys = st.keys) := by
  have hidentity : C.unmarshalPublicKey ch.identity = some record.identity := by
    have ht := transition_of_inviteJoin hv h
    cases ht with
    | inviteJoin _ _ _ _ hid _ _ => exact hid
  simp only [applyInviteJoinWithoutApprove, bind_eq_ok, Crypto.pubKeyFromProto_eq_ok] at h
  obtain ⟨_, -, identity, hid, h⟩ := h
  obtain rfl := Option.some.inj (hidentity.symm.trans hid)
  split at h
  · obtain rfl := Except.ok.inj h
    exact ⟨.refl _, fun _ => rfl⟩
  · simp only [bind_eq_ok] at h
    obtain ⟨keyRecordId, -, h⟩ := h
    rw [dropRequestOf_eq] at h
    obtain ⟨hsame, hother, -⟩ := unpackIfOurs_keys h hkeys
    exact ⟨hsame, hother⟩

theorem AclState.applyChangeContent_sameKeys {ch : AclContentValue} (hkeys : st.KeysWF)
    (hv : v.shouldValidate = true) (hsingle : ∀ changes, ch ≠ .permissionChanges changes)
    (hrotation : ch.rotation = none) (h : st.applyChangeContent C v record ord value ch = .ok st') :
    SameKeys st.keys st'.keys := by
  cases ch with
  | inviteJoin ch => exact (inviteJoin_keys hkeys hv h).1
  | accountsAdd ch =>
    obtain ⟨_, -, h⟩ := bind_eq_ok.mp h
    exact foldlM_addAccount_keys hkeys h
  | requestAccept ch =>
    simp only [applyChangeContent, applyRequestAccept, bind_eq_ok] at h
    obtain ⟨_, -, identity, -, h⟩ := h
    split at h
    · obtain rfl := Except.ok.inj h
      exact .refl _
    · exact (unpackIfOurs_keys h hkeys).1
  | readKeyChange ch => cases hrotation
  | accountRemove ch =>
    cases transition_of_apply hv hsingle h with
    | accountRemove _ _ _ _ hsome => cases hrotation.symm.trans hsome
  | permissionChanges changes => exact absurd rfl (hsingle changes)
  | _ =>
    cases transition_of_apply hv hsingle h
    exact .refl _

end Keys

/-! ## What an entry adds -/

/-- The read key changes in a record. -/
def AclRecord.rotations (record : AclRecord) : ℕ :=
  record.model.aclContent.countP fun ch => ch.rotation.isSome

section Entry

variable {C : Crypto} {st st' : AclState} {record : AclRecord} {ch : AclContentValue}
  {l l' : AclList} {e : LogEntry}

section

variable (t : Transition C st record ch st')

include t

/-- A read key change adds its record to the read key changes. -/
theorem Transition.readKeyChanges_eq :
    st'.readKeyChanges
      = st.readKeyChanges ++ if ch.rotation.isSome then [record.id] else [] := by
  cases t with
  | accountRemove _ _ _ _ hsome => simp [AclContentValue.rotation, hsome]
  | inviteJoin =>
    rw [dropRequestOf_eq]
    exact (append_nil _).symm
  | readKeyChange => rfl
  | _ => exact (append_nil _).symm

/-- A change of the options adds its record to the option changes. -/
theorem Transition.optionChanges_eq :
    ∃ new, st'.optionChanges = st.optionChanges ++ new ∧ ∀ c ∈ new, c.recordId = record.id := by
  cases t with
  | spaceOptionsChange => exact ⟨_, rfl, by simp⟩
  | inviteJoin =>
    rw [dropRequestOf_eq]
    exact ⟨[], (append_nil _).symm, by simp⟩
  | _ => exact ⟨[], (append_nil _).symm, by simp⟩

/-- A read key change stores its keys under the id of its record. -/
theorem Transition.keys_of_rotation (hrotation : ch.rotation.isSome) :
    ∃ aclKeys, st'.keys = st.keys.insert record.id aclKeys := by
  cases t with
  | accountRemove => exact ⟨_, rfl⟩
  | readKeyChange => exact ⟨_, rfl⟩
  | _ => cases hrotation

/-- A batch of permission changes is taken apart before it is applied. -/
theorem Transition.single (changes : AclAccountPermissionChanges) :
    ch ≠ .permissionChanges changes := by
  rintro rfl
  cases t

end

/-- Every read key change still has its keys. -/
theorem AclState.KeysWF.single {v : ContentValidator} {ord : RangeOrder} {value : ℕ}
    (hkeys : st.KeysWF) (hv : v.shouldValidate = true)
    (hsingle : ∀ changes, ch ≠ .permissionChanges changes)
    (happly : st.applyChangeContent C v record ord value ch = .ok st') : st'.KeysWF := by
  have ht := transition_of_apply hv hsingle happly
  intro id hid
  rw [ht.readKeyChanges_eq] at hid
  cases hrotation : ch.rotation with
  | none =>
    have hsame := AclState.applyChangeContent_sameKeys hkeys hv hsingle hrotation happly
    rw [hsame.isSome_iff]
    exact hkeys id (by simpa [hrotation] using hid)
  | some rkc =>
    obtain ⟨aclKeys, hinsert⟩ := ht.keys_of_rotation (by rw [hrotation]; rfl)
    rw [hinsert, GoMap.lookup_insert_eq]
    split
    · rfl
    · next hne =>
      refine hkeys id ?_
      simpa [hrotation, hne] using hid

theorem AclRecord.countP_steps (p : AclContentValue → Bool)
    (hsingle : ∀ ch : AclContentValue, ch.flatten.countP p = if p ch then 1 else 0)
    (record : AclRecord) :
    (record.steps.map Prod.fst).countP p = record.model.aclContent.countP p := by
  have hcontents : record.model.aclContent = (contents record).map Prod.fst := by simp [contents]
  rw [hcontents, AclRecord.steps]
  induction contents record with
  | nil => rfl
  | cons x rest ih =>
    have hvalue : (x.1.flatten.map fun ch => (ch, x.2)).map Prod.fst = x.1.flatten := by
      rw [List.map_map]
      exact List.map_id _
    rw [List.flatMap_cons, List.map_append, List.countP_append, ih, hvalue, hsingle x.1,
      map_cons, List.countP_cons, Nat.add_comm]

/-- The read key changes of a record are those of its steps. -/
theorem AclRecord.rotations_eq (record : AclRecord) :
    record.rotations = (record.steps.map Prod.fst).countP fun ch => ch.rotation.isSome := by
  refine (AclRecord.countP_steps _ (fun ch => ?_) record).symm
  cases ch with
  | permissionChanges ch =>
    -- a permission change is no read key change
    simp [AclContentValue.flatten, AclContentValue.rotation, List.countP_eq_zero]
  | _ => simp [AclContentValue.flatten, List.countP_singleton]

/-- An accepted entry adds its id to the read key changes, once for each read key change in it,
and to the option changes; every read key change has its keys. -/
theorem AclList.changes_accept (hwf : l.WF C) (hfresh : e.Fresh l) (h : l.accept C e = .ok l')
    (hkeys : l.aclState.KeysWF) :
    l'.aclState.readKeyChanges
        = l.aclState.readKeyChanges ++ replicate e.record.rotations e.record.id ∧
      (∃ new, l'.aclState.optionChanges = l.aclState.optionChanges ++ new ∧
        ∀ c ∈ new, c.recordId = e.record.id) ∧
      l'.aclState.KeysWF := by
  let rotates (event : Event) : Bool := event.content.rotation.isSome
  let G (events : List Event) (st : AclState) : Prop :=
    st.readKeyChanges
        = l.aclState.readKeyChanges ++ replicate (events.countP rotates) e.record.id ∧
      (∃ new, st.optionChanges = l.aclState.optionChanges ++ new ∧
        ∀ c ∈ new, c.recordId = e.record.id) ∧ st.KeysWF
  have hstep : ∀ events event st', event.record = e.record → event.Leads C st' →
      G events event.state → G (events ++ [event]) st' := by
    rintro events event st' hrecord hleads ⟨hchanges, ⟨new, hoptions, hnew⟩, hkeys⟩
    refine ⟨?_, ?_, hkeys.single rfl hleads.transition.single hleads.apply⟩
    · rw [hleads.transition.readKeyChanges_eq, hchanges, hrecord, List.countP_append,
        List.replicate_add, append_assoc, List.countP_singleton]
      cases hrotation : event.content.rotation <;> simp [rotates, hrotation]
    · obtain ⟨new', hoptions', hnew'⟩ := hleads.transition.optionChanges_eq
      refine ⟨new ++ new', by rw [hoptions', hoptions, append_assoc], fun c hc => ?_⟩
      rw [hrecord] at hnew'
      exact (List.mem_append.mp hc).elim (hnew c) (hnew' c)
  have hG := AclList.events_induction G hstep (fun _ _ _ hG => hG) hwf hfresh h (t := [])
    ⟨by simp, ⟨[], by simp, by simp⟩, hkeys⟩
  have hcount : (l.events C e).countP rotates = e.record.rotations := by
    rw [AclRecord.rotations_eq, ← AclList.events_content hwf hfresh h, List.countP_map]
    rfl
  rw [List.nil_append] at hG
  obtain ⟨hchanges, hoptions, hkeys'⟩ := hG
  rw [hcount] at hchanges
  exact ⟨hchanges, hoptions, hkeys'⟩

end Entry

/-! ## Changes of earlier and later records -/

/-- The changes `old` of records at positions below `n` grew to `changes` by changes of records at
positions from `n` on. -/
structure Grown {α : Type} (position : α → ℕ) (n : ℕ) (old changes : List α) : Prop where
  append : ∃ new, changes = old ++ new ∧ ∀ c ∈ new, n ≤ position c
  old_lt : ∀ c ∈ old, position c < n

namespace Grown

variable {α : Type} {position position' : α → ℕ} {n : ℕ} {old changes new : List α}

theorem refl (h : ∀ c ∈ changes, position c < n) : Grown position n changes changes :=
  ⟨⟨[], by simp, by simp⟩, h⟩

/-- More changes of later records, while the old ones keep their positions. -/
theorem more (h : Grown position n old changes) (hsame : ∀ c ∈ changes, position' c = position c)
    (hnew : ∀ c ∈ new, n ≤ position' c) : Grown position' n old (changes ++ new) := by
  obtain ⟨⟨added, rfl, hadded⟩, hold⟩ := h
  refine ⟨⟨added ++ new, append_assoc _ _ _, fun c hc => ?_⟩, fun c hc => ?_⟩
  · rcases List.mem_append.mp hc with hc | hc
    · rw [hsame c (List.mem_append_right _ hc)]
      exact hadded c hc
    · exact hnew c hc
  · rw [hsame c (List.mem_append_left _ hc)]
    exact hold c hc

/-- A query for the last of the earlier records finds the last of the old changes. -/
theorem find?_reverse (h : Grown position (n + 1) old changes) :
    changes.reverse.find? (fun c => position c ≤ n) = old.getLast? := by
  obtain ⟨⟨new, rfl, hnew⟩, hold⟩ := h
  have hnone : new.reverse.find? (fun c => position c ≤ n) = none := by
    rw [List.find?_eq_none]
    intro c hc
    have := hnew c (List.mem_reverse.mp hc)
    simp only [decide_eq_true_eq]
    omega
  rw [List.reverse_append, List.find?_append, hnone, Option.none_or]
  -- the first of the reversed old changes passes
  cases old using List.reverseRecOn with
  | nil => rfl
  | append_singleton old c =>
    have hc : position c ≤ n := Nat.lt_succ_iff.mp (hold c (by simp))
    simp [hc]

end Grown

/-! ## Lists of a log -/

/-- The position that the queries give a record. -/
def AclList.position (l : AclList) (id : GoString) : ℕ := (l.indexes.lookup id).getD 0

/-- The records of a list have their positions, and the collected changes belong to records of the
list. -/
structure AclList.Indexed (l : AclList) : Prop extends l.IndexWF where
  positioned : l.Positioned
  readKeyChanges : ∀ id ∈ l.aclState.readKeyChanges, l.hasHead id = true
  optionChanges : ∀ c ∈ l.aclState.optionChanges, l.hasHead c.recordId = true

/-- The list `l` is a later list of the log of `old`. -/
structure AclList.Later (old l : AclList) : Prop where
  last : ∃ n, l.indexes.lookup old.aclState.lastRecordId = some n ∧ old.records.length = n + 1
  readKeyChanges : Grown l.position old.records.length old.aclState.readKeyChanges
    l.aclState.readKeyChanges
  optionChanges : Grown (fun c => l.position c.recordId) old.records.length
    old.aclState.optionChanges l.aclState.optionChanges

section Lists

variable {C : Crypto} {old l l' : AclList} {e : LogEntry}
variable {id : GoString} {st : AclState}

theorem AclList.IndexWF.position_lt (h : l.IndexWF) (id : GoString) :
    l.position id < l.records.length := by
  unfold AclList.position
  cases hid : l.indexes.lookup id with
  | some i => exact h.lt id i hid
  | none =>
    have := h.lt _ _ h.last
    simp only [Option.getD_none]
    omega

theorem AclList.Later.refl (h : l.IndexWF) : l.Later l where
  last := by
    have := h.lt _ _ h.last
    exact ⟨l.records.length - 1, h.last, by omega⟩
  readKeyChanges := .refl fun id _ => h.position_lt id
  optionChanges := .refl fun c _ => h.position_lt c.recordId

/-- What the later list answers for the last record of the older one. -/
theorem AclList.Later.readKeyForAclId_eq (h : old.Later l)
    (hid : old.aclState.currentReadKeyId = .ok id) :
    l.readKeyForAclId old.aclState.lastRecordId = .ok id := by
  obtain ⟨n, hlast, hlength⟩ := h.last
  have hchanges := h.readKeyChanges
  rw [hlength] at hchanges
  have hfind : l.aclState.readKeyChanges.reverse.find?
      (fun recId => (l.indexes.lookup recId).getD 0 ≤ n) = some id :=
    hchanges.find?_reverse.trans (AclState.currentReadKeyId_eq_ok.mp hid)
  rw [AclList.readKeyForAclId, hlast]
  simp only [hfind]

/-- The same for the options. -/
theorem AclList.Later.optionsAtRecord_eq (h : old.Later l) :
    l.optionsAtRecord old.aclState.lastRecordId = old.aclState.currentOptions := by
  obtain ⟨n, hlast, hlength⟩ := h.last
  have hchanges := h.optionChanges
  rw [hlength] at hchanges
  have hafter : (fun c : OptionChange => l.isAfterNoCheck old.aclState.lastRecordId c.recordId)
      = fun c => decide (l.position c.recordId ≤ n) := by
    ext c
    rw [AclList.isAfterNoCheck, hlast]
    rfl
  rw [AclList.optionsAtRecord, hafter, hchanges.find?_reverse]
  rfl

theorem AclList.Indexed.extend (h : l.Indexed) (hnew : l.hasHead e.record.id = false)
    (hread : ∀ id ∈ st.readKeyChanges, id = e.record.id ∨ l.hasHead id = true)
    (hoptions : ∀ c ∈ st.optionChanges, c.recordId = e.record.id ∨ l.hasHead c.recordId = true) :
    (l.extend e.record.id st).Indexed where
  toIndexWF := h.toIndexWF.extend _ _
  positioned := h.positioned.snoc hnew rfl rfl
  readKeyChanges id hid := by
    simp only [AclList.hasHead, AclList.extend, GoMap.lookup_insert_eq]
    rcases hread id hid with rfl | hmem
    · simp
    · split
      · rfl
      · exact hmem
  optionChanges c hc := by
    simp only [AclList.hasHead, AclList.extend, GoMap.lookup_insert_eq]
    rcases hoptions c hc with heq | hmem
    · simp [heq]
    · split
      · rfl
      · exact hmem

/-- The positions of the records of a list stay when it is extended. -/
theorem AclList.position_extend (hnew : l.hasHead e.record.id = false) (hid : l.hasHead id = true) :
    (l.extend e.record.id st).position id = l.position id := by
  have hne : id ≠ e.record.id := by
    rintro rfl
    rw [hnew] at hid
    cases hid
  simp [AclList.position, AclList.extend, hne]

/-- A list stays later when it goes on. -/
theorem AclList.Later.extend (h : old.Later l) (hl : l.Indexed)
    (hnew : l.hasHead e.record.id = false) {count : ℕ} {options : List OptionChange}
    (hread : st.readKeyChanges = l.aclState.readKeyChanges ++ replicate count e.record.id)
    (hoptions : st.optionChanges = l.aclState.optionChanges ++ options)
    (hids : ∀ c ∈ options, c.recordId = e.record.id) : old.Later (l.extend e.record.id st) := by
  obtain ⟨n, hlast, hlength⟩ := h.last
  have hlt : n < l.records.length := hl.lt _ _ hlast
  have hposition : (l.extend e.record.id st).position e.record.id = l.records.length := by
    simp [AclList.position, AclList.extend]
  refine ⟨⟨n, ?_, hlength⟩, ?_, ?_⟩
  · have hne : old.aclState.lastRecordId ≠ e.record.id := by
      intro heq
      rw [AclList.hasHead, ← heq, hlast] at hnew
      cases hnew
    simpa [AclList.extend, hne] using hlast
  · show Grown _ _ _ st.readKeyChanges
    rw [hread]
    refine h.readKeyChanges.more (fun id hid => ?_) fun id hid => ?_
    · exact AclList.position_extend hnew (hl.readKeyChanges id hid)
    · rw [List.eq_of_mem_replicate hid, hposition]
      omega
  · show Grown _ _ _ st.optionChanges
    rw [hoptions]
    refine h.optionChanges.more (fun c hc => ?_) fun c hc => ?_
    · exact AclList.position_extend hnew (hl.optionChanges c hc)
    · rw [hids c hc, hposition]
      omega

end Lists

/-! ## Logs -/

/-- What holds after the entries of a log. -/
structure Bookkeeping (C : Crypto) (root : AclRootRecord) (entries : List (AclList × LogEntry))
    (l : AclList) : Prop where
  wf : l.WF C
  indexed : l.Indexed
  keys : l.aclState.KeysWF
  records : l.records = root.id :: entries.map (·.2.record.id)
  readKeyChanges : l.aclState.readKeyChanges
    = root.id :: entries.flatMap fun x => replicate x.2.record.rotations x.2.record.id
  ids_ne : ∀ x ∈ entries, x.2.record.id ≠ []
  later : ∀ y ∈ entries, y.1.Later l ∧ y.1.aclState.readKeyChanges ≠ []

namespace Bookkeeping

variable {C : Crypto} {validates : Bool} {root : AclRootRecord} {key : PrivKey}
  {entries : List (AclList × LogEntry)} {l l' : AclList} {e : LogEntry}

/-- The bookkeeping of a new list. -/
theorem build (hroot : root.model.oneToOneInfo = none)
    (h : AclList.build C validates root key = .ok l) : Bookkeeping C root [] l := by
  have hwf := AclList.WF.build hroot h
  obtain ⟨aclKeys, rfl⟩ := AclList.build_spec hroot h
  have hlookup : ∀ id i,
      ((∅ : GoMap GoString ℕ).insert root.id 0).lookup id = some i ↔ id = root.id ∧ i = 0 := by
    intro id i
    rw [GoMap.lookup_insert_eq]
    split
    · next heq => simp [heq, eq_comm]
    · next hne => simp [hne]
  have hhead : ∀ id, (((∅ : GoMap GoString ℕ).insert root.id 0).lookup id).isSome = true ↔
      id = root.id := by
    intro id
    rw [Option.isSome_iff_exists]
    exact ⟨fun ⟨i, hi⟩ => ((hlookup id i).mp hi).1, fun heq => ⟨0, (hlookup id 0).mpr ⟨heq, rfl⟩⟩⟩
  refine ⟨hwf, ⟨⟨fun id i hi => ?_, ?_⟩, fun id i => ?_, fun id hid => ?_, fun c hc => ?_⟩,
    fun id hid => ?_, rfl, rfl, by simp, by simp⟩
  · simp [((hlookup id i).mp hi).2]
  · exact (hlookup _ _).mpr ⟨rfl, rfl⟩
  · rw [hlookup]
    cases i <;> simp [eq_comm]
  · exact (hhead id).mpr (List.mem_singleton.mp hid)
  · apply (hhead c.recordId).mpr
    cases hoptions : root.model.options with
    | none => simp [ofRoot, hoptions] at hc
    | some options =>
      have hmem : c = ⟨root.id, some options⟩ := by simpa [ofRoot, hoptions] using hc
      rw [hmem]
  · rw [List.mem_singleton.mp hid, ofRoot, AList.lookup_insert]
    rfl

/-- An accepted entry keeps the bookkeeping. -/
theorem accept (h : Bookkeeping C root entries l) (hfresh : e.Fresh l)
    (haccept : l.accept C e = .ok l') : Bookkeeping C root (entries ++ [(l, e)]) l' := by
  obtain ⟨hread, ⟨options, hoptions, hids⟩, hkeys⟩ :=
    AclList.changes_accept h.wf hfresh haccept h.keys
  have hwf := h.wf.accept hfresh haccept
  obtain ⟨hnew, hne, m, -, rfl⟩ := AclList.accept_spec h.wf hfresh haccept
  have hread' : m.readKeyChanges
      = l.aclState.readKeyChanges ++ replicate e.record.rotations e.record.id := hread
  have hoptions' : m.optionChanges = l.aclState.optionChanges ++ options := hoptions
  have hextend : ∀ {old : AclList}, old.Later l → old.Later (l.extend e.record.id m) := fun hold =>
    hold.extend h.indexed hnew hread' hoptions' hids
  refine ⟨hwf, h.indexed.extend hnew (fun id hid => ?_) fun c hc => ?_, hkeys, ?_, ?_,
    fun y hy => ?_, fun y hy => ?_⟩
  · rw [hread'] at hid
    exact (List.mem_append.mp hid).elim (fun hid => .inr (h.indexed.readKeyChanges id hid))
      fun hid => .inl (List.eq_of_mem_replicate hid)
  · rw [hoptions'] at hc
    exact (List.mem_append.mp hc).elim (fun hc => .inr (h.indexed.optionChanges c hc))
      fun hc => .inl (hids c hc)
  · show l.records ++ [e.record.id] = _
    rw [h.records]
    simp
  · rw [hread, h.readKeyChanges]
    simp
  · rcases List.mem_append.mp hy with hy | hy
    · exact h.ids_ne y hy
    · rw [List.mem_singleton.mp hy]
      exact hne
  · rcases List.mem_append.mp hy with hy | hy
    · obtain ⟨hold, hne⟩ := h.later y hy
      exact ⟨hextend hold, hne⟩
    · rw [List.mem_singleton.mp hy]
      refine ⟨hextend (.refl h.indexed.toIndexWF), ?_⟩
      rw [h.readKeyChanges]
      exact List.cons_ne_nil _ _

theorem flatMap_replicate_sublist (h : ∀ x ∈ entries, x.2.record.rotations ≤ 1) :
    (entries.flatMap fun x => replicate x.2.record.rotations x.2.record.id).Sublist
      (entries.map (·.2.record.id)) := by
  induction entries with
  | nil => exact .slnil
  | cons x rest ih =>
    obtain ⟨hx, hrest⟩ := List.forall_mem_cons.mp h
    rw [List.flatMap_cons, map_cons]
    have hhead : (replicate x.2.record.rotations x.2.record.id).Sublist [x.2.record.id] :=
      (List.replicate_sublist_replicate _).mpr hx
    exact hhead.append (ih hrest)

/-- The read key changes are records of the log in the order of the log, each once, iff no record
changes the read key twice. -/
theorem sublist_iff (h : Bookkeeping C root entries l) :
    l.aclState.readKeyChanges.Sublist l.records ↔ ∀ x ∈ entries, x.2.record.rotations ≤ 1 := by
  rw [h.readKeyChanges, h.records, List.cons_sublist_cons]
  constructor
  · intro hsub x hx
    by_contra hlt
    have hnodup : (entries.map (·.2.record.id)).Nodup := by
      have hrecords := h.indexed.positioned.nodup
      rw [h.records] at hrecords
      exact (List.nodup_cons.mp hrecords).2
    -- two read key changes of one record are two equal entries
    have htwice : (replicate x.2.record.rotations x.2.record.id).Sublist
        (entries.flatMap fun x => replicate x.2.record.rotations x.2.record.id) :=
      List.sublist_flatten_of_mem (List.mem_map_of_mem hx)
    exact hlt (List.nodup_replicate.mp ((hnodup.sublist hsub).sublist htwice))
  · exact fun hall => flatMap_replicate_sublist hall

end Bookkeeping

/-- The two tables of requests are inverse to each other. -/
theorem AclState.RequestsWF.pending_iff {st : AclState} (h : st.RequestsWF) (k r : GoString) :
    st.pendingRequests.lookup k = some r ↔
      ∃ request, st.requestRecords.lookup r = some request ∧
        mapKeyFromPubKey request.requestIdentity = k ∧ request.recordId = r := by
  constructor
  · intro hpending
    obtain ⟨request, hrequest, hkey⟩ := h.pending k r hpending
    exact ⟨request, hrequest, hkey, (h.request r request hrequest).1⟩
  · rintro ⟨request, hrequest, rfl, -⟩
    exact (h.request r request hrequest).2

/-- The bookkeeping along an accepted log. -/
theorem AcceptedLog.bookkeeping {C : Crypto} {validates : Bool} {root : AclRootRecord}
    {key : PrivKey} {log : List LogEntry} {l₀ l : AclList}
    (h : AcceptedLog C validates root key log l₀ l) :
    Bookkeeping C root (runTrace (AclList.accept C) l₀ log) l := by
  have hinv := foldlM_trace_induction (Bookkeeping C root) (fun x => x.2.Fresh x.1)
    (fun entries l e l' hl hfresh haccept => hl.accept hfresh haccept) (t := [])
    (Bookkeeping.build h.ordinary h.build) h.fresh h.accepts
  rwa [List.nil_append] at hinv

/-- For an accepted log: the tables of requests are inverse to each other, the read key changes are
distinct records in the order of the log that have their keys, and the read key and the options that
the list answers for each record are those after that record, iff no record changes the read key
twice. -/
theorem AcceptedLog.bookkeeping_iff {C : Crypto} {validates : Bool} {root : AclRootRecord}
    {key : PrivKey} {log : List LogEntry} {l₀ l : AclList}
    (h : AcceptedLog C validates root key log l₀ l) :
    ((∀ k r, l.aclState.pendingRequests.lookup k = some r ↔
          ∃ request, l.aclState.requestRecords.lookup r = some request ∧
            mapKeyFromPubKey request.requestIdentity = k ∧ request.recordId = r) ∧
        (l.aclState.readKeyChanges.Nodup ∧ l.aclState.readKeyChanges.Sublist l.records ∧
          ∀ id ∈ l.aclState.readKeyChanges, (l.aclState.keys.lookup id).isSome) ∧
        ∀ l' ∈ logLists C l₀ log l,
          l.readKeyForAclId l'.aclState.lastRecordId = l'.aclState.currentReadKeyId ∧
            l.optionsAtRecord l'.aclState.lastRecordId = l'.aclState.currentOptions) ↔
      ∀ e ∈ log, e.record.rotations ≤ 1 := by
  have hinv := h.bookkeeping
  have hentries : (∀ x ∈ runTrace (AclList.accept C) l₀ log, x.2.record.rotations ≤ 1) ↔
      ∀ e ∈ log, e.record.rotations ≤ 1 := by
    rw [← List.forall_mem_map (P := fun e : LogEntry => e.record.rotations ≤ 1) (f := Prod.snd),
      map_snd_runTrace h.accepts]
  -- the queries are right in any case, only the list of changes may have repetitions
  have hanswer : ∀ l' ∈ logLists C l₀ log l,
      l.readKeyForAclId l'.aclState.lastRecordId = l'.aclState.currentReadKeyId ∧
        l.optionsAtRecord l'.aclState.lastRecordId = l'.aclState.currentOptions := by
    intro l' hl'
    have hlater : l'.Later l ∧ l'.aclState.readKeyChanges ≠ [] := by
      rcases List.mem_append.mp hl' with hl' | hl'
      · obtain ⟨y, hy, rfl⟩ := List.mem_map.mp hl'
        exact hinv.later y hy
      · rw [List.mem_singleton.mp hl']
        refine ⟨.refl hinv.indexed.toIndexWF, ?_⟩
        rw [hinv.readKeyChanges]
        exact List.cons_ne_nil _ _
    have hcurrent : l'.aclState.currentReadKeyId
        = .ok (l'.aclState.readKeyChanges.getLast hlater.2) :=
      AclState.currentReadKeyId_eq_ok.mpr (List.getLast?_eq_some_getLast hlater.2)
    rw [hcurrent]
    exact ⟨hlater.1.readKeyForAclId_eq hcurrent, hlater.1.optionsAtRecord_eq⟩
  rw [← hentries, ← hinv.sublist_iff]
  constructor
  · exact fun hall => hall.2.1.2.1
  · intro hsub
    exact ⟨hinv.wf.state.requests.pending_iff,
      ⟨hinv.indexed.positioned.nodup.sublist hsub, hsub, hinv.keys⟩, hanswer⟩

/-- The read key is changed, then the options and the read key again. -/
def rotatingLog : List LogEntry :=
  log
    [(owner, [.readKeyChange (readKeyChange [owner])]),
     (owner, [.spaceOptionsChange ⟨some ⟨true⟩⟩, invite, .readKeyChange (readKeyChange [owner])]),
     (alice, [requestJoin alice aliceSignature (recordId 2)])]

/-- One read key change in each record: everything is in its place. -/
theorem bookkeeping_rotatingLog :
    ∃ l₀ l, AcceptedLog Sample.C true root observerKey rotatingLog l₀ l ∧
      l.aclState.readKeyChanges.Nodup ∧
      ∀ l' ∈ logLists Sample.C l₀ rotatingLog l,
        l.readKeyForAclId l'.aclState.lastRecordId = l'.aclState.currentReadKeyId := by
  have hrun : acceptedLogWith Sample.C true root observerKey rotatingLog
      (fun _ _ => true) = true := by
    decide +kernel
  obtain ⟨l₀, l, h, -⟩ := acceptedLog_of_acceptedLogWith hrun
  obtain ⟨-, ⟨hnodup, -⟩, hanswer⟩ := h.bookkeeping_iff.mpr (by decide)
  exact ⟨l₀, l, h, hnodup, fun l' hl' => (hanswer l' hl').1⟩

/-- One record changes the read key twice. -/
def doubleRotationLog : List LogEntry :=
  log
    [(owner, [.readKeyChange (readKeyChange [owner]), .readKeyChange (readKeyChange [owner])])]

/-- Both read key changes are stored under the one record, which is then listed twice. -/
theorem not_nodup_doubleRotationLog :
    ∃ l₀ l, AcceptedLog Sample.C true root observerKey doubleRotationLog l₀ l ∧
      l.aclState.readKeyChanges = [recordId 0, recordId 1, recordId 1] ∧
      ¬ l.aclState.readKeyChanges.Nodup := by
  have hrun : acceptedLogWith Sample.C true root observerKey doubleRotationLog
      (fun _ l => decide (l.aclState.readKeyChanges
        = [recordId 0, recordId 1, recordId 1])) = true := by
    decide +kernel
  obtain ⟨l₀, l, h, htest⟩ := acceptedLog_of_acceptedLogWith hrun
  have hchanges := of_decide_eq_true htest
  exact ⟨l₀, l, h, hchanges, by rw [hchanges]; decide⟩

end Acl
