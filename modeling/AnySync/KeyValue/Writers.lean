import AnySync.KeyValue.Report

/-!
# Whose rows a message may touch

The messages of a call of `SetRaw` are arbitrary. A row is addressed by its key and its peer, and
the peer has signed whatever is written to it; only a watermark of the owner deletes the rows of
other peers.

The main result is `setRaw_respects_writers`.
-/

namespace InnerStorage

open Ldiff

/-! ## Rows and their writers -/

section Authored

variable {H : Hashing} {fuel : ℕ} {float64 : ℤ → ℤ} {C : Crypto} {rows : Rows}
  {w : Watermarks} {values : List KeyValue} {v : KeyValue} {st st' : Storage} {ok : ℕ → Bool}
  {ord : RangeOrder} {result : Option SetResult}

/-- The id of a value is made of its key and of its peer. -/
structure AuthoredValue (C : Crypto) (v : KeyValue) : Prop where
  id : v.keyPeerId = keyPeerId v.key v.peerId
  peer : ∃ key, v.peerId = C.peerId key

/-- The id of every row is made of its key and of its peer. -/
structure Authored (C : Crypto) (rows : Rows) : Prop where
  keyed : Keyed rows
  id : ∀ id doc, rows.lookup id = some doc → id = keyPeerId doc.k doc.p
  peer : ∀ id doc, rows.lookup id = some doc → ∃ key, doc.p = C.peerId key

theorem authored_empty : Authored C ∅ where
  keyed := fun id doc hdoc => by cases hdoc
  id := fun id doc hdoc => by cases hdoc
  peer := fun id doc hdoc => by cases hdoc

theorem mem_of_mem_applied (hkeyed : Keyed rows)
    (h : v ∈ (settled float64 rows w values).res.applied) : v ∈ values := by
  obtain ⟨before, after, rfl, -⟩ := (mem_applied_iff hkeyed).mp h
  simp

theorem Authored.settled (h : Authored C rows) (hvalues : ∀ v ∈ values, AuthoredValue C v) :
    Authored C (settled float64 rows w values).rows := by
  have hhistory : History float64 rows (InnerStorage.settled float64 rows w values) :=
    history_settled h.keyed values
  refine ⟨keyed_settled h.keyed, fun id doc hdoc => ?_, fun id doc hdoc => ?_⟩
  · rcases hhistory.origin id doc hdoc with hold | ⟨v, hv, rfl, rfl⟩
    · exact h.id id doc hold
    · exact (hvalues v (mem_of_mem_applied h.keyed hv)).id
  · rcases hhistory.origin id doc hdoc with hold | ⟨v, hv, rfl, rfl⟩
    · exact h.peer id doc hold
    · exact (hvalues v (mem_of_mem_applied h.keyed hv)).peer

/-- A call keeps the rows, or it applies the values. -/
theorem set_rows (hkeyed : Keyed st.rows)
    (h : st.set H fuel float64 values ok ord = (st', result)) :
    st'.rows = st.rows ∨ st'.rows = (settled float64 st.rows st.watermarks values).rows := by
  cases result with
  | some r => exact .inr (set_eq_some hkeyed h).1
  | none =>
    unfold Storage.set at h
    simp only at h
    split_ifs at h <;> cases h <;> exact .inl rfl

theorem Authored.set (h : Authored C st.rows) (hvalues : ∀ v ∈ values, AuthoredValue C v)
    (hset : st.set H fuel float64 values ok ord = (st', result)) : Authored C st'.rows := by
  rcases set_rows h.keyed hset with heq | heq
  · rwa [heq]
  · rw [heq]
    exact h.settled hvalues

/-- A value that is passed on was signed by its peer. -/
theorem authored_of_mem_batch {acl : AclView C.PubKey} {messages : List StoreKeyValue}
    (h : v ∈ st.batch C acl messages) : AuthoredValue C v := by
  obtain ⟨proto, -, kv, identity, readKeyId, hdecode, -, rfl⟩ := mem_batch h
  obtain ⟨peer, -, hpeer, hid, -⟩ := decode_eq_some hdecode
  exact ⟨hid, peer, hpeer⟩

end Authored

/-! ## Runs -/

/-- The storages that are reached by calls of `SetRaw` with any messages, by own writes and by
restarts. -/
inductive Reached (H : Hashing) (fuel : ℕ) (float64 : ℤ → ℤ) (C : Crypto) : Storage → Prop
  | new (ord : RangeOrder) : Reached H fuel float64 C (opened H fuel ord ∅)
  | setRaw {st : Storage} (reached : Reached H fuel float64 C st) (acl : AclView C.PubKey)
      (messages : List StoreKeyValue) (ok : ℕ → Bool) (ord : RangeOrder) :
      Reached H fuel float64 C (st.setRaw H fuel float64 C acl messages ok ord).1
  | own {st : Storage} (reached : Reached H fuel float64 C st) {kv : KeyValue}
      (authored : AuthoredValue C kv) (ok : ℕ → Bool) (ord : RangeOrder) :
      Reached H fuel float64 C (st.set H fuel float64 [kv] ok ord).1
  | reopen {st : Storage} (reached : Reached H fuel float64 C st) (ord : RangeOrder) :
      Reached H fuel float64 C (opened H fuel ord st.rows)

section Run

variable {H : Hashing} {fuel : ℕ} {float64 : ℤ → ℤ} {C : Crypto} {st : Storage}

theorem Reached.authored (h : Reached H fuel float64 C st) : Authored C st.rows := by
  induction h with
  | new ord => exact authored_empty
  | setRaw _ acl messages ok ord ih =>
    obtain ⟨heq, -⟩ | ⟨result, heq, -⟩ := setRaw_cases Prod.mk.eta.symm
    · rwa [heq]
    · exact ih.set (fun v hv => authored_of_mem_batch hv) heq
  | own _ authored ok ord ih =>
    exact ih.set (fun v hv => List.mem_singleton.mp hv ▸ authored) Prod.mk.eta.symm
  | reopen _ ord ih => exact ih

end Run

/-! ## What a call may do -/

section Respect

variable {H : Hashing} {fuel : ℕ} {float64 : ℤ → ℤ} {C : Crypto} {acl : AclView C.PubKey}
  {st : Storage} {messages : List StoreKeyValue} {proto : StoreKeyValue} {v : KeyValue}
  {ok : ℕ → Bool} {ord : RangeOrder} {id p : GoString} {doc : Doc}

/-- The message is signed by a key of the peer. -/
def SignedBy (C : Crypto) (p : GoString) (proto : StoreKeyValue) : Prop :=
  ∃ identity peer, Signed C proto identity peer ∧ C.peerId peer = p

/-- The message is signed by the owner, and it is a watermark for a prefix of the key with the given
property of its timestamp. -/
def ClearedBy (C : Crypto) (acl : AclView C.PubKey) (key : GoString) (T : ℤ → Prop)
    (proto : StoreKeyValue) : Prop :=
  ∃ wm identity peer, decode C proto = some (wm, identity) ∧ Signed C proto identity peer ∧
    acl.isOwner identity = true ∧ wm.deletePrefix ≠ [] ∧ wm.deletePrefix <+: key ∧
    T wm.timestampMicro

/-- A message that is decoded and verified, and that satisfies the owner rule. -/
def admissible (C : Crypto) (acl : AclView C.PubKey) (proto : StoreKeyValue) : Bool :=
  (decode C proto).any (ownerRule acl)

theorem signedBy_of_mem_batch (h : v ∈ st.batch C acl messages) :
    ∃ m ∈ messages, SignedBy C v.peerId m := by
  obtain ⟨proto, hproto, kv, identity, readKeyId, hdecode, -, rfl⟩ := mem_batch h
  obtain ⟨peer, hsigned, hpeer, -⟩ := decode_eq_some hdecode
  exact ⟨proto, hproto, identity, peer, hsigned, hpeer.symm⟩

theorem clearedBy_of_mem_batch (h : v ∈ st.batch C acl messages) (hdrops : v.Drops doc) :
    ∃ m ∈ messages, ClearedBy C acl doc.k (doc.t < ·) m := by
  obtain ⟨proto, hproto, kv, identity, readKeyId, hdecode, howner, rfl⟩ := mem_batch h
  obtain ⟨peer, hsigned, -⟩ := decode_eq_some hdecode
  obtain ⟨hdeletes, -, hkey, htime⟩ := hdrops
  refine ⟨proto, hproto, kv, identity, peer, hdecode, hsigned, ?_, hdeletes, hkey, htime⟩
  have hne : kv.deletePrefix ≠ [] := hdeletes
  simpa [ownerRule, hne] using howner

/-- Two values of one row have the same key and the same peer. -/
theorem Authored.eq_of_id (hdash : ∀ key, 45 ∉ C.peerId key) (h : Authored C st.rows)
    (hv : AuthoredValue C v) (hdoc : st.rows.lookup v.keyPeerId = some doc) :
    v.key = doc.k ∧ v.peerId = doc.p := by
  obtain ⟨key, hpeer⟩ := hv.peer
  obtain ⟨key', hpeer'⟩ := h.peer _ _ hdoc
  have hid := h.id _ _ hdoc
  rw [hv.id] at hid
  exact keyPeerId_inj (hpeer ▸ hdash key) (hpeer' ▸ hdash key') hid

/-- What the accepted values may do to a row. -/
theorem settled_respects (hdash : ∀ key, 45 ∉ C.peerId key) (h : Authored C st.rows)
    (hdoc : st.rows.lookup id = some doc) {rows' : Rows}
    (hrows : rows' = (settled float64 st.rows st.watermarks (st.batch C acl messages)).rows)
    (hne : rows'.lookup id ≠ some doc) :
    ((∃ m ∈ messages, SignedBy C doc.p m) ∨
        rows'.lookup id = none ∧ ∃ m ∈ messages, ClearedBy C acl doc.k (doc.t < ·) m) ∧
      (rows'.lookup id = none → ∃ m ∈ messages, ClearedBy C acl doc.k (fun _ => True) m) := by
  subst hrows
  set tx := settled float64 st.rows st.watermarks (st.batch C acl messages) with htx
  have hhistory : History float64 st.rows tx := history_settled h.keyed _
  have hmem : ∀ {v}, v ∈ tx.res.applied → v ∈ st.batch C acl messages :=
    fun hv => mem_of_mem_applied h.keyed hv
  -- a value that is written to the row comes from its peer
  have hwritten : ∀ {v}, v ∈ tx.res.applied → v.keyPeerId = id →
      v.key = doc.k ∧ ∃ m ∈ messages, SignedBy C doc.p m := by
    rintro v hv rfl
    obtain ⟨hkey, hpeer⟩ := h.eq_of_id hdash (authored_of_mem_batch (hmem hv)) hdoc
    exact ⟨hkey, hpeer ▸ signedBy_of_mem_batch (hmem hv)⟩
  by_cases hdropped : id ∈ tx.res.droppedIds
  · obtain ⟨wm, hwm, doc', hdrops, hdoc' | ⟨v, hv, hid, hdoc'⟩⟩ := hhistory.dropped id hdropped
    · obtain rfl := Option.some.inj (hdoc'.symm.trans hdoc)
      have hcleared := clearedBy_of_mem_batch (hmem hwm) hdrops
      refine ⟨?_, fun _ => ?_⟩
      · by_cases hvalue : ∃ v ∈ tx.res.applied, v.keyPeerId = id
        · obtain ⟨v, hv, hid⟩ := hvalue
          exact .inl (hwritten hv hid).2
        · refine .inr ⟨?_, hcleared⟩
          by_contra hsome
          obtain ⟨doc', hdoc''⟩ := Option.ne_none_iff_exists'.mp hsome
          rcases hhistory.origin id doc' hdoc'' with hold | ⟨v, hv, hid, -⟩
          · exact hne (hdoc''.trans (hold.symm.trans hdoc))
          · exact hvalue ⟨v, hv, hid⟩
      · obtain ⟨m, hm, wm', identity, peer, hdecode, hsigned, howner, hpre, hkey, -⟩ := hcleared
        exact ⟨m, hm, wm', identity, peer, hdecode, hsigned, howner, hpre, hkey, trivial⟩
    · obtain ⟨hkey, hsigned⟩ := hwritten hv hid
      refine ⟨.inl hsigned, fun _ => ?_⟩
      obtain ⟨m, hm, wm', identity, peer, hdecode, hsigned, howner, hpre, hkey', -⟩ :=
        clearedBy_of_mem_batch (hmem hwm) hdrops
      rw [← hdoc'] at hkey'
      exact ⟨m, hm, wm', identity, peer, hdecode, hsigned, howner, hpre, hkey ▸ hkey', trivial⟩
  · by_cases hvalue : ∃ v ∈ tx.res.applied, v.keyPeerId = id
    · obtain ⟨v, hv, rfl⟩ := hvalue
      refine ⟨.inl (hwritten hv rfl).2, fun hnone => ?_⟩
      obtain ⟨u, -, -, hrow⟩ := hhistory.written v hv hdropped
      rw [hnone] at hrow
      cases hrow
    · have hkept := hhistory.kept id hdropped fun v hv hid => hvalue ⟨v, hv, hid⟩
      exact absurd (hkept.trans hdoc) hne

/-- The messages that are not admissible do not reach the inner storage. -/
theorem batch_filter_admissible :
    st.batch C acl (messages.filter (admissible C acl)) = st.batch C acl messages := by
  unfold Storage.batch
  induction messages with
  | nil => rfl
  | cons m messages ih =>
    cases hdecode : decode C m with
    | none =>
      have hnot : admissible C acl m = false := by rw [admissible, hdecode]; rfl
      rw [List.filter_cons_of_neg (by simp [hnot]), List.filterMap_cons_none hdecode, ih]
    | some x =>
      rw [List.filterMap_cons_some hdecode, List.map_cons]
      by_cases howner : ownerRule acl x = true
      · have hadmissible : admissible C acl m = true := by
          rw [admissible, hdecode]
          exact howner
        rw [List.filter_cons_of_pos hadmissible, List.filterMap_cons_some hdecode,
          List.map_cons, List.filter_cons, ih, List.filter_cons]
      · -- the value is marked, and what is marked is left out
        have howner' : ownerRule acl x = false := by simpa using howner
        have hnot : admissible C acl m = false := by
          rw [admissible, hdecode]
          exact howner'
        have hmarked : (screen acl (contents st.diff) x).keyPeerId = [] := by
          rw [screen, if_pos howner']
        rw [List.filter_cons_of_neg (by simp [hnot]), ih,
          List.filter_cons_of_neg (by simp [hmarked])]

theorem setRaw_filter_admissible :
    (st.setRaw H fuel float64 C acl (messages.filter (admissible C acl)) ok ord).1 =
      (st.setRaw H fuel float64 C acl messages ok ord).1 := by
  have hnone : ∀ messages', st.batch C acl messages' = [] →
      (st.setRaw H fuel float64 C acl messages' ok ord).1 = st := by
    intro messages' hbatch
    unfold Storage.setRaw
    simp only [hbatch, if_true]
    split_ifs <;> rfl
  by_cases hbatch : st.batch C acl messages = []
  · rw [hnone _ hbatch, hnone _ (batch_filter_admissible.trans hbatch)]
  · have hsome : messages ≠ [] := by
      rintro rfl
      exact hbatch rfl
    have hsome' : messages.filter (admissible C acl) ≠ [] := by
      intro hnil
      rw [← batch_filter_admissible, hnil] at hbatch
      exact hbatch rfl
    unfold Storage.setRaw
    rw [if_neg hsome, if_neg hsome', batch_filter_admissible]

/-- A row changes only by a message that its writer has signed, or it is deleted by a watermark of
the owner; a row appears only by a message of its writer; and the messages that are not admissible
have no effect. -/
theorem setRaw_respects_writers (hdash : ∀ key, 45 ∉ C.peerId key)
    (hst : Reached H fuel float64 C st) (acl : AclView C.PubKey) (messages : List StoreKeyValue)
    (ok : ℕ → Bool) (ord : RangeOrder) :
    let st' := (st.setRaw H fuel float64 C acl messages ok ord).1
    let st'' := (st.setRaw H fuel float64 C acl (messages.filter (admissible C acl)) ok ord).1
    (∀ id doc, st.rows.lookup id = some doc → st'.rows.lookup id ≠ some doc →
      ((∃ m ∈ messages, SignedBy C doc.p m) ∨
        st'.rows.lookup id = none ∧ ∃ m ∈ messages, ClearedBy C acl doc.k (doc.t < ·) m) ∧
      (st'.rows.lookup id = none → ∃ m ∈ messages, ClearedBy C acl doc.k (fun _ => True) m)) ∧
    (∀ id doc, st'.rows.lookup id = some doc → st.rows.lookup id ≠ some doc →
      ∃ m ∈ messages, SignedBy C doc.p m) ∧
    st''.rows = st'.rows ∧ st''.diff = st'.diff ∧ st''.watermarks = st'.watermarks := by
  intro st' st''
  have hauthored := hst.authored
  have hfilter : st'' = st' := setRaw_filter_admissible
  -- the call does nothing, or it commits its batch
  have hrows : st'.rows = st.rows ∨
      st'.rows = (settled float64 st.rows st.watermarks (st.batch C acl messages)).rows := by
    obtain ⟨heq, -⟩ | ⟨result, heq, -⟩ := setRaw_cases
      (Prod.mk.eta.symm : st.setRaw H fuel float64 C acl messages ok ord = _)
    · exact .inl (congrArg Storage.rows heq)
    · exact set_rows hauthored.keyed heq
  refine ⟨fun id doc hdoc hne => ?_, fun id doc hdoc hne => ?_, ?_⟩
  · rcases hrows with hsame | hsettled
    · rw [hsame] at hne
      exact absurd hdoc hne
    · exact settled_respects hdash hauthored hdoc hsettled hne
  · rcases hrows with hsame | hsettled
    · rw [hsame] at hdoc
      exact absurd hdoc hne
    · rw [hsettled] at hdoc
      obtain hold | ⟨v, hv, rfl, rfl⟩ := (history_settled hauthored.keyed _).origin id doc hdoc
      · exact absurd hold hne
      · exact signedBy_of_mem_batch (mem_of_mem_applied hauthored.keyed hv)
  · rw [hfilter]
    exact ⟨rfl, rfl, rfl⟩

end Respect

namespace Sample

theorem dashless (messages : List Message) (key : Bytes) : 45 ∉ (crypto messages).peerId key := by
  change 45 ∉ (([ownerDevice, memberDevice].find? (·.pubKey = key)).map (·.name)).getD []
  cases hfind : [ownerDevice, memberDevice].find? (·.pubKey = key) with
  | none => simp
  | some device =>
    have hnames : ∀ device ∈ [ownerDevice, memberDevice], 45 ∉ device.name := by decide +kernel
    exact hnames device (List.mem_of_find?_eq_some hfind)

/-- A message of the member whose signature was cut off. -/
def forgedNote : StoreKeyValue :=
  { memberNoteAgain.raw memberDevice with peerSignature := [] }

/-- A call with the watermark of the owner and the forged note. -/
def hostileCall : List StoreKeyValue := [forgedNote, ownerClear.raw ownerDevice]

theorem noted_eq : noted = ((opened rawHashing 70 .listed ∅).setRaw rawHashing 70 id
    (crypto messages) aclView [memberNote.raw memberDevice] (fun _ => true) .listed).1 := rfl

end Sample

open Sample

/-- The watermark deletes the note, and the forged note is ignored. -/
theorem respects_writers_noted :
    let out := deliver messages id noted hostileCall
    let note := memberNote.kv member memberDevice
    noted.rows.lookup note.keyPeerId = some (note.anyEnc id) ∧
      out.1.rows.lookup note.keyPeerId = none ∧
      ((∃ m ∈ hostileCall, SignedBy (crypto messages) note.peerId m) ∨ ∃ m ∈ hostileCall,
          ClearedBy (crypto messages) aclView note.key (1 < ·) m) := by
  intro out note
  have hreached : Reached rawHashing 70 id (crypto messages) noted := by
    rw [noted_eq]
    exact .setRaw (.new .listed) _ _ _ _
  have hdoc : noted.rows.lookup note.keyPeerId = some (note.anyEnc id) := by decide +kernel
  have hnone : (noted.setRaw rawHashing 70 id (crypto messages)
      aclView hostileCall (fun _ => true) .listed).1.rows.lookup note.keyPeerId =
        none := by decide +kernel
  have hwriters := (setRaw_respects_writers (dashless messages) hreached
    aclView hostileCall (fun _ => true) .listed).1 note.keyPeerId _ hdoc
    (by rw [hnone]; simp)
  exact ⟨hdoc, by decide +kernel, hwriters.1.imp_right And.right⟩

end InnerStorage
