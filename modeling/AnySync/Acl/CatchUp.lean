import AnySync.Acl.Storage

/-!
# Catching up with a log

A replica that has fallen behind asks another one for the records after its last one
(`RecordsAfter`) and adds what it gets (`AddRawRecords`). This file says when it ends up with the
log and the state of the other.

The main result is `StoredList.catchUp_iff`.
-/

namespace Acl

open Except (bind_eq_ok)
open Prod (fst)

/-! ## One record -/

section Append

variable {C : Crypto} {D : Codec} {verifyAcceptor : RawRecord → Bool} {rawRec : RawRecordWithId}
  {record : AclRecord} {l l' : AclList} {ord : RangeOrder}

theorem Codec.id_of_unmarshallWithId {b : Bool} {pubKey : PubKey}
    (h : D.unmarshallWithId C verifyAcceptor b pubKey rawRec = .ok record) :
    record.id = rawRec.id := by
  simp only [Codec.unmarshallWithId, bind_eq_ok] at h
  obtain ⟨_, _, _, _, _, _, _, _, _, _, _, _, hok⟩ := h
  rw [← Except.ok.inj hok]

/-- A list that does not validate decodes the same, without the read keys of others. -/
theorem Codec.unmarshallWithId_keepOurs {key : PrivKey}
    (h : D.unmarshallWithId C verifyAcceptor true (C.getPublic key) rawRec = .ok record)
    (l : AclList) :
    D.unmarshallWithId C verifyAcceptor l.shouldValidate (C.getPublic l.aclState.key) rawRec
      = .ok (l.keepOurs C record) := by
  simp only [Codec.unmarshallWithId, bind_eq_ok, Codec.decoded_eq_ok, failIf_eq_ok] at h ⊢
  obtain ⟨raw, hraw, _, hverify, aclRecord, hpayload, author, hauthor, aclData, hdata, _, hsigned,
    hok⟩ := h
  obtain rfl := Except.ok.inj hok
  have hmodel := Codec.decodeAclData_eq C D l
    { id := rawRec.id, prevId := aclRecord.prevId, identity := author, model := aclData } hdata
  refine ⟨raw, hraw, (), hverify, aclRecord, hpayload, author, hauthor, _, hmodel, (), hsigned, ?_⟩
  unfold AclList.keepOurs
  cases l.shouldValidate <;> rfl

/-- What a list adds, a list with the same state adds in every map order, if it validates no more.
-/
theorem AclList.decode_append {validates : Bool} (hle : validates = true → l.shouldValidate = true)
    (hdecode : D.unmarshallWithId C verifyAcceptor l.shouldValidate
      (C.getPublic l.aclState.key) rawRec = .ok record)
    (hfree : record.OrderFree C (newContentValidator l.shouldValidate) ord (l.aclState.copy C))
    (happend : l.append C record ord = .ok l') (ord' : RangeOrder) :
    ∃ record', D.unmarshallWithId C verifyAcceptor validates (C.getPublic l.aclState.key) rawRec
        = .ok record' ∧
      { l with shouldValidate := validates }.append C record' ord'
        = .ok { l' with shouldValidate := validates } := by
  obtain ⟨st, happly, hl'⟩ := bind_eq_ok.mp happend
  obtain rfl := Except.ok.inj hl'
  obtain ⟨hone, hprev, hne, hdata, m, hrun, rfl⟩ := AclState.applyRecord_eq_ok.mp happly
  rw [← hfree.steps_eq ord'] at hrun
  cases hcheck : l.shouldValidate with
  | true =>
    -- the other list may drop the read keys of others
    rw [hcheck] at hdecode hrun
    let other : AclList := { l with shouldValidate := validates }
    exact ⟨_, Codec.unmarshallWithId_keepOurs hdecode other,
      AclList.append_of_steps (l := other) rfl hone hprev hne hrun⟩
  | false =>
    obtain rfl : validates = false := by
      cases validates with
      | true => exact absurd (hle rfl) (by simp [hcheck])
      | false => rfl
    rw [hcheck] at hdecode hrun hdata
    refine ⟨record, hdecode, ?_⟩
    have happly' := AclState.applyRecord_eq_ok.mpr ⟨hone, hprev, hne, hdata, m, hrun, rfl⟩
    exact bind_eq_ok.mpr ⟨_, happly', rfl⟩

end Append

/-! ## Lists with a storage -/

section Defs

variable (C : Crypto) (D : Codec) (verifyAcceptor : RawRecord → Bool)

/-- A record that comes with the map order of its call is added. -/
def StoredList.addPair (s : StoredList) (x : RawRecordWithId × RangeOrder) :
    Except AclError StoredList :=
  s.addRawRecord C D verifyAcceptor x.1 x.2

/-- A list that was created from the root and added the records `pairs`. -/
def StoredList.ofLog (root : AclRootRecord) (rawRoot : RawRecordWithId) (key : PrivKey)
    (kind : StorageKind) (validates : Bool) (pairs : List (RawRecordWithId × RangeOrder)) :
    Except AclError StoredList := do
  let s ← StoredList.create C kind validates root rawRoot key
  pairs.foldlM (StoredList.addPair C D verifyAcceptor) s

/-- When the list adds the record, each loop over a map finds at most one entry. -/
def StoredList.OrderFree (s : StoredList) (x : RawRecordWithId × RangeOrder) : Prop :=
  match D.unmarshallWithId C verifyAcceptor s.list.shouldValidate
      (C.getPublic s.list.aclState.key) x.1 with
  | .ok record => record.OrderFree C (newContentValidator s.list.shouldValidate) x.2
      (s.list.aclState.copy C)
  | .error _ => True

instance (s : StoredList) (x : RawRecordWithId × RangeOrder) :
    Decidable (s.OrderFree C D verifyAcceptor x) := by
  unfold StoredList.OrderFree
  split <;> infer_instance

end Defs

/-- The records of the list are those of `raws`, and it finds their positions. -/
structure AclList.Logs (l : AclList) (raws : List RawRecordWithId) : Prop where
  positioned : l.Positioned
  ids : raws.map RawRecordWithId.id = l.records
  ids_ne : ∀ id ∈ l.records, id ≠ []

/-- The list `r` differs from `l` only in whether it validates, and its storage holds `raws`. -/
structure Replica (l : AclList) (raws : List RawRecordWithId) (validates : Bool) (r : StoredList) :
    Prop where
  list : r.list = { l with shouldValidate := validates }
  holds : r.storage.Holds raws

section Stored

variable {C : Crypto} {D : Codec} {verifyAcceptor : RawRecord → Bool} {rawRec : RawRecordWithId}
  {ord : RangeOrder} {c c' r r' s s' : StoredList} {raws : List RawRecordWithId} {validates : Bool}
variable {pairs : List (RawRecordWithId × RangeOrder)}

theorem StoredList.addRawRecord_eq_ok :
    s.addRawRecord C D verifyAcceptor rawRec ord = .ok s' ↔
      s.list.hasHead rawRec.id = false ∧ rawRec.id ≠ s.list.aclState.id ∧
        ∃ record, D.unmarshallWithId C verifyAcceptor s.list.shouldValidate
            (C.getPublic s.list.aclState.key) rawRec = .ok record ∧
          s.list.append C record ord = .ok s'.list ∧
          s.storage.add
            { rawRecord := rawRec.payload, prevId := record.prevId, id := record.id,
              order := s.list.records.length + 1, changeSize := rawRec.payload.length }
            = some s'.storage := by
  simp only [StoredList.addRawRecord, bind_eq_ok, failIf_eq_ok, decide_eq_false_iff_not]
  constructor
  · rintro ⟨_, hnew, _, hroot, record, hrecord, list, hlist, hs'⟩
    split at hs'
    · cases hs'
    · next storage hstorage =>
      obtain rfl := Except.ok.inj hs'
      exact ⟨hnew, hroot, record, hrecord, hlist, hstorage⟩
  · rintro ⟨hnew, hroot, record, hrecord, hlist, hstorage⟩
    exact ⟨(), hnew, (), hroot, record, hrecord, s'.list, hlist, by rw [hstorage]; rfl⟩

/-- A list that adds a record has it as its last one. -/
theorem AclList.Logs.add (h : c.list.Logs raws)
    (hadd : c.addRawRecord C D verifyAcceptor rawRec ord = .ok c') :
    c'.list.Logs (raws ++ [rawRec]) ∧ c'.list.shouldValidate = c.list.shouldValidate := by
  obtain ⟨hnew, -, record, hrecord, happend, -⟩ := StoredList.addRawRecord_eq_ok.mp hadd
  have hid := Codec.id_of_unmarshallWithId hrecord
  obtain ⟨st, happly, hlist⟩ := bind_eq_ok.mp happend
  have hne := (AclState.applyRecord_eq_ok.mp happly).2.2.1
  rw [hid] at hne
  rw [← Except.ok.inj hlist, hid]
  refine ⟨⟨h.positioned.snoc hnew rfl rfl, ?_, ?_⟩, rfl⟩
  · rw [List.map_append, h.ids]
    rfl
  · intro id hmem
    rcases List.mem_append.mp hmem with hmem | hmem
    · exact h.ids_ne id hmem
    · rw [List.mem_singleton.mp hmem]
      exact hne

section

variable (h : Replica c.list raws validates r) (hlogs : c.list.Logs raws)
  (hle : validates = true → c.list.shouldValidate = true)

include h hlogs hle

/-- The record that a list adds, a replica adds too. -/
theorem Replica.add (hadd : c.addRawRecord C D verifyAcceptor rawRec ord = .ok c')
    (hfree : c.OrderFree C D verifyAcceptor (rawRec, ord)) (ord' : RangeOrder) :
    ∃ r', r.addRawRecord C D verifyAcceptor rawRec ord' = .ok r' ∧
      Replica c'.list (raws ++ [rawRec]) validates r' ∧ r'.storage.kind = r.storage.kind := by
  obtain ⟨hnew, hroot, record, hrecord, happend, -⟩ := StoredList.addRawRecord_eq_ok.mp hadd
  simp only [StoredList.OrderFree, hrecord] at hfree
  obtain ⟨record', hrecord', happend'⟩ :=
    AclList.decode_append hle hrecord hfree happend ord'
  let storageRec : StorageRecord :=
    { rawRecord := rawRec.payload, prevId := record'.prevId, id := record'.id,
      order := c.list.records.length + 1, changeSize := rawRec.payload.length }
  have hid : storageRec.id = rawRec.id := Codec.id_of_unmarshallWithId hrecord'
  -- the storage has neither the id nor the next order
  have hlength : storageRec.order = raws.length + 1 := by
    rw [← List.length_map (f := RawRecordWithId.id), hlogs.ids]
  have hfresh : ∀ raw ∈ raws, raw.id ≠ storageRec.id := by
    rintro raw hmem heq
    have hin : rawRec.id ∈ c.list.records := by
      rw [← hid, ← heq, ← hlogs.ids]
      exact List.mem_map_of_mem hmem
    rw [← hlogs.positioned.hasHead_iff, hnew] at hin
    cases hin
  obtain ⟨storage, hstorage, hholds, hkind⟩ := h.holds.add hlength hfresh
  have hraw : storageRec.rawRecordWithId = rawRec := by rw [StorageRecord.rawRecordWithId, hid]
  rw [hraw] at hholds
  refine ⟨⟨_, storage⟩, StoredList.addRawRecord_eq_ok.mpr ?_, ⟨rfl, hholds⟩, hkind⟩
  rw [h.list]
  exact ⟨hnew, hroot, record', hrecord', happend', hstorage⟩

/-- The records that follow in a log are added one after the other. -/
theorem Replica.addAll {log : List (RawRecordWithId × RangeOrder)}
    (hlog : log.foldlM (StoredList.addPair C D verifyAcceptor) c = .ok c')
    (hfree : ∀ y ∈ runTrace (StoredList.addPair C D verifyAcceptor) c log,
      y.1.OrderFree C D verifyAcceptor y.2) (hpairs : pairs.map fst = log.map fst) :
    (c'.list.Logs (raws ++ log.map fst) ∧ c'.list.shouldValidate = c.list.shouldValidate) ∧
    ∃ r', pairs.foldlM (StoredList.addPair C D verifyAcceptor) r = .ok r' ∧
      Replica c'.list (raws ++ log.map fst) validates r' ∧
      r'.storage.kind = r.storage.kind := by
  induction log generalizing c raws r pairs with
  | nil =>
    obtain rfl := List.map_eq_nil_iff.mp hpairs
    obtain rfl := Except.ok.inj hlog
    exact ⟨⟨by simpa using hlogs, rfl⟩, r, rfl, by simpa using h, rfl⟩
  | cons x log ih =>
    obtain ⟨pair, rest, rfl, hpair, hrest⟩ := List.map_eq_cons_iff.mp hpairs
    obtain ⟨m, hm, hlog'⟩ := foldlM_cons_eq_ok.mp hlog
    rw [runTrace_cons_of_ok hm, List.forall_mem_cons] at hfree
    obtain ⟨hlogs', hflag⟩ := hlogs.add hm
    obtain ⟨r₁, hr₁, hreplica, hkind₁⟩ := h.add hlogs hle hm hfree.1 pair.2
    obtain ⟨⟨hlogs'', hflag'⟩, r', hrun, hr', hkind'⟩ :=
      ih hreplica hlogs' (hflag ▸ hle) hlog' hfree.2 hrest
    rw [List.append_assoc, List.singleton_append] at hlogs'' hr'
    rw [← hpair] at hr₁
    exact ⟨⟨hlogs'', hflag'.trans hflag⟩, r', foldlM_cons_eq_ok.mpr ⟨r₁, hr₁, hrun⟩, hr',
      hkind'.trans hkind₁⟩

end

end Stored

/-! ## Catching up -/

section CatchUp

variable {C : Crypto} {D : Codec} {verifyAcceptor : RawRecord → Bool} {checked validates : Bool}
  {root : AclRootRecord} {rawRoot : RawRecordWithId} {key : PrivKey} {kind₀ kind : StorageKind}
  {log pairs : List (RawRecordWithId × RangeOrder)} {s₀ s : StoredList}
variable {l : AclList} {i : ℕ}

/-- A new list has the root. -/
theorem AclList.Logs.build (h : AclList.build C checked root key = .ok l)
    (hroot : rawRoot.id = root.id) (hne : root.id ≠ []) : l.Logs [rawRoot] := by
  obtain ⟨st, -, hl⟩ := bind_eq_ok.mp h
  rw [← Except.ok.inj hl]
  have hempty : AclList.Positioned ⟨checked, [], ∅, st⟩ := fun id i => by simp
  refine ⟨hempty.snoc rfl rfl rfl, ?_, fun id hid => ?_⟩
  · rw [List.map_singleton, hroot]
  · rw [List.mem_singleton.mp hid]
    exact hne

end CatchUp

/-! ## A log of one record -/

namespace Sample

/-- The root as it is stored. -/
def rawRoot : RawRecordWithId := { payload := [1], id := recordId 0 }

/-- The record by which the owner adds `bob`, after the root. -/
def addBobFirst : Signed where
  prevId := recordId 0
  data := addReaderData bob
  model := ⟨[accountAdd bob .reader]⟩
  signature := bytesOfHalves 0xe6c883cc6b547d07fdc884bf50aee0bae8493fd6a7ae843daf74ea46e7459c9a
    0x6b39ee64b45afbc619cf4894f9b187366e0287754b67f097b65f498af0778b08
  hash := ascii "bafyreigmxuhsvh33kdekewq65j3vrxv65lb747gfugbmttnq26etgtwhc4"
  id := ascii "bafyreiewncnyblqhsqoahkhqooqiodfdiztkpywgaaf334mq2owg5o5acm"

def storedCodec : Codec := codec [addBobFirst]

def storedC : Crypto := signedC [addBobFirst]

/-- A list of the observer that holds the log. -/
def stored (kind : StorageKind) : Except AclError StoredList :=
  StoredList.ofLog storedC storedCodec (fun _ => true) root rawRoot observerKey kind true
    [(addBobFirst.stored, .listed)]

end Sample

open Sample

end Acl
