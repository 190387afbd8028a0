import AnySync.Acl.Raw

/-!
# Storages of the list

`storage.go` and `inmemorystorage.go`: the records of a list are kept as they came in, with their
position in the log as their order. Clients and nodes use a collection of a database, the
coordinator a slice in memory. A list serves other replicas from its storage (`RecordsAfter`).
-/

namespace Acl

/-- `StorageRecord`. -/
structure StorageRecord where
  /-- The bytes of the record. -/
  rawRecord : Bytes
  /-- The record before it. -/
  prevId : GoString
  /-- Its id. -/
  id : GoString
  /-- Its position in the log; the root has order 1. -/
  order : ℕ
  /-- The size of the bytes. -/
  changeSize : ℕ
deriving DecidableEq, Repr

/-- `RawRecordWithId`. -/
def StorageRecord.rawRecordWithId (rec : StorageRecord) : RawRecordWithId :=
  { payload := rec.rawRecord, id := rec.id }

/-- The two implementations of `Storage`. -/
inductive StorageKind
  | database
  | inMemory
deriving DecidableEq, Repr

/-- `Storage`: the documents of the collection, or the slice. -/
structure AclStorage where
  /-- The implementation. -/
  kind : StorageKind
  /-- The records, in the order in which they were added. -/
  records : List StorageRecord
deriving DecidableEq, Repr

namespace AclStorage

/-- `CreateStorage`, and `NewInMemoryStorage` for a single record. -/
def create (kind : StorageKind) (root : RawRecordWithId) : AclStorage :=
  { kind := kind
    records := [{ rawRecord := root.payload, prevId := [], id := root.id, order := 1,
                  changeSize := root.payload.length }] }

/-- The records that `GetAfterOrder` hands to its iterator, which never stops. The database sorts
the documents with at least the given order; the slice is read from the position of the order. -/
def getAfterOrder (s : AclStorage) (order : ℕ) : List StorageRecord :=
  match s.kind with
  | .database => (s.records.filter (order ≤ ·.order)).insertionSort (·.order ≤ ·.order)
  | .inMemory =>
    if s.records.length < order || order < 1 then [] else s.records.drop (order - 1)

/-- `AddAll` for one record. The collection has unique ids and a unique index on the order. -/
def add (s : AclStorage) (rec : StorageRecord) : Option AclStorage :=
  match s.kind with
  | .database =>
    if s.records.any (fun r => r.id = rec.id || r.order = rec.order) then none
    else some { s with records := s.records ++ [rec] }
  | .inMemory => some { s with records := s.records ++ [rec] }

end AclStorage

/-- An `aclList` with its storage. -/
structure StoredList where
  /-- The records and the state. -/
  list : AclList
  /-- The storage. -/
  storage : AclStorage

namespace StoredList

variable (C : Crypto) (D : Codec) (verifyAcceptor : RawRecord → Bool)

/-- `BuildAclListWithIdentity` on a new storage. The raw root `rawRoot` decodes to `root`. -/
def create (kind : StorageKind) (validates : Bool) (root : AclRootRecord)
    (rawRoot : RawRecordWithId) (key : PrivKey) : Except AclError StoredList := do
  let list ← AclList.build C validates root key
  pure { list := list, storage := .create kind rawRoot }

variable (s : StoredList)

/-- `AddRawRecord`. -/
def addRawRecord (rawRec : RawRecordWithId) (ord : RangeOrder) : Except AclError StoredList := do
  failIf (s.list.hasHead rawRec.id) AclError.recordAlreadyExists
  failIf (rawRec.id = s.list.aclState.id) AclError.incorrectRecordSequence
  let record ← D.unmarshallWithId C verifyAcceptor s.list.shouldValidate
    (C.getPublic s.list.aclState.key) rawRec
  let list ← s.list.append C record ord
  let storageRec : StorageRecord :=
    { rawRecord := rawRec.payload, prevId := record.prevId, id := record.id,
      order := s.list.records.length + 1, changeSize := rawRec.payload.length }
  match s.storage.add storageRec with
  | none => .error .storageFailed
  | some storage => pure { list := list, storage := storage }

/-- The body of the loop of `AddRawRecords`: a record that is there already is skipped. -/
def addOrSkip (s : StoredList) (x : RawRecordWithId × RangeOrder) : Except AclError StoredList :=
  match s.addRawRecord C D verifyAcceptor x.1 x.2 with
  | .error .recordAlreadyExists => .ok s
  | result => result

/-- `AddRawRecords`, with the map order of each call. -/
def addRawRecords (rawRecords : List (RawRecordWithId × RangeOrder)) :
    Except AclError StoredList :=
  rawRecords.foldlM (addOrSkip C D verifyAcceptor) s

end StoredList

/-! ## What a storage holds -/

/-- The storage holds the raw records in this order. -/
def AclStorage.Holds (s : AclStorage) (raws : List RawRecordWithId) : Prop :=
  s.records.map (fun r => (r.rawRecordWithId, r.order)) = raws.zipIdx 1

namespace AclStorage.Holds

variable {s s' : AclStorage} {raws : List RawRecordWithId} {rec : StorageRecord}

theorem create (kind : StorageKind) (root : RawRecordWithId) :
    (AclStorage.create kind root).Holds [root] := rfl

theorem length_eq (h : s.Holds raws) : s.records.length = raws.length := by
  have := congrArg List.length h
  simpa using this

theorem map_rawRecordWithId (h : s.Holds raws) :
    s.records.map StorageRecord.rawRecordWithId = raws := by
  have hfst := congrArg (List.map Prod.fst) h
  rwa [List.map_map, List.zipIdx_map_fst] at hfst

theorem map_order (h : s.Holds raws) :
    s.records.map StorageRecord.order = List.range' 1 raws.length := by
  have hsnd := congrArg (List.map Prod.snd) h
  rwa [List.map_map, List.zipIdx_map_snd] at hsnd

/-- The next record goes to the end. -/
theorem append (h : s.Holds raws) (horder : rec.order = raws.length + 1) :
    { s with records := s.records ++ [rec] }.Holds (raws ++ [rec.rawRecordWithId]) := by
  unfold Holds at h ⊢
  rw [List.map_append, h, List.zipIdx_append]
  simp [horder, Nat.add_comm]

/-- A storage takes a record with a new id and the next order. -/
theorem add (h : s.Holds raws) (horder : rec.order = raws.length + 1)
    (hnew : ∀ raw ∈ raws, raw.id ≠ rec.id) :
    ∃ s', s.add rec = some s' ∧ s'.Holds (raws ++ [rec.rawRecordWithId]) ∧ s'.kind = s.kind := by
  refine ⟨{ s with records := s.records ++ [rec] }, ?_, h.append horder, rfl⟩
  have hfree : s.records.any (fun r => r.id = rec.id || r.order = rec.order) = false := by
    rw [List.any_eq_false]
    intro r hr
    have hid : r.rawRecordWithId.id ≠ rec.id := by
      refine hnew _ ?_
      rw [← h.map_rawRecordWithId]
      exact List.mem_map_of_mem hr
    have hlt : r.order < raws.length + 1 := by
      have hmem : r.order ∈ List.range' 1 raws.length := by
        rw [← h.map_order]
        exact List.mem_map_of_mem hr
      rw [List.mem_range'_1] at hmem
      omega
    have hid' : r.id ≠ rec.id := hid
    simp only [Bool.or_eq_true, decide_eq_true_eq, not_or]
    exact ⟨hid', by omega⟩
  unfold AclStorage.add
  cases s.kind <;> simp [hfree]

end AclStorage.Holds

end Acl
