import AnySync.Ldiff.Contents

/-!
# The key-value storage

`commonspace/object/keyvalue/keyvaluestorage/innerstorage`: rows with timestamps, of which the
newest one of an id wins, and deletion watermarks, which drop and reject the older rows under a
prefix.

* `keyValueFromProto`: which values are valid.
* `updateValues`, `applyWatermark`, `Storage.set`: the source's functions. The operations of the
  store inside a call may fail: `ok n` tells whether the `n`-th one succeeds. What a failed call
  has done to the rows is rolled back.
* The diff of a storage is given by the calls that were made on it, `Ldiff.Op`; its contents and
  its hash are those of a container after the calls.
* `float64`: what is read back of a timestamp that is stored as a floating point number.
-/

namespace InnerStorage

open Ldiff

/-! ## Key values -/

/-- `Value`. -/
structure Value where
  value : Bytes
  peerSignature : Bytes
  identitySignature : Bytes
deriving DecidableEq, Repr

/-- `KeyValue`, without the parsed identity. -/
structure KeyValue where
  keyPeerId : GoString
  readKeyId : GoString
  key : GoString
  value : Value
  timestampMicro : ℤ
  identity : GoString
  peerId : GoString
  aclId : GoString
  /-- The prefix of a deletion watermark, empty for other values. -/
  deletePrefix : GoString
deriving DecidableEq, Repr

/-- `KeyPeerId`. -/
def keyPeerId (key peerId : GoString) : GoString := key ++ [45] ++ peerId

/-- `StoreKeyValue`. -/
structure StoreKeyValue where
  keyPeerId : GoString
  value : Bytes
  peerSignature : Bytes
  identitySignature : Bytes
deriving DecidableEq, Repr

/-- `StoreKeyInner`. -/
structure StoreKeyInner where
  timestampMicro : ℤ
  identity : Bytes
  peer : Bytes
  key : GoString
  aclHeadId : GoString
  /-- The prefix of `delete`, empty if there is none. -/
  deletePrefix : GoString
deriving DecidableEq, Repr

/-- The parsers and the keys of the libraries. -/
structure Crypto where
  PubKey : Type
  unmarshalInner : Bytes → Option StoreKeyInner
  unmarshalPublicKey : Bytes → Option PubKey
  account : PubKey → GoString
  peerId : PubKey → GoString
  verify : PubKey → Bytes → Bytes → Bool

/-- The errors of `KeyValueFromProto`. -/
inductive ProtoError
  | unmarshal
  | invalidKeyPeerId
  | invalidWatermark
  | invalidSignature
deriving DecidableEq, Repr

/-- `KeyValueFromProto`. -/
def keyValueFromProto (C : Crypto) (proto : StoreKeyValue) (verify : Bool) :
    Except ProtoError KeyValue :=
  match C.unmarshalInner proto.value with
  | none => .error .unmarshal
  | some inner =>
    match C.unmarshalPublicKey inner.identity, C.unmarshalPublicKey inner.peer with
    | some identity, some peer =>
      let kv : KeyValue :=
        { keyPeerId := proto.keyPeerId
          readKeyId := []
          key := inner.key
          value := ⟨proto.value, proto.peerSignature, proto.identitySignature⟩
          timestampMicro := inner.timestampMicro
          identity := C.account identity
          peerId := C.peerId peer
          aclId := inner.aclHeadId
          deletePrefix := inner.deletePrefix }
      if kv.keyPeerId ≠ keyPeerId kv.key kv.peerId then .error .invalidKeyPeerId
      else if kv.deletePrefix ≠ [] ∧ kv.key ≠ kv.deletePrefix then .error .invalidWatermark
      else if verify ∧ ¬ C.verify identity proto.value proto.identitySignature then
        .error .invalidSignature
      else if verify ∧ ¬ C.verify peer proto.value proto.peerSignature then
        .error .invalidSignature
      else .ok kv
    | _, _ => .error .unmarshal

/-! ## Rows -/

/-- A document. -/
structure Doc where
  id : GoString
  k : GoString
  r : GoString
  v : Value
  /-- The timestamp as it is read back. -/
  t : ℤ
  i : GoString
  p : GoString
  /-- Empty if the key is absent. -/
  dp : GoString
deriving DecidableEq, Repr

/-- The collection. -/
abbrev Rows := GoMap GoString Doc

/-- The highest applied watermark timestamp for each prefix. -/
abbrev Watermarks := GoMap GoString ℤ

/-- `AnyEnc`. -/
def KeyValue.anyEnc (float64 : ℤ → ℤ) (kv : KeyValue) : Doc where
  id := kv.keyPeerId
  k := kv.key
  r := kv.readKeyId
  v := kv.value
  t := float64 kv.timestampMicro
  i := kv.identity
  p := kv.peerId
  dp := kv.deletePrefix

/-- The bytes of a timestamp, as an unsigned number. -/
def timestampHead (t : ℤ) : GoString := bytesOfNat 8 (t % 2 ^ 64).toNat

/-- `anyEncToElement`. -/
def anyEncToElement (val : Doc) : Element := ⟨val.id, timestampHead val.t⟩

/-- The documents that `iterateIdPrefix` visits: those from `pre` on in the order of their ids, up
to the first one past the prefix. -/
def iterateIdPrefix (rows : Rows) (pre : GoString) : List Doc :=
  (((rows.entries.map (·.2)).insertionSort (fun a b => a.id ≤ b.id)).dropWhile
    (·.id < pre)).takeWhile (pre <+: ·.id)

/-! ## One call -/

/-- `updateResult`. -/
structure UpdateResult where
  elements : List Element
  removed : List Element
  /-- The element of every touched id before the call, `none` if absent. -/
  preState : GoMap GoString (Option Element)
  watermarks : Watermarks
  applied : List KeyValue
  droppedIds : List GoString

/-- The result before the first value. -/
def UpdateResult.empty : UpdateResult := ⟨[], [], ∅, ∅, [], []⟩

/-- `recordPre`. -/
def UpdateResult.recordPre (res : UpdateResult) (id : GoString) (el : Option Element) :
    UpdateResult :=
  if (res.preState.lookup id).isSome then res
  else { res with preState := res.preState.insert id el }

/-- `match` in `covered`. -/
def matchWatermarks (watermarks : Watermarks) (key : GoString) (timestampMicro : ℤ) : Bool :=
  watermarks.entries.any fun w => timestampMicro < w.2 ∧ w.1 <+: key

/-- `covered`. -/
def covered (watermarks : Watermarks) (res : UpdateResult) (key : GoString)
    (timestampMicro : ℤ) : Bool :=
  matchWatermarks watermarks key timestampMicro || matchWatermarks res.watermarks key timestampMicro

/-- The transaction of a call. -/
structure Tx where
  rows : Rows
  res : UpdateResult
  /-- The number of operations of the store so far. -/
  used : ℕ
  /-- An operation failed. -/
  failed : Bool

section Call

variable (float64 : ℤ → ℤ) (ok : ℕ → Bool)

/-- An operation of the store, after which the call goes on with `next`. -/
def Tx.op (tx : Tx) (next : Tx → Tx) : Tx :=
  if tx.failed then tx
  else if ok tx.used then next { tx with used := tx.used + 1 }
  else { tx with failed := true }

/-- A document that `applyWatermark` visits, and the ids it drops so far. -/
def visitDoc (wm : KeyValue) (acc : Tx × List GoString) (doc : Doc) : Tx × List GoString :=
  if acc.1.failed then acc
  else if ok acc.1.used = false then ({ acc.1 with failed := true }, acc.2)
  else
    let tx := { acc.1 with used := acc.1.used + 1 }
    if ¬ wm.deletePrefix <+: doc.k then (tx, acc.2)
    else if doc.t ≥ wm.timestampMicro then (tx, acc.2)
    else
      let el := anyEncToElement doc
      let res := tx.res.recordPre el.id (some el)
      ({ tx with res := { res with removed := res.removed ++ [el] } }, acc.2 ++ [el.id])

/-- `DeleteId`. -/
def deleteId (tx : Tx) (id : GoString) : Tx :=
  tx.op ok fun tx => { tx with rows := tx.rows.erase id }

/-- `applyWatermark`. -/
def applyWatermark (tx : Tx) (wm : KeyValue) : Tx :=
  tx.op ok fun tx =>
    let (tx, dropIds) := (iterateIdPrefix tx.rows wm.deletePrefix).foldl (visitDoc ok wm) (tx, [])
    let tx := dropIds.foldl (deleteId ok) tx
    if tx.failed then tx
    else
      let watermarks :=
        if wm.timestampMicro > (tx.res.watermarks.lookup wm.deletePrefix).getD 0 then
          tx.res.watermarks.insert wm.deletePrefix wm.timestampMicro
        else tx.res.watermarks
      { tx with res := { tx.res with
          droppedIds := tx.res.droppedIds ++ dropIds, watermarks := watermarks } }

/-- The part of `updateValues` for a value that won. -/
def upsertOne (value : KeyValue) (tx : Tx) : Tx :=
  tx.op ok fun tx =>
    let val := value.anyEnc float64
    let tx := { tx with
      rows := tx.rows.insert val.id val
      res := { tx.res with
        elements := tx.res.elements ++ [anyEncToElement val]
        applied := tx.res.applied ++ [value] } }
    if value.deletePrefix = [] then tx else applyWatermark ok tx value

/-- The body of the loop of `updateValues`. -/
def updateValue (watermarks : Watermarks) (tx : Tx) (value : KeyValue) : Tx :=
  if tx.failed ∨ covered watermarks tx.res value.key value.timestampMicro then tx
  else
    tx.op ok fun tx =>
      match tx.rows.lookup value.keyPeerId with
      | some doc =>
        if doc.t ≥ value.timestampMicro then tx
        else
          let el := anyEncToElement doc
          upsertOne float64 ok value { tx with res := tx.res.recordPre el.id (some el) }
      | none =>
        upsertOne float64 ok value { tx with res := tx.res.recordPre value.keyPeerId none }

/-- `updateValues`, in a transaction that was opened with one operation. -/
def updateValues (rows : Rows) (watermarks : Watermarks) (values : List KeyValue) : Tx :=
  values.foldl (updateValue float64 ok watermarks) ⟨rows, .empty, 1, false⟩

end Call

/-! ## The storage -/

/-- `storage`. -/
structure Storage where
  rows : Rows
  watermarks : Watermarks
  /-- The calls that were made on the diff. -/
  diff : List Op
  /-- The head in the entry of the head storage. -/
  head : GoString

/-- `SetResult`. -/
structure SetResult where
  applied : List KeyValue
  droppedIds : List GoString
deriving DecidableEq, Repr

/-- The elements of the diff. -/
def contents (diff : List Op) : Contents := diff.foldl Contents.apply ∅

/-- The calls that restore the diff after a failed call, in the order of the loop. -/
def restore (ord : RangeOrder) (preState : GoMap GoString (Option Element)) : List Op :=
  (ord.shuffle 0 0 preState.entries).map fun pre =>
    match pre.2 with
    | none => .removeId pre.1 ord
    | some el => .set [el] ord

/-- The watermarks of a call that has committed are published. -/
def publish (watermarks res : Watermarks) : Watermarks :=
  res.entries.foldl
    (fun w wm => if wm.2 > (w.lookup wm.1).getD 0 then w.insert wm.1 wm.2 else w) watermarks

variable (H : Hashing) (fuel : ℕ) (float64 : ℤ → ℤ)

/-- `Hash` of the diff. -/
def diffHash (ord : RangeOrder) (diff : List Op) : GoString :=
  match Container.run H fuel 32 256 ord diff with
  | .ok d => hexEncode d.hash
  | .error _ => []

/-- `New` on stored rows: the diff is built and its hash is written. -/
def opened (ord : RangeOrder) (rows : Rows) : Storage :=
  let diff : List Op := [.set (rows.entries.map fun row => anyEncToElement row.2) ord]
  { rows := rows
    watermarks := rows.entries.foldl (fun w row =>
      if row.2.dp ≠ [] ∧ row.2.t > (w.lookup row.2.dp).getD 0 then w.insert row.2.dp row.2.t
      else w) ∅
    diff := diff
    head := diffHash H fuel ord diff }

/-- `Set`, with the result unless the call fails. -/
def Storage.set (st : Storage) (values : List KeyValue) (ok : ℕ → Bool) (ord : RangeOrder) :
    Storage × Option SetResult :=
  if ok 0 = false then (st, none)
  else
    let tx := updateValues float64 ok st.rows st.watermarks values
    let undo (diff : List Op) : Storage × Option SetResult :=
      ({ st with diff := diff ++ restore ord tx.res.preState }, none)
    if tx.failed then undo st.diff
    else
      let diff := st.diff ++ .set tx.res.elements ord ::
        tx.res.removed.map fun el => .removeId el.id ord
      let committed (head : GoString) (result : SetResult) : Storage × Option SetResult :=
        ({ rows := tx.rows, watermarks := publish st.watermarks tx.res.watermarks, diff := diff,
           head := head }, some result)
      if tx.res.preState.entries.isEmpty then
        -- nothing won, and there is no head update
        if ok tx.used then committed st.head ⟨[], []⟩ else undo diff
      else if ok tx.used = false then undo diff
      else if ok (tx.used + 1) then
        committed (diffHash H fuel ord diff) ⟨tx.res.applied, tx.res.droppedIds⟩
      else undo diff

end InnerStorage
