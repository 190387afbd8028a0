import AnySync.Go.Basic
import AnySync.Go.Run
import AnySync.Go.Slice

/-!
# Encodings of rpc messages

`proto.go` and `snappy.go` of `net/rpc/encoding`. Both encodings append a message to the buffer of
the caller. The one with compression marshals and decompresses in buffers of a pool that all calls
share, so the buffers are slices of a heap here.

`marshalAppend_iff` says when the bytes of the buffer stay and the message comes back.
-/

namespace RpcEncoding

open Go

/-- A `drpc.Message`: a protobuf message, one that has one (`ProtoMessageGettable`), or neither. -/
inductive Message (M W : Type)
  | proto (m : M)
  | wrapped (w : W)
  | other

/-- What a message is that is to be filled in. -/
inductive Kind
  | proto
  | wrapped
  | other
deriving DecidableEq, Repr

def Message.kind {M W : Type} : Message M W → Kind
  | .proto _ => .proto
  | .wrapped _ => .wrapped
  | .other => .other

/-- The generated code of the messages, and snappy. `Codec.Lawful` is their documented behaviour. -/
structure Codec (M W : Type) where
  /-- `SizeVT`. -/
  sizeVT : M → ℕ
  /-- The bytes that `MarshalToSizedBufferVT` writes. -/
  marshal : M → Bytes
  /-- `UnmarshalVT` into a fresh message. -/
  unmarshal : Bytes → Option M
  /-- `ProtoMessage`. -/
  protoMessage : W → Option M
  /-- `SetProtoMessage` of a fresh message. -/
  setProtoMessage : M → Option W
  /-- The bytes that `snappy.Encode` returns. -/
  encode : Bytes → Bytes
  /-- `snappy.MaxEncodedLen`, if it is not negative. -/
  maxEncodedLen : ℕ → Option ℕ
  /-- `snappy.DecodedLen`. -/
  decodedLen : Bytes → Option ℕ
  /-- The bytes that `snappy.Decode` returns. -/
  decode : Bytes → Option Bytes

/-- Marshalling round-trips, as does the compression of what snappy takes, and the sizes are
right. -/
structure Codec.Lawful {M W : Type} (D : Codec M W) : Prop where
  size : ∀ m, (D.marshal m).length = D.sizeVT m
  unmarshal : ∀ m, D.unmarshal (D.marshal m) = some m
  encode : ∀ bytes n, D.maxEncodedLen bytes.length = some n → (D.encode bytes).length ≤ n
  decode : ∀ bytes, (D.maxEncodedLen bytes.length).isSome → D.decode (D.encode bytes) = some bytes
  decodedLen : ∀ block bytes, D.decode block = some bytes → D.decodedLen block = some bytes.length

/-- The errors of the encodings. -/
inductive EncodingError
  /-- `ErrNotAProtoMessage`. -/
  | notAProtoMessage
  /-- The error of `ProtoMessage` or `SetProtoMessage`. -/
  | wrapped
  /-- The error of `UnmarshalVT`. -/
  | malformed
  /-- An error of snappy. -/
  | corrupt
  /-- A panic: snappy takes no block of that size. -/
  | tooLarge
deriving DecidableEq, Repr

/-- The two encodings. -/
inductive Scheme
  | plain
  | snappy
deriving DecidableEq, Repr

/-- The heap, the pool of `snappyBuf`s and the slices that callers have. -/
structure State where
  heap : Heap UInt8
  pool : List Slice
  held : List Slice

/-- What the runtime decides in a call: which buffer of the pool is taken, if any, and the capacity
of new arrays. -/
structure Choice where
  pick : Option ℕ
  room : ℕ → ℕ

/-- `maxBufSizeToReuse`. -/
def maxBufSizeToReuse : ℕ := 256 * 1024

/-- `snappyBytesPool.Get`. A new buffer is empty. -/
def State.getBuf (s : State) (c : Choice) : State × Slice :=
  match c.pick.bind fun i => s.pool[i]? with
  | some buf => ({ s with pool := s.pool.eraseIdx (c.pick.getD 0) }, buf)
  | none =>
    let (heap, buf) := s.heap.alloc [] 0 0
    ({ s with heap := heap }, buf)

section Calls

variable {M W : Type} (D : Codec M W)

/-- The protobuf message that is marshalled. -/
def Codec.toProto : Message M W → Except EncodingError M
  | .proto m => .ok m
  | .wrapped w =>
    match D.protoMessage w with
    | some m => .ok m
    | none => .error .wrapped
  | .other => .error .notAProtoMessage

/-- A fresh message of the kind with this protobuf message. -/
def Codec.ofProto (m : M) : Kind → Except EncodingError (Message M W)
  | .proto => .ok (.proto m)
  | .wrapped =>
    match D.setProtoMessage m with
    | some w => .ok (.wrapped w)
    | none => .error .wrapped
  | .other => .error .notAProtoMessage

/-- `protobuf.MarshalAppend`. -/
def protobufMarshalAppend (room : ℕ → ℕ) (heap : Heap UInt8) (buf : Slice) (m : M) :
    Heap UInt8 × Slice :=
  let siz := D.sizeVT m
  let offset := buf.len
  let grown := heap.grow room 0 buf (offset + siz)
  let buf := grown.2.upTo (offset + siz)
  (grown.1.fill (buf.dropFirst offset) (D.marshal m), buf)

/-- The buffer that `protoEncoding` appends to: a new one in the place of a large one. -/
def reuse (heap : Heap UInt8) (buf : Slice) (m : M) : Heap UInt8 × Slice :=
  if buf.cap > maxBufSizeToReuse then heap.alloc [] 0 (D.sizeVT m) else (heap, buf)

/-- `MarshalAppend` of `protoEncoding` for a protobuf message. -/
def marshalPlain (s : State) (buf : Slice) (m : M) (c : Choice) : State × Slice :=
  let b := reuse D s.heap buf m
  let res := protobufMarshalAppend D c.room b.1 b.2 m
  ({ s with heap := res.1 }, res.2)

/-- The second part of `MarshalAppend` of `snappyEncoding`: the data are compressed behind the bytes
of the buffer. -/
def compressAppend (room : ℕ → ℕ) (heap : Heap UInt8) (buf msgData : Slice) (maxEncodedLen : ℕ) :
    Heap UInt8 × Slice :=
  let prevLen := buf.len
  let bufSize := maxEncodedLen + prevLen
  let grown := heap.grow room 0 buf bufSize
  let buf := grown.2.upTo bufSize
  let res := D.encode (grown.1.read msgData)
  (grown.1.fill (buf.dropFirst prevLen) res, buf.upTo (prevLen + res.length))

/-- `MarshalAppend` of `snappyEncoding` for a protobuf message. The buffer of the pool is not put
back after a panic. -/
def marshalSnappy (s : State) (buf : Slice) (m : M) (c : Choice) :
    State × Except EncodingError Slice :=
  let taken := s.getBuf c
  let msgData := protobufMarshalAppend D c.room taken.1.heap (taken.2.upTo 0) m
  match D.maxEncodedLen msgData.2.len with
  | none => ({ taken.1 with heap := msgData.1 }, .error .tooLarge)
  | some maxEncodedLen =>
    let res := compressAppend D c.room msgData.1 buf msgData.2 maxEncodedLen
    ({ taken.1 with heap := res.1, pool := taken.1.pool ++ [msgData.2] }, .ok res.2)

/-- `MarshalAppend`. -/
def marshalAppend (enc : Scheme) (s : State) (buf : Slice) (msg : Message M W) (c : Choice) :
    State × Except EncodingError Slice :=
  match D.toProto msg with
  | .error e => (s, .error e)
  | .ok m =>
    match enc with
    | .plain => ((marshalPlain D s buf m c).1, .ok (marshalPlain D s buf m c).2)
    | .snappy => marshalSnappy D s buf m c

/-- `UnmarshalVT` into a fresh message of a kind. -/
def Codec.unmarshalBytes (bytes : Bytes) (kind : Kind) : Except EncodingError (Message M W) :=
  match kind, D.unmarshal bytes with
  | .other, _ => .error .notAProtoMessage
  | _, none => .error .malformed
  | kind, some m => D.ofProto m kind

/-- `Unmarshal` of `snappyEncoding`. A buffer is put back only if the message could be read. -/
def unmarshalSnappy (s : State) (buf : Slice) (kind : Kind) (c : Choice) :
    State × Except EncodingError (Message M W) :=
  match D.decodedLen (s.heap.read buf) with
  | none => (s, .error .corrupt)
  | some decodedLen =>
    let taken := s.getBuf c
    let grown := taken.1.heap.grow c.room 0 taken.2 decodedLen
    let unmarshalBuf := grown.2.upTo decodedLen
    match D.decode (grown.1.read buf) with
    | none => ({ taken.1 with heap := grown.1 }, .error .corrupt)
    | some bytes =>
      let heap := grown.1.fill unmarshalBuf bytes
      match D.unmarshalBytes (heap.read unmarshalBuf) kind with
      | .error e => ({ taken.1 with heap := heap }, .error e)
      | .ok msg => ({ taken.1 with heap := heap, pool := taken.1.pool ++ [unmarshalBuf] }, .ok msg)

/-- `Unmarshal` into a fresh message. -/
def unmarshal (enc : Scheme) (s : State) (buf : Slice) (kind : Kind) (c : Choice) :
    State × Except EncodingError (Message M W) :=
  match enc with
  | .plain => (s, D.unmarshalBytes (s.heap.read buf) kind)
  | .snappy => unmarshalSnappy D s buf kind c

/-- What happens: callers make slices, take parts of them and write into them, and call the
encodings with what they have. -/
inductive Input (M W : Type)
  | make (bytes : Bytes) (room : ℕ)
  | part (s : Slice) (off len cap : ℕ)
  | write (s : Slice) (i : ℕ) (b : UInt8)
  | marshal (enc : Scheme) (buf : Slice) (msg : Message M W) (c : Choice)
  | unmarshal (enc : Scheme) (buf : Slice) (kind : Kind) (c : Choice)

/-- A step of a run. -/
def State.step (s : State) : Input M W → Option State
  | .make bytes room =>
    let (heap, buf) := s.heap.alloc bytes 0 room
    some { s with heap := heap, held := buf :: s.held }
  | .part t off len cap =>
    if t ∈ s.held ∧ off + cap ≤ t.cap ∧ len ≤ cap then
      some { s with held := { t with off := t.off + off, len := len, cap := cap } :: s.held }
    else none
  | .write t i b =>
    if t ∈ s.held ∧ i < t.len then some { s with heap := s.heap.write t.arr (t.off + i) b }
    else none
  | .marshal enc buf msg c =>
    if buf ∈ s.held then
      match marshalAppend D enc s buf msg c with
      | (s, .ok res) => some { s with held := res :: s.held }
      | (s, .error _) => some s
    else none
  | .unmarshal enc buf kind c =>
    if buf ∈ s.held then some (unmarshal D enc s buf kind c).1 else none

/-- A state of a run that starts without buffers. -/
def Reachable (s : State) : Prop :=
  ∃ inputs : List (Input M W),
    inputs.foldlM (State.step D) ⟨⟨fun _ _ => 0, 0⟩, [], []⟩ = some s

/-- The bytes of an encoded message. -/
def Codec.encoding : Scheme → M → Bytes
  | .plain, m => D.marshal m
  | .snappy, m => D.encode (D.marshal m)

/-- The message is appended to the buffer, and whoever reads its bytes gets the message. -/
def Appends (enc : Scheme) (s : State) (buf : Slice) (msg : Message M W) (m : M) (c : Choice) :
    Prop :=
  ∃ res, (marshalAppend D enc s buf msg c).2 = .ok res ∧
    (marshalAppend D enc s buf msg c).1.heap.read res = s.heap.read buf ++ D.encoding enc m ∧
    ∀ t, Reachable D t → ∀ e ∈ t.held, t.heap.read e = D.encoding enc m →
      ∀ c', (unmarshal D enc t e msg.kind c').2 = D.ofProto m msg.kind

/-- The plain encoding does not replace a buffer with bytes, and snappy takes the message. -/
def Fits (enc : Scheme) (buf : Slice) (m : M) : Prop :=
  match enc with
  | .plain => buf.cap ≤ maxBufSizeToReuse ∨ buf.len = 0
  | .snappy => (D.maxEncodedLen (D.sizeVT m)).isSome

end Calls

/-! ## Buffers of the pool and of callers -/

/-- A buffer of the pool reaches no other one and nothing that a caller has. -/
structure State.Ok (s : State) : Prop where
  pool : ∀ b ∈ s.pool, s.heap.Valid b
  held : ∀ t ∈ s.held, s.heap.Valid t
  disjoint : s.pool.Pairwise Slice.Apart
  apart : ∀ b ∈ s.pool, ∀ t ∈ s.held, b.Apart t

/-- A buffer that is taken from the pool, or a new one. -/
structure State.Taken (s : State) (s' : State) (buf : Slice) : Prop where
  ok : s'.Ok
  held_eq : s'.held = s.held
  valid : s'.heap.Valid buf
  apart_pool : ∀ b ∈ s'.pool, buf.Apart b
  apart_held : ∀ t ∈ s'.held, buf.Apart t
  read_eq : ∀ t ∈ s.held, s'.heap.read t = s.heap.read t

theorem State.Ok.getBuf {s : State} (h : s.Ok) (c : Choice) :
    s.Taken (s.getBuf c).1 (s.getBuf c).2 := by
  unfold State.getBuf
  split
  · next buf hbuf =>
    obtain ⟨i, hi, hget⟩ := Option.bind_eq_some_iff.mp hbuf
    have hmem : buf ∈ s.pool := List.mem_of_getElem? hget
    have hsub : ∀ b ∈ s.pool.eraseIdx (c.pick.getD 0), b ∈ s.pool := fun b hb =>
      List.mem_of_mem_eraseIdx hb
    refine
      { ok :=
          { pool := fun b hb => h.pool b (hsub b hb), held := h.held
            disjoint := h.disjoint.sublist (List.eraseIdx_sublist _ _)
            apart := fun b hb => h.apart b (hsub b hb) }
        held_eq := rfl, valid := h.pool buf hmem, apart_pool := ?_
        apart_held := h.apart buf hmem, read_eq := fun _ _ => rfl }
    -- another buffer of the pool is at another position
    intro b hb
    rw [hi, Option.getD_some] at hb
    obtain ⟨j, hne, hj⟩ := List.mem_eraseIdx_iff_getElem?.mp hb
    obtain ⟨hilt, rfl⟩ := List.getElem?_eq_some_iff.mp hget
    obtain ⟨hjlt, rfl⟩ := List.getElem?_eq_some_iff.mp hj
    rcases Nat.lt_or_gt_of_ne hne with hlt | hgt
    · exact (List.pairwise_iff_getElem.mp h.disjoint j i hjlt hilt hlt).symm
    · exact List.pairwise_iff_getElem.mp h.disjoint i j hilt hjlt hgt
  · have hnew := (Heap.extends_alloc s.heap ⟨0, 0, 0, 0⟩ [] 0 0).1
    have hall : ∀ t, s.heap.Valid t → (s.heap.alloc [] 0 0).2.Apart t := fun t ht =>
      hnew.apart t ht (fun _ i _ hi => absurd hi (by simp))
    refine
      { ok :=
          { pool := fun b hb => (h.pool b hb).mono hnew.arrays
            held := fun t ht => (h.held t ht).mono hnew.arrays
            disjoint := h.disjoint, apart := h.apart }
        held_eq := rfl, valid := hnew.valid
        apart_pool := fun b hb => hall b (h.pool b hb)
        apart_held := fun t ht => hall t (h.held t ht)
        read_eq := fun t ht => hnew.read_eq t (h.held t ht) (fun _ i _ hi => absurd hi (by simp)) }

section Effects

variable {M W : Type} {D : Codec M W}

/-- `protobuf.MarshalAppend` appends the bytes of the message. -/
theorem extends_protobufMarshalAppend (hD : D.Lawful) (room : ℕ → ℕ) {heap : Heap UInt8}
    {buf : Slice} (hbuf : heap.Valid buf) (m : M) :
    Heap.Extends heap buf (protobufMarshalAppend D room heap buf m).1
        (protobufMarshalAppend D room heap buf m).2 ∧
      (protobufMarshalAppend D room heap buf m).1.read
        (protobufMarshalAppend D room heap buf m).2 = heap.read buf ++ D.marshal m := by
  obtain ⟨hgrow, hread, hlen, hcap⟩ := Heap.extends_grow room 0 hbuf (buf.len + D.sizeVT m)
  set r := heap.grow room 0 buf (buf.len + D.sizeVT m) with hr
  have hroom : r.2.len + (D.marshal m).length ≤ r.2.cap := by
    rw [hlen, hD.size]
    omega
  obtain ⟨hfill, hread'⟩ := Heap.extends_fill hgrow.valid hroom
  rw [hlen, hD.size, hread] at hread'
  rw [hlen, hD.size] at hfill
  exact ⟨hgrow.trans hfill, hread'⟩

/-- A buffer that was taken goes on to one that is put back. -/
theorem State.Taken.extends {s s' : State} {buf buf' : Slice} {heap : Heap UInt8}
    (h : s.Taken s' buf) (hext : Heap.Extends s'.heap buf heap buf') :
    s.Taken { s' with heap := heap } buf' where
  ok :=
    { pool := fun b hb => (h.ok.pool b hb).mono hext.arrays
      held := fun t ht => (h.ok.held t ht).mono hext.arrays
      disjoint := h.ok.disjoint
      apart := h.ok.apart }
  held_eq := h.held_eq
  valid := hext.valid
  apart_pool b hb := hext.apart b (h.ok.pool b hb) (h.apart_pool b hb)
  apart_held t ht := hext.apart t (h.ok.held t ht) (h.apart_held t ht)
  read_eq t ht := by
    have ht' : t ∈ s'.held := h.held_eq ▸ ht
    rw [← h.read_eq t ht]
    exact hext.read_eq t (h.ok.held t ht') (h.apart_held t ht')

/-- A buffer is put back into the pool. -/
theorem State.Taken.put {s s' : State} {buf : Slice} (h : s.Taken s' buf) :
    State.Ok { s' with pool := s'.pool ++ [buf] } where
  pool b hb := by
    obtain hb | rfl := by simpa using hb
    · exact h.ok.pool b hb
    · exact h.valid
  held := h.ok.held
  disjoint := by
    refine List.pairwise_append.mpr ⟨h.ok.disjoint, List.pairwise_singleton _ _, ?_⟩
    intro b hb b' hb'
    obtain rfl := List.mem_singleton.mp hb'
    exact (h.apart_pool b hb).symm
  apart b hb := by
    obtain hb | rfl := by simpa using hb
    · exact h.ok.apart b hb
    · exact h.apart_held

/-- A slice of a caller goes on to one that the caller gets. -/
theorem State.Ok.extends {s : State} (h : s.Ok) {t t' : Slice} {heap : Heap UInt8}
    (ht : ∀ b ∈ s.pool, t.Apart b) (hext : Heap.Extends s.heap t heap t') :
    State.Ok { s with heap := heap, held := t' :: s.held } where
  pool b hb := (h.pool b hb).mono hext.arrays
  held u hu := by
    obtain rfl | hu := List.mem_cons.mp hu
    · exact hext.valid
    · exact (h.held u hu).mono hext.arrays
  disjoint := h.disjoint
  apart b hb u hu := by
    obtain rfl | hu := List.mem_cons.mp hu
    · exact (hext.apart b (h.pool b hb) (ht b hb)).symm
    · exact h.apart b hb u hu

theorem marshalPlain_spec (hD : D.Lawful) {s : State} (h : s.Ok) {buf : Slice} (hbuf : buf ∈ s.held)
    (m : M) (c : Choice) :
    State.Ok { (marshalPlain D s buf m c).1 with
        held := (marshalPlain D s buf m c).2 :: s.held } ∧
      (marshalPlain D s buf m c).1.heap.read (marshalPlain D s buf m c).2 =
        (if buf.cap > maxBufSizeToReuse then [] else s.heap.read buf) ++ D.marshal m := by
  have hapart : ∀ b ∈ s.pool, buf.Apart b := fun b hb => (h.apart b hb buf hbuf).symm
  have hreuse : Heap.Extends s.heap buf (reuse D s.heap buf m).1 (reuse D s.heap buf m).2 ∧
      (reuse D s.heap buf m).1.read (reuse D s.heap buf m).2 =
        if buf.cap > maxBufSizeToReuse then [] else s.heap.read buf := by
    unfold reuse
    split
    · exact Heap.extends_alloc s.heap buf [] 0 (D.sizeVT m)
    · exact ⟨.refl (h.held buf hbuf), rfl⟩
  obtain ⟨hext, hread⟩ := extends_protobufMarshalAppend hD c.room hreuse.1.valid m
  rw [hreuse.2] at hread
  exact ⟨h.extends hapart (hreuse.1.trans hext), hread⟩

/-- The data are compressed behind the bytes of the buffer, if they do not overlap. -/
theorem extends_compressAppend (room : ℕ → ℕ) {heap : Heap UInt8} {buf msgData : Slice}
    (hbuf : heap.Valid buf) (hdata : heap.Valid msgData) (hapart : buf.Apart msgData)
    {maxEncodedLen : ℕ} (hmax : (D.encode (heap.read msgData)).length ≤ maxEncodedLen) :
    Heap.Extends heap buf (compressAppend D room heap buf msgData maxEncodedLen).1
        (compressAppend D room heap buf msgData maxEncodedLen).2 ∧
      (compressAppend D room heap buf msgData maxEncodedLen).1.read
        (compressAppend D room heap buf msgData maxEncodedLen).2 =
          heap.read buf ++ D.encode (heap.read msgData) := by
  obtain ⟨hgrow, hread, hlen, hcap⟩ := Heap.extends_grow room 0 hbuf (maxEncodedLen + buf.len)
  have hroom : (heap.grow room 0 buf (maxEncodedLen + buf.len)).2.len +
      (D.encode (heap.read msgData)).length ≤
        (heap.grow room 0 buf (maxEncodedLen + buf.len)).2.cap := by omega
  obtain ⟨hfill, hres⟩ := Heap.extends_fill hgrow.valid hroom
  rw [hlen] at hfill hres
  rw [hread] at hres
  unfold compressAppend
  dsimp only
  rw [hgrow.read_eq msgData hdata hapart]
  exact ⟨hgrow.trans hfill, hres⟩

section

variable (hD : D.Lawful)

include hD

theorem marshalSnappy_spec {s : State} (h : s.Ok) {buf : Slice} (hbuf : buf ∈ s.held) (m : M)
    (c : Choice) :
    ((marshalSnappy D s buf m c).2 = .error .tooLarge ∧ D.maxEncodedLen (D.sizeVT m) = none ∧
      (marshalSnappy D s buf m c).1.Ok) ∨
    ∃ res, (marshalSnappy D s buf m c).2 = .ok res ∧ (D.maxEncodedLen (D.sizeVT m)).isSome ∧
      State.Ok { (marshalSnappy D s buf m c).1 with
        held := res :: (marshalSnappy D s buf m c).1.held } ∧
      (marshalSnappy D s buf m c).1.heap.read res =
        s.heap.read buf ++ D.encode (D.marshal m) := by
  have htaken := h.getBuf c
  -- the message is marshalled into the buffer of the pool
  have hempty := Heap.extends_upTo htaken.valid (Nat.zero_le (s.getBuf c).2.cap)
  obtain ⟨hmarshal, hdata⟩ := extends_protobufMarshalAppend hD c.room hempty.valid m
  unfold marshalSnappy
  dsimp only
  generalize protobufMarshalAppend D c.room (s.getBuf c).1.heap ((s.getBuf c).2.upTo 0) m = r
    at hmarshal hdata ⊢
  have hdata : r.1.read r.2 = D.marshal m := hdata
  have hlen : r.2.len = D.sizeVT m := by rw [← hD.size, ← hdata, Heap.length_read]
  have htaken := htaken.extends (hempty.trans hmarshal)
  have hheld : buf ∈ (s.getBuf c).1.held := htaken.held_eq ▸ hbuf
  rw [hlen]
  cases hmax : D.maxEncodedLen (D.sizeVT m) with
  | none => exact .inl ⟨rfl, rfl, htaken.ok⟩
  | some maxEncodedLen =>
    -- and compressed behind the bytes of the caller
    have hapart := (htaken.apart_held buf hheld).symm
    have hfits : (D.encode (r.1.read r.2)).length ≤ maxEncodedLen :=
      hD.encode _ _ (by rw [Heap.length_read, hlen, hmax])
    obtain ⟨hext, hread⟩ := extends_compressAppend c.room (htaken.ok.held buf hheld) htaken.valid
      hapart hfits
    rw [htaken.read_eq buf hbuf, hdata] at hread
    refine .inr ⟨_, rfl, rfl, htaken.put.extends (fun b hb => ?_) hext, hread⟩
    obtain hb | rfl := by simpa using hb
    · exact (htaken.ok.apart b hb buf hheld).symm
    · exact hapart

theorem unmarshalBytes_marshal (m : M) (kind : Kind) :
    D.unmarshalBytes (D.marshal m) kind = D.ofProto m kind := by
  cases kind <;> simp [Codec.unmarshalBytes, hD.unmarshal, Codec.ofProto]

/-- What is decompressed comes from the bytes of the caller, and the pool stays apart. -/
theorem unmarshalSnappy_spec {s : State} (h : s.Ok) {buf : Slice} (hbuf : buf ∈ s.held)
    (kind : Kind) (c : Choice) :
    (unmarshalSnappy D s buf kind c).1.Ok ∧
      (unmarshalSnappy D s buf kind c).1.held = s.held ∧
      ∀ bytes, D.decode (s.heap.read buf) = some bytes →
        (unmarshalSnappy D s buf kind c).2 = D.unmarshalBytes bytes kind := by
  unfold unmarshalSnappy
  cases hlen : D.decodedLen (s.heap.read buf) with
  | none =>
    refine ⟨h, rfl, fun bytes hbytes => ?_⟩
    rw [hD.decodedLen _ _ hbytes] at hlen
    cases hlen
  | some decodedLen =>
    have htaken := h.getBuf c
    obtain ⟨hgrow, -, -, hcap⟩ := Heap.extends_grow c.room 0 htaken.valid decodedLen
    dsimp only
    generalize (s.getBuf c).1.heap.grow c.room 0 (s.getBuf c).2 decodedLen = g at hgrow hcap ⊢
    have hgrown := htaken.extends hgrow
    have hread : g.1.read buf = s.heap.read buf := hgrown.read_eq buf hbuf
    rw [hread]
    cases hdecode : D.decode (s.heap.read buf) with
    | none => exact ⟨hgrown.ok, hgrown.held_eq, fun bytes hbytes => by cases hbytes⟩
    | some bytes =>
      -- the block fills the buffer
      have hbytes : bytes.length = decodedLen :=
        Option.some.inj ((hD.decodedLen _ _ hdecode).symm.trans hlen)
      have hpart := Heap.extends_upTo hgrow.valid (Nat.le_of_add_left_le hcap)
      obtain ⟨hfill, hall⟩ := Heap.extends_fill_all hpart.valid hbytes
      have hfilled := hgrown.extends (hpart.trans hfill)
      dsimp only
      rw [hall]
      have hresult : ∀ bytes', some bytes = some bytes' → D.unmarshalBytes bytes kind =
          D.unmarshalBytes bytes' kind := by
        rintro bytes' heq
        rw [Option.some.inj heq]
      cases hunmarshal : D.unmarshalBytes bytes kind with
      | error e =>
        refine ⟨hfilled.ok, hfilled.held_eq, fun bytes' heq => ?_⟩
        rw [← hresult bytes' heq, hunmarshal]
      | ok msg =>
        refine ⟨hfilled.put, hfilled.held_eq, fun bytes' heq => ?_⟩
        rw [← hresult bytes' heq, hunmarshal]

/-! ## Runs -/

theorem State.Ok.marshalAppend {s : State} (h : s.Ok) {enc : Scheme} {buf : Slice}
    (hbuf : buf ∈ s.held) (msg : Message M W) (c : Choice) :
    match marshalAppend D enc s buf msg c with
    | (s', .ok res) => State.Ok { s' with held := res :: s'.held }
    | (s', .error _) => s'.Ok := by
  unfold RpcEncoding.marshalAppend
  cases D.toProto msg with
  | error e => exact h
  | ok m =>
    cases enc with
    | plain => exact (marshalPlain_spec hD h hbuf m c).1
    | snappy =>
      dsimp only
      generalize hr : marshalSnappy D s buf m c = r
      obtain ⟨herror, -, hok⟩ | ⟨res, hres, -, hok, -⟩ := marshalSnappy_spec hD h hbuf m c
      · rw [hr] at herror hok
        obtain ⟨s', result⟩ := r
        obtain rfl : result = .error .tooLarge := herror
        exact hok
      · rw [hr] at hres hok
        obtain ⟨s', result⟩ := r
        obtain rfl : result = .ok res := hres
        exact hok

theorem State.Ok.unmarshal {s : State} (h : s.Ok) {enc : Scheme} {buf : Slice} (hbuf : buf ∈ s.held)
    (kind : Kind) (c : Choice) : (unmarshal D enc s buf kind c).1.Ok := by
  cases enc with
  | plain => exact h
  | snappy => exact (unmarshalSnappy_spec hD h hbuf kind c).1

/-- Every step keeps the buffers of the pool apart from what callers have. -/
theorem State.Ok.step {s s' : State} (h : s.Ok) {input : Input M W}
    (hstep : s.step D input = some s') : s'.Ok := by
  cases input with
  | make bytes room =>
    obtain rfl := Option.some.inj hstep
    have hnew := (Heap.extends_alloc s.heap ⟨0, 0, 0, 0⟩ bytes 0 room).1
    exact h.extends (fun b _ _ i _ hi => absurd hi (by simp)) hnew
  | part t off len cap =>
    rw [State.step] at hstep
    split at hstep
    · next hin =>
      obtain rfl := Option.some.inj hstep
      obtain ⟨ht, hcap, hlen⟩ := hin
      have hvalid := h.held t ht
      refine h.extends (fun b hb => (h.apart b hb t ht).symm) ⟨⟨hvalid.arr, hlen⟩, le_rfl, ?_, ?_⟩
      · exact fun _ _ _ => rfl
      · -- a part of a slice reaches less
        intro u _ hapart harr i hoff hi hu
        exact hapart harr i (Nat.le_of_add_right_le hoff) (by dsimp only at hi; omega) hu
    · cases hstep
  | write t i b =>
    rw [State.step] at hstep
    split at hstep
    · obtain rfl := Option.some.inj hstep
      exact ⟨fun b hb => ⟨(h.pool b hb).arr, (h.pool b hb).len⟩,
        fun u hu => ⟨(h.held u hu).arr, (h.held u hu).len⟩, h.disjoint, h.apart⟩
    · cases hstep
  | marshal enc buf msg c =>
    rw [State.step] at hstep
    split at hstep
    · next hbuf =>
      have hok := @State.Ok.marshalAppend M W D hD s h enc buf hbuf msg c
      generalize RpcEncoding.marshalAppend D enc s buf msg c = r at hstep hok
      obtain ⟨s₁, _ | res⟩ := r
      · obtain rfl := Option.some.inj hstep
        exact hok
      · obtain rfl := Option.some.inj hstep
        exact hok
    · cases hstep
  | unmarshal enc buf kind c =>
    rw [State.step] at hstep
    split at hstep
    · next hbuf =>
      obtain rfl := Option.some.inj hstep
      exact h.unmarshal hD hbuf kind c
    · cases hstep

theorem Reachable.ok {s : State} (h : Reachable D s) : s.Ok := by
  obtain ⟨inputs, hrun⟩ := h
  refine foldlM_some_invariant State.Ok (fun s input _ s' hs hstep => hs.step hD hstep) ?_ hrun
  exact ⟨by simp, by simp, List.Pairwise.nil, by simp⟩

/-- Whoever reads the bytes of an encoded message gets the message. -/
theorem unmarshal_encoding {t : State} (ht : t.Ok) {enc : Scheme} {e : Slice} (he : e ∈ t.held)
    {m : M} (hmax : enc = .snappy → (D.maxEncodedLen (D.sizeVT m)).isSome)
    (hread : t.heap.read e = D.encoding enc m) (kind : Kind) (c : Choice) :
    (unmarshal D enc t e kind c).2 = D.ofProto m kind := by
  cases enc with
  | plain =>
    show D.unmarshalBytes (t.heap.read e) kind = _
    rw [hread]
    exact unmarshalBytes_marshal hD m kind
  | snappy =>
    have hdecode : D.decode (t.heap.read e) = some (D.marshal m) := by
      rw [hread]
      exact hD.decode _ (hD.size m ▸ hmax rfl)
    show (unmarshalSnappy D t e kind c).2 = _
    rw [(unmarshalSnappy_spec hD ht he kind c).2.2 _ hdecode, unmarshalBytes_marshal hD]

end

/-- In every run the message is appended and comes back iff the plain encoding does not get a large
buffer with bytes in it, or snappy takes a message of that size. -/
theorem marshalAppend_iff (hD : D.Lawful) (s : State) (hs : Reachable D s) (enc : Scheme)
    (buf : Slice) (hbuf : buf ∈ s.held) (msg : Message M W) (m : M) (hm : D.toProto msg = .ok m)
    (c : Choice) : Appends D enc s buf msg m c ↔ Fits D enc buf m := by
  have hok := hs.ok hD
  have hback : (enc = .snappy → (D.maxEncodedLen (D.sizeVT m)).isSome) →
      ∀ t, Reachable D t → ∀ e ∈ t.held, t.heap.read e = D.encoding enc m →
      ∀ c', (unmarshal D enc t e msg.kind c').2 = D.ofProto m msg.kind := by
    intro hmax t ht e he hread c'
    exact unmarshal_encoding hD (ht.ok hD) he hmax hread msg.kind c'
  unfold Appends marshalAppend
  rw [hm]
  cases enc with
  | plain =>
    obtain ⟨-, hread⟩ := marshalPlain_spec hD hok hbuf m c
    constructor
    · rintro ⟨res, hres, hread', -⟩
      obtain rfl := Except.ok.inj hres
      -- both are the bytes of the result
      have hsame := hread.symm.trans hread'
      by_contra hfits
      obtain ⟨hcap, hlen⟩ : ¬ buf.cap ≤ maxBufSizeToReuse ∧ ¬ buf.len = 0 := not_or.mp hfits
      rw [if_pos (not_le.mp hcap), List.nil_append] at hsame
      have hlength := congrArg List.length hsame
      simp only [Codec.encoding, List.length_append, Heap.length_read] at hlength
      omega
    · intro hfits
      refine ⟨_, rfl, hread.trans ?_, hback Scheme.noConfusion⟩
      split
      · next hcap =>
        have hlen : buf.len = 0 := hfits.resolve_left (not_le.mpr hcap)
        rw [List.eq_nil_of_length_eq_zero ((Heap.length_read).trans hlen)]
        rfl
      · rfl
  | snappy =>
    obtain ⟨herror, hmax, -⟩ | ⟨res, hres, hmax, -, hread⟩ := marshalSnappy_spec hD hok hbuf m c
    · constructor
      · rintro ⟨res, hres, -⟩
        cases herror.symm.trans hres
      · intro hfits
        rw [Fits, hmax] at hfits
        cases hfits
    · exact ⟨fun _ => hmax, fun _ => ⟨res, hres, hread, hback fun _ => hmax⟩⟩

end Effects

namespace EncodingSample

/-- The block of snappy for up to 16 bytes: their number, and one literal. -/
def literal (bytes : Bytes) : Bytes :=
  if bytes = [] then [0]
  else UInt8.ofNat bytes.length :: UInt8.ofNat (4 * (bytes.length - 1)) :: bytes

/-- Messages are their bytes, and snappy is used for up to 16 of them. -/
def codec : Codec Bytes Empty where
  sizeVT := List.length
  marshal := id
  unmarshal := some
  protoMessage w := nomatch w
  setProtoMessage _ := none
  encode := literal
  maxEncodedLen n := if n ≤ 16 then some (32 + n + n / 6) else none
  decodedLen block := block.head?.map UInt8.toNat
  decode block :=
    if (block.drop 2).length ≤ 16 ∧ block = literal (block.drop 2) then some (block.drop 2)
    else none

theorem drop_literal (bytes : Bytes) : (literal bytes).drop 2 = bytes := by
  unfold literal
  split_ifs with hnil
  · rw [hnil]
    rfl
  · rfl

theorem length_literal (bytes : Bytes) : (literal bytes).length ≤ 2 + bytes.length := by
  unfold literal
  split_ifs <;> simp only [List.length_cons, List.length_nil] <;> omega

theorem lawful : codec.Lawful where
  size _ := rfl
  unmarshal _ := rfl
  encode bytes n h := by
    have hlen := length_literal bytes
    simp only [codec, Option.ite_none_right_eq_some, Option.some.injEq] at h ⊢
    omega
  decode bytes h := by
    simp only [codec, Option.isSome_ite] at h
    simp only [codec, drop_literal]
    exact if_pos ⟨h, trivial⟩
  decodedLen block bytes h := by
    simp only [codec, Option.ite_none_right_eq_some, Option.some.injEq] at h
    obtain ⟨⟨hlen, hblock⟩, rfl⟩ := h
    rw [hblock, drop_literal]
    generalize block.drop 2 = bytes at hlen
    simp only [codec, literal]
    split_ifs with hnil
    · rw [hnil]
      rfl
    · rw [List.head?_cons, Option.map_some, UInt8.toNat_ofNat_of_lt' (hlen.trans_lt (by decide))]

def choice : Choice := ⟨none, fun _ => 0⟩

/-- A caller makes a buffer with one byte and some more capacity. -/
def buffer (room : ℕ) : State :=
  let r := Heap.alloc ⟨fun _ _ => 0, 0⟩ [7] 0 room
  ⟨r.1, [], [r.2]⟩

def slice (room : ℕ) : Slice := ⟨0, 0, 1, 1 + room⟩

theorem reachable (room : ℕ) : Reachable codec (buffer room) := ⟨[.make [7] room], rfl⟩

end EncodingSample

open EncodingSample in
/-- A message is appended to a small buffer by both encodings. -/
theorem marshalAppend_sample :
    Appends codec .plain (buffer 3) (slice 3) (.proto [5]) [5] choice ∧
      Appends codec .snappy (buffer 3) (slice 3) (.proto [5]) [5] choice := by
  refine ⟨?_, ?_⟩
  · exact (marshalAppend_iff lawful _ (reachable 3) .plain (slice 3) (List.mem_singleton.mpr rfl)
      _ _ rfl choice).mpr (.inl (by decide))
  · exact (marshalAppend_iff lawful _ (reachable 3) .snappy (slice 3) (List.mem_singleton.mpr rfl)
      _ _ rfl choice).mpr rfl

open EncodingSample in
/-- The plain encoding drops the byte of a buffer with a large capacity. -/
theorem marshalAppend_drops_bytes :
    Reachable codec (buffer maxBufSizeToReuse) ∧
      slice maxBufSizeToReuse ∈ (buffer maxBufSizeToReuse).held ∧
      (buffer maxBufSizeToReuse).heap.read (slice maxBufSizeToReuse) = [7] ∧
      ∃ res, (marshalAppend codec .plain (buffer maxBufSizeToReuse) (slice maxBufSizeToReuse)
          (.proto [5]) choice).2 = .ok res ∧
        (marshalAppend codec .plain (buffer maxBufSizeToReuse) (slice maxBufSizeToReuse)
          (.proto [5]) choice).1.heap.read res = [5] := by
  refine ⟨reachable _, List.mem_singleton.mpr rfl, by decide, _, rfl, by decide +kernel⟩

end RpcEncoding
