import AnySync.Go.Basic
import AnySync.Go.Slice

/-!
# The stream pool

The model of `net/streampool/streampool.go` and `stream.go`: the streams, the lists of their ids by
peer and by tag, and the calls that change them. Each of them runs under `mu`, so a run is a
sequence of steps. A stream is closed in two: `streamClose` swaps its flag, and its pool then
removes it.

The tags of a stream are the slice that the caller gave, with the array of the caller; the room that
`append` makes in a new array is a parameter.
-/

namespace StreamPool

open Go

/-! ## Lists of stream ids -/

/-- `streamIdsByPeer` or `streamIdsByTag`. -/
abbrev Index := GoMap GoString (List ℕ)

namespace Index

/-- The ids under a key. -/
def ids (m : Index) (key : GoString) : List ℕ := (m.lookup key).getD []

/-- An id is appended to the list of a key. -/
def add (m : Index) (key : GoString) (id : ℕ) : Index := m.insert key (m.ids key ++ [id])

/-- The function `removeStream`, which ends the process if the id is not there. -/
def remove (m : Index) (key : GoString) (id : ℕ) : Option Index :=
  if id ∈ m.ids key then
    some (if (m.ids key).erase id = [] then m.erase key else m.insert key ((m.ids key).erase id))
  else none

end Index

/-! ## Streams -/

/-- What is seen of `mb.MB`, the queue of another module. -/
structure Queue where
  size : ℕ
  msgs : ℕ
  closed : Bool
deriving DecidableEq, Repr

/-- `stream`. Streams are never freed here; `removed` says that the pool has removed it. -/
structure Stream where
  peerId : GoString
  streamId : ℕ
  closed : Bool
  removed : Bool
  queue : Queue
  tags : Slice
deriving DecidableEq, Repr

/-- `streamPool`: the streams by id, as numbers of the streams that were made. -/
structure Pool where
  heap : Heap GoString
  made : List Stream
  streams : GoMap ℕ ℕ
  streamIdsByPeer : Index
  streamIdsByTag : Index
  lastStreamId : ℕ

namespace Pool

def new : Pool where
  heap := { cells := fun _ _ => [], arrays := 0 }
  made := []
  streams := ∅
  streamIdsByPeer := ∅
  streamIdsByTag := ∅
  lastStreamId := 0

/-- `s.streams[id]`. -/
def stream (p : Pool) (id : ℕ) : Option (ℕ × Stream) := do
  let k ← p.streams.lookup id
  let st ← p.made[k]?
  pure (k, st)

/-- `addStream`, for a stream with a peer id. -/
def addStream (p : Pool) (peerId : GoString) (queueSize : ℤ) (tags : Slice) : Pool :=
  let id := (p.lastStreamId + 1) % 2 ^ 32
  { p with
    lastStreamId := id
    made := p.made ++ [
      { peerId := peerId, streamId := id, closed := false, removed := false, tags := tags
        queue :=
          { size := if queueSize ≤ 0 then 100 else queueSize.toNat, msgs := 0, closed := false } }]
    streams := p.streams.insert id p.made.length
    streamIdsByPeer := p.streamIdsByPeer.add peerId id
    streamIdsByTag := (p.heap.read tags).foldl (fun m tag => m.add tag id) p.streamIdsByTag }

/-- `AddTagsCtx`, for a stream that is there. -/
def addTags (room : ℕ → ℕ) (p : Pool) (id : ℕ) (tags : Slice) : Pool :=
  match p.stream id with
  | none => p
  | some (k, st) =>
    let (heap, own, newTags) :=
      p.heap.appendLoop room (fun heap own tag => tag ∈ heap.read own) tags st.tags
    { p with
      heap := heap
      made := p.made.set k { st with tags := own }
      streamIdsByTag := newTags.foldl (fun m tag => m.add tag id) p.streamIdsByTag }

/-- `RemoveTagsCtx` and `RemoveTagsById`, for a stream that is there. It fails where the process
ends. -/
def removeTags (room : ℕ → ℕ) (p : Pool) (id : ℕ) (tags : Slice) : Option Pool :=
  match p.stream id with
  | none => some p
  | some (k, st) => do
    let (heap, own, toRemove) :=
      p.heap.filterLoop room (fun heap tag => tag ∈ heap.read tags) st.tags
    let byTag ← toRemove.foldlM (fun (m : Index) tag => m.remove tag id) p.streamIdsByTag
    pure { p with
      heap := heap, made := p.made.set k { st with tags := own }, streamIdsByTag := byTag }

/-- The pool without an id, with the indexes that are left. -/
def without (p : Pool) (k id : ℕ) (byPeer byTag : Index) : Pool :=
  { p with
    streamIdsByPeer := byPeer
    streamIdsByTag := byTag
    streams := p.streams.erase id
    made := p.made.modify k fun st => { st with removed := true } }

/-- The method `removeStream`, called by `streamClose` of the stream `k`. -/
def removeStream (p : Pool) (k id : ℕ) : Option Pool := do
  let (_, st) ← p.stream id
  let byPeer ← p.streamIdsByPeer.remove st.peerId id
  let byTag ← (p.heap.read st.tags).foldlM (fun (m : Index) tag => m.remove tag id) p.streamIdsByTag
  pure (p.without k id byPeer byTag)

end Pool

/-- A step of the pool. -/
inductive Step
  /-- A caller makes a slice of tags, with some capacity left. -/
  | alloc (tags : List GoString) (room : ℕ)
  /-- `AddStream` or `ReadStream`. The peer id is missing if the context has none. -/
  | addStream (peerId : Option GoString) (queueSize : ℤ) (tags : Slice)
  /-- `AddTagsCtx`. The id is missing if the context has none. -/
  | addTagsCtx (streamId : Option ℕ) (tags : Slice)
  | removeTagsCtx (streamId : Option ℕ) (tags : Slice)
  | removeTagsById (streamId : ℕ) (tags : Slice)
  /-- `streamClose` swaps the flag of a stream and closes its queue. -/
  | streamClose (k : ℕ)
  /-- The call of `removeStream` that follows. -/
  | removeStream (k : ℕ)
  /-- Messages are sent to a stream, and its write loop takes some; this many are left. -/
  | traffic (k : ℕ) (msgs : ℕ)

/-- How a run stops: `log.Fatal`, or a step that cannot be taken. -/
inductive Stop
  | fatal
  | impossible
deriving DecidableEq, Repr

namespace Pool

/-- A step; `log.Fatal` ends the process. -/
def step (room : ℕ → ℕ) (p : Pool) : Step → Except Stop Pool
  | .alloc tags extra => .ok { p with heap := (p.heap.alloc tags [] extra).1 }
  | .addStream peerId queueSize tags =>
    if tags.arr < p.heap.arrays ∧ tags.len ≤ tags.cap then
      match peerId with
      | some peerId => .ok (p.addStream peerId queueSize tags)
      | none => .ok p
    else .error .impossible
  | .addTagsCtx id tags => .ok (id.elim p fun id => p.addTags room id tags)
  | .removeTagsCtx id tags =>
    (id.elim (some p) fun id => p.removeTags room id tags).elim (.error .fatal) .ok
  | .removeTagsById id tags => (p.removeTags room id tags).elim (.error .fatal) .ok
  | .streamClose k =>
    match p.made[k]? with
    | some st =>
      if st.closed then .ok p
      else
        .ok { p with
          made := p.made.set k
            { st with closed := true, queue := { st.queue with closed := true } } }
    | none => .error .impossible
  | .removeStream k =>
    match p.made[k]? with
    | some st =>
      if st.closed ∧ st.removed = false then (p.removeStream k st.streamId).elim (.error .fatal) .ok
      else .error .impossible
    | none => .error .impossible
  | .traffic k msgs =>
    match p.made[k]? with
    | some st =>
      if msgs ≤ st.queue.size then
        .ok { p with made := p.made.set k { st with queue := { st.queue with msgs := msgs } } }
      else .error .impossible
    | none => .error .impossible

end Pool

end StreamPool
