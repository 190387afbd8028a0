import AnySync.StreamPool.Consistent

/-!
# Deliveries of the stream pool

`Broadcast` and `SendById` of `net/streampool/streampool.go` on a pool whose indexes are consistent.
A delivery is the number of the stream whose queue takes a copy. The queue is of another module
(`mb.MB`): its `TryAdd` is a parameter, and what it does is assumed.

`Pool.delivers_exactly_iff` says when each stream gets its copies.
-/

namespace StreamPool

/-- What is assumed of `TryAdd` of the queue: a queue that is closed or full refuses the message,
and any other takes it. -/
structure TryAddSpec (tryAdd : Queue → Option Queue) : Prop where
  closed : ∀ q, q.closed = true → tryAdd q = none
  full : ∀ q, q.size ≤ q.msgs → tryAdd q = none
  takes : ∀ q, q.closed = false → q.msgs < q.size → tryAdd q = some { q with msgs := q.msgs + 1 }

/-- How many messages a queue takes. -/
def Queue.free (q : Queue) : ℕ := if q.closed then 0 else q.size - q.msgs

variable (tryAdd : Queue → Option Queue)

/-- `write` of a stream: whether its queue takes the message. -/
def write (made : List Stream) (k : ℕ) : List Stream × Bool :=
  match made[k]? with
  | none => (made, false)
  | some st =>
    match tryAdd st.queue with
    | some q => (made.set k { st with queue := q }, true)
    | none => (made, false)

/-- A message is written to some streams; the ones that take it. -/
def writeAll (made : List Stream) : List ℕ → List Stream × List ℕ
  | [] => (made, [])
  | k :: ks =>
    let (made, ok) := write tryAdd made k
    let (made, delivered) := writeAll made ks
    (made, if ok then k :: delivered else delivered)

/-- A message is written to the streams of some peers, up to the first that takes it. -/
def writeFirst (made : List Stream) : List ℕ → List Stream × List ℕ
  | [] => (made, [])
  | k :: ks =>
    let (made, ok) := write tryAdd made k
    if ok then (made, [k]) else writeFirst made ks

namespace Pool

/-- The stream ids that `Broadcast` collects. It leaves out those it has seen if there are several
tags. -/
def broadcastIds (p : Pool) (tags : List GoString) : List ℕ :=
  let ids := tags.flatMap p.streamIdsByTag.ids
  if 1 < tags.length then ids.foldl (fun seen id => if id ∈ seen then seen else seen ++ [id]) []
  else ids

/-- `s.streams[streamId]` for some ids. A stream that is missing is a nil pointer. -/
def numbers (p : Pool) (ids : List ℕ) : Option (List ℕ) :=
  ids.mapM fun id => (p.stream id).map Prod.fst

/-- `Broadcast`. -/
def broadcast (p : Pool) (tags : List GoString) : Option (Pool × List ℕ) := do
  let ks ← p.numbers (p.broadcastIds tags)
  let (made, delivered) := writeAll tryAdd p.made ks
  pure ({ p with made := made }, delivered)

/-- `SendById`, with whether it returns `ErrUnableToConnect`. The streams of all the peers are in
one list here, as the loop over them ends with the first write that succeeds. -/
def sendById (p : Pool) (peerIds : List GoString) : Option (Pool × List ℕ × Bool) := do
  let ks ← p.numbers (peerIds.flatMap p.streamIdsByPeer.ids)
  let (made, delivered) := writeFirst tryAdd p.made ks
  pure ({ p with made := made }, delivered, ks.isEmpty)

end Pool

/-! ## Writing -/

/-- The room in the queue of a stream. -/
def room (made : List Stream) (k : ℕ) : ℕ := (made[k]?).elim 0 fun st => st.queue.free

variable {tryAdd}

section

variable (h : TryAddSpec tryAdd)

include h

/-- A queue without room refuses a message, and otherwise a place is taken. -/
theorem TryAddSpec.cases (q : Queue) :
    (tryAdd q = none ∧ q.free = 0) ∨ ∃ q', tryAdd q = some q' ∧ q'.free + 1 = q.free := by
  cases hclosed : q.closed with
  | true => exact .inl ⟨h.closed q hclosed, by rw [Queue.free, hclosed, if_pos rfl]⟩
  | false =>
    rcases Nat.lt_or_ge q.msgs q.size with hroom | hfull
    · refine .inr ⟨_, h.takes q hclosed hroom, ?_⟩
      simp only [Queue.free, hclosed, Bool.false_eq_true, if_false]
      omega
    · refine .inl ⟨h.full q hfull, ?_⟩
      rw [Queue.free, hclosed, if_neg Bool.false_ne_true, Nat.sub_eq_zero_of_le hfull]

/-- A queue takes a message if there is room. -/
theorem TryAddSpec.isSome_iff (q : Queue) : (tryAdd q).isSome ↔ 0 < q.free := by
  rcases h.cases q with ⟨hadd, hfree⟩ | ⟨q', hadd, hfree⟩
  · simp [hadd, hfree]
  · simp [hadd, ← hfree]

/-- The same for the queue of a stream: the other streams keep their room. -/
theorem TryAddSpec.write_cases (made : List Stream) (k : ℕ) :
    (write tryAdd made k = (made, false) ∧ room made k = 0) ∨
      ∃ made', write tryAdd made k = (made', true) ∧ 0 < room made k ∧
        ∀ k', room made' k' = room made k' - if k' = k then 1 else 0 := by
  rw [write, room]
  cases hst : made[k]? with
  | none => exact .inl ⟨rfl, rfl⟩
  | some st =>
    rcases h.cases st.queue with ⟨hadd, hfree⟩ | ⟨q, hadd, hfree⟩
    · exact .inl ⟨by simp only [hadd], hfree⟩
    · refine .inr ⟨_, by simp only [hadd]; rfl, ?_, fun k' => ?_⟩
      · rw [Option.elim_some]
        omega
      · rw [room, room]
        by_cases hk : k' = k
        · subst hk
          rw [List.getElem?_set_self (List.getElem?_eq_some_iff.mp hst).1, hst, if_pos rfl]
          simp only [Option.elim_some]
          omega
        · rw [List.getElem?_set_ne (Ne.symm hk), if_neg hk, Nat.sub_zero]

/-- A stream gets as many copies as it is in the list, as far as its queue has room. -/
theorem TryAddSpec.count_writeAll (made : List Stream) (ks : List ℕ) (k : ℕ) :
    (writeAll tryAdd made ks).2.count k = min (ks.count k) (room made k) := by
  induction ks generalizing made with
  | nil => simp [writeAll]
  | cons k' ks ih =>
    rw [writeAll, List.count_cons]
    rcases h.write_cases made k' with ⟨hw, hzero⟩ | ⟨made', hw, hpos, hroom⟩
    · -- no copy is taken: either the stream is another one, or it has no room
      simp only [hw, Bool.false_eq_true, if_false, ih]
      by_cases hk : k' = k
      · subst hk
        simp [hzero]
      · simp [hk]
    · simp only [hw, if_true, List.count_cons, ih, hroom]
      by_cases hk : k' = k
      · subst hk
        simp
        omega
      · simp [hk, Ne.symm hk]

/-- The first stream that has room gets the message. -/
theorem TryAddSpec.writeFirst_eq (made : List Stream) (ks : List ℕ) :
    (writeFirst tryAdd made ks).2 = (ks.find? fun k => 0 < room made k).toList := by
  induction ks with
  | nil => rfl
  | cons k ks ih =>
    rw [writeFirst]
    rcases h.write_cases made k with ⟨hw, hzero⟩ | ⟨made', hw, hpos, -⟩
    · simp [hw, hzero, ih]
    · simp [hw, hpos]

end

/-! ## The streams that are written to -/

/-- The ids that were not seen before. -/
theorem count_foldl_seen (ids seen : List ℕ) (hseen : seen.Nodup) (id : ℕ) :
    (ids.foldl (fun seen id => if id ∈ seen then seen else seen ++ [id]) seen).count id =
      if id ∈ seen ∨ id ∈ ids then 1 else 0 := by
  induction ids generalizing seen with
  | nil => simp [hseen.count]
  | cons id' ids ih =>
    rw [List.foldl_cons]
    split
    · next hmem =>
      rw [ih seen hseen]
      by_cases hid : id = id'
      · simp [hid, hmem]
      · simp [hid]
    · next hmem =>
      rw [ih _ (by rw [← List.concat_eq_append]; exact hseen.concat hmem)]
      by_cases hid : id = id'
      · simp [hid]
      · simp [hid]

namespace Pool

variable {p : Pool}
variable {k id : ℕ} {st : Stream} {tags : List GoString}

/-- The streams of ids that are listed. -/
theorem exists_numbers (h : p.Inv) {ids : List ℕ} (hids : ∀ id ∈ ids, p.stream id ≠ none) :
    ∃ ks, p.numbers ids = some ks ∧ (∀ k ∈ ks, ∃ st, p.Live k st) ∧
      ∀ k st, p.Live k st → ks.count k = ids.count st.streamId := by
  induction ids with
  | nil => exact ⟨[], rfl, by simp, by simp⟩
  | cons id ids ih =>
    obtain ⟨ks, hks, hlive, hcount⟩ := ih fun id' hid' => hids id' (List.mem_cons_of_mem _ hid')
    obtain ⟨⟨k, st⟩, hst⟩ := Option.ne_none_iff_exists'.mp (hids id List.mem_cons_self)
    obtain ⟨hk, hid⟩ := (h.stream id k st).mp hst
    refine ⟨k :: ks, ?_, ?_, ?_⟩
    · rw [numbers, List.mapM_cons, hst]
      change (p.numbers ids >>= _) = _
      rw [hks]
      rfl
    · intro k' hk'
      rcases List.mem_cons.mp hk' with rfl | hk'
      · exact ⟨st, hk⟩
      · exact hlive k' hk'
    · intro k' st' hk'
      rw [List.count_cons, List.count_cons, hcount k' st' hk']
      -- a live stream is known by its id
      have hiff : k = k' ↔ id = st'.streamId := by
        constructor
        · rintro rfl
          rw [← hid, Option.some.inj (hk.1.symm.trans hk'.1)]
        · intro heq
          have h₁ := (h.stream id k' st').mpr ⟨hk', heq.symm⟩
          rw [hst] at h₁
          exact congrArg Prod.fst (Option.some.inj h₁)
      simp only [beq_iff_eq, hiff]

/-- A live stream is under a tag as often as the tag is among its tags. -/
theorem Inv.count_tag (h : p.Inv) (hlive : p.Live k st) (tag : GoString) :
    (p.streamIdsByTag.ids tag).count st.streamId = (p.tags st).count tag := by
  rw [(h.consistent _).2, (h.stream _ k st).mpr ⟨hlive, rfl⟩]
  rfl

/-- An id that is listed under a tag or a peer is in the map. -/
theorem Inv.stream_ne_none (h : p.Inv) {key : GoString}
    (hid : id ∈ p.streamIdsByTag.ids key ∨ id ∈ p.streamIdsByPeer.ids key) :
    p.stream id ≠ none := by
  intro hnone
  obtain ⟨hpeer, htag⟩ := h.consistent id
  rw [hnone] at hpeer htag
  rcases hid with hid | hid
  · exact (List.count_pos_iff.mpr hid).ne' (htag key)
  · exact (List.count_pos_iff.mpr hid).ne' (hpeer key)

/-! ## Broadcast -/

/-- How often a stream is found under some tags. -/
def found (p : Pool) (tags : List GoString) (st : Stream) : ℕ :=
  (tags.map fun tag => (p.tags st).count tag).sum

/-- The copies of a message that `Broadcast` writes to a stream. -/
def copies (p : Pool) (tags : List GoString) (st : Stream) : ℕ :=
  if 1 < tags.length then min (p.found tags st) 1 else p.found tags st

/-- A stream is found by a call if one of its tags is among those of the call. -/
theorem found_pos :
    0 < p.found tags st ↔ ∃ tag ∈ tags, tag ∈ p.tags st := by
  simp [found, List.sum_pos_iff_exists_pos_nat, List.count_pos_iff]

/-- The number of times that `Broadcast` finds a live stream. -/
theorem Inv.count_broadcastIds (h : p.Inv) (hlive : p.Live k st) (tags : List GoString) :
    (p.broadcastIds tags).count st.streamId = p.copies tags st := by
  have hfound : (tags.flatMap p.streamIdsByTag.ids).count st.streamId = p.found tags st := by
    rw [List.count_flatMap, found]
    exact congrArg List.sum (List.map_congr_left fun tag _ => h.count_tag hlive tag)
  rw [broadcastIds, copies]
  split
  · have hmem := List.count_pos_iff.symm.trans (by rw [hfound])
    rw [count_foldl_seen _ _ List.nodup_nil]
    simp only [List.not_mem_nil, false_or, hmem]
    split <;> omega
  · exact hfound

/-- What `Broadcast` is for: each open stream that has one of the tags gets one copy, and no other
stream gets any. -/
def BroadcastExact (p : Pool) (tags : List GoString) (delivered : List ℕ) : Prop :=
  (∀ k ∈ delivered, ∃ st, p.Live k st) ∧
    ∀ k st, p.Live k st → delivered.count k =
      if st.queue.closed = false ∧ ∃ tag ∈ tags, tag ∈ p.tags st then 1 else 0

/-- The room of a live stream is the room in its queue. -/
theorem room_of_live (hlive : p.Live k st) : StreamPool.room p.made k = st.queue.free := by
  rw [StreamPool.room, hlive.1, Option.elim_some]

/-- Why a stream that has one of the tags gets one copy: its queue has room, and the stream is found
once, or it is found more often and the queue refuses the second copy. -/
def GetsOne (p : Pool) (tags : List GoString) (st : Stream) : Prop :=
  st.queue.msgs < st.queue.size ∧
    (1 < tags.length ∨ (∀ tag ∈ tags, (p.tags st).count tag = 1) ∨
      st.queue.msgs + 1 = st.queue.size)

/-- The copies that an open stream is found for, as far as it has room. -/
theorem getsOne_iff (hopen : st.queue.closed = false) (htag : ∃ tag ∈ tags, tag ∈ p.tags st) :
    p.GetsOne tags st ↔ min (p.copies tags st) st.queue.free = 1 := by
  have hpos : 0 < p.found tags st := found_pos.mpr htag
  have hfree : st.queue.free = st.queue.size - st.queue.msgs := by
    rw [Queue.free, hopen, if_neg Bool.false_ne_true]
  rw [GetsOne, copies, hfree]
  by_cases hseveral : 1 < tags.length
  · rw [if_pos hseveral]
    simp only [hseveral, true_or, and_true]
    omega
  · -- the one tag is found as often as the stream has it
    obtain ⟨tag, hmem, -⟩ := htag
    obtain ⟨tag', rfl⟩ := List.length_eq_one_iff.mp
      (Nat.le_antisymm (Nat.not_lt.mp hseveral) (List.length_pos_of_mem hmem))
    have hfound : p.found [tag'] st = (p.tags st).count tag' := by simp [found]
    rw [hfound] at hpos ⊢
    simp only [List.length_singleton, Nat.lt_irrefl, false_or, if_false, List.mem_singleton,
      forall_eq]
    omega

/-- The ids that `Broadcast` collects are ids of the pool. -/
theorem Inv.stream_ne_none_of_broadcastIds (h : p.Inv) (hid : id ∈ p.broadcastIds tags) :
    p.stream id ≠ none := by
  have hmem : id ∈ tags.flatMap p.streamIdsByTag.ids := by
    rw [broadcastIds] at hid
    split at hid
    · rw [← List.count_pos_iff, count_foldl_seen _ _ List.nodup_nil] at hid
      simp only [List.not_mem_nil, false_or] at hid
      by_contra hmem
      simp [hmem] at hid
    · exact hid
  obtain ⟨tag, -, htag⟩ := List.mem_flatMap.mp hmem
  exact h.stream_ne_none (.inl htag)

/-- A stream that is closed or has none of the tags gets no copy. -/
theorem min_copies_eq_zero (hnot : ¬ (st.queue.closed = false ∧ ∃ tag ∈ tags, tag ∈ p.tags st)) :
    min (p.copies tags st) st.queue.free = 0 := by
  cases hclosed : st.queue.closed with
  | true => rw [Queue.free, if_pos hclosed, Nat.min_zero]
  | false =>
    have hzero : ¬ 0 < p.found tags st := fun hpos => hnot ⟨hclosed, found_pos.mp hpos⟩
    have hle : p.copies tags st ≤ p.found tags st := by
      rw [copies]
      split <;> omega
    omega

/-- `Broadcast` delivers the copies that the queues have room for, and this is exact if and only if
each open stream with one of the tags has room, and is found once or has room for just one. -/
theorem Inv.broadcast (h : p.Inv) (hqueue : TryAddSpec tryAdd) (tags : List GoString) :
    ∃ p' delivered, p.broadcast tryAdd tags = some (p', delivered) ∧
      (p.BroadcastExact tags delivered ↔ ∀ k st, p.Live k st → st.queue.closed = false →
        (∃ tag ∈ tags, tag ∈ p.tags st) → p.GetsOne tags st) := by
  obtain ⟨ks, hks, hlive, hcount⟩ := exists_numbers h
    fun id (hid : id ∈ p.broadcastIds tags) => h.stream_ne_none_of_broadcastIds hid
  refine ⟨_, _, by rw [Pool.broadcast, hks]; rfl, ?_⟩
  have hdelivered : ∀ k st, p.Live k st →
      (writeAll tryAdd p.made ks).2.count k = min (p.copies tags st) st.queue.free := by
    intro k st hk
    rw [hqueue.count_writeAll, hcount k st hk, h.count_broadcastIds hk, room_of_live hk]
  constructor
  · rintro ⟨-, hexact⟩ k st hk hopen htag
    rw [getsOne_iff hopen htag, ← hdelivered k st hk, hexact k st hk, if_pos ⟨hopen, htag⟩]
  · refine fun hone => ⟨fun k hk => hlive k ?_, fun k st hk => ?_⟩
    · have hpos := List.count_pos_iff.mpr hk
      rw [hqueue.count_writeAll] at hpos
      exact List.count_pos_iff.mp (by omega)
    · rw [hdelivered k st hk]
      split
      · next hsome => exact (getsOne_iff hsome.1 hsome.2).mp (hone k st hk hsome.1 hsome.2)
      · next hnot => exact min_copies_eq_zero hnot

/-! ## Messages to peers -/

variable (tryAdd) in
/-- A stream of the peer takes a message. -/
def Accepts (p : Pool) (peer : GoString) : Prop :=
  ∃ k st, p.Live k st ∧ st.peerId = peer ∧ (tryAdd st.queue).isSome

/-- How many of the streams that got a message are of the peer. -/
def deliveredTo (p : Pool) (peer : GoString) (delivered : List ℕ) : ℕ :=
  delivered.countP fun k => (p.made[k]?).elim false fun st => st.peerId = peer

variable (tryAdd) in
/-- What `SendById` is for: each peer of the list that has a stream which takes the message gets one
copy, and no other peer gets any. -/
def SendExact (p : Pool) (peerIds : List GoString) (delivered : List ℕ) : Prop :=
  ∀ peer, (peer ∈ peerIds ∧ p.Accepts tryAdd peer → p.deliveredTo peer delivered = 1) ∧
    (¬ (peer ∈ peerIds ∧ p.Accepts tryAdd peer) → p.deliveredTo peer delivered = 0)

/-- The streams of a peer are the live streams with its id. -/
theorem Inv.mem_byPeer (h : p.Inv) (hlive : p.Live k st) {peer : GoString} :
    st.streamId ∈ p.streamIdsByPeer.ids peer ↔ st.peerId = peer := by
  rw [← List.count_pos_iff, (h.consistent _).1, (h.stream _ k st).mpr ⟨hlive, rfl⟩,
    Option.elim_some]
  split <;> simp_all

/-- `SendById` delivers one message at most, and this is exact if and only if no two peers of the
list have streams that take it. -/
theorem Inv.sendById (h : p.Inv) (hqueue : TryAddSpec tryAdd) (peerIds : List GoString) :
    ∃ p' delivered failed, p.sendById tryAdd peerIds = some (p', delivered, failed) ∧
      (p.SendExact tryAdd peerIds delivered ↔ ∀ peer ∈ peerIds, ∀ peer' ∈ peerIds,
        p.Accepts tryAdd peer → p.Accepts tryAdd peer' → peer = peer') := by
  have hids : ∀ id ∈ peerIds.flatMap p.streamIdsByPeer.ids, p.stream id ≠ none := by
    intro id hid
    obtain ⟨peer, -, hpeer⟩ := List.mem_flatMap.mp hid
    exact h.stream_ne_none (.inr hpeer)
  obtain ⟨ks, hks, hlive, hcount⟩ := exists_numbers h hids
  refine ⟨_, _, _, by rw [Pool.sendById, hks]; rfl, ?_⟩
  have hmem : ∀ k st, p.Live k st → (k ∈ ks ↔ st.peerId ∈ peerIds) := by
    intro k st hk
    rw [← List.count_pos_iff, hcount k st hk, List.count_pos_iff, List.mem_flatMap]
    simp [h.mem_byPeer hk]
  rw [hqueue.writeFirst_eq]
  cases hfind : ks.find? fun k => 0 < StreamPool.room p.made k with
  | none =>
    -- no stream of the peers takes the message
    have hnone : ∀ peer ∈ peerIds, ¬ p.Accepts tryAdd peer := by
      rintro peer hpeer ⟨k, st, hk, rfl, htakes⟩
      have hroom := List.find?_eq_none.mp hfind k ((hmem k st hk).mpr hpeer)
      rw [room_of_live hk, decide_eq_true_eq, ← hqueue.isSome_iff] at hroom
      exact hroom htakes
    constructor
    · intro _ peer hpeer _ _ hacc
      exact absurd hacc (hnone peer hpeer)
    · exact fun _ peer => ⟨fun hacc => absurd hacc.2 (hnone peer hacc.1), fun _ => rfl⟩
  | some k =>
    obtain ⟨st, hk⟩ := hlive k (List.mem_of_find?_eq_some hfind)
    have hst : st.peerId ∈ peerIds := (hmem k st hk).mp (List.mem_of_find?_eq_some hfind)
    have hacc : p.Accepts tryAdd st.peerId := by
      refine ⟨k, st, hk, rfl, ?_⟩
      have hroom := List.find?_some hfind
      rwa [room_of_live hk, decide_eq_true_eq, ← hqueue.isSome_iff] at hroom
    have hto : ∀ peer, p.deliveredTo peer [k] = if st.peerId = peer then 1 else 0 := by
      intro peer
      rw [deliveredTo, List.countP_singleton, hk.1]
      simp
    rw [Option.toList_some]
    constructor
    · intro hexact
      -- the peers that accept are the one that got the message
      have heq : ∀ peer ∈ peerIds, p.Accepts tryAdd peer → st.peerId = peer := by
        intro peer hpeer hpacc
        have hone := (hexact peer).1 ⟨hpeer, hpacc⟩
        rw [hto] at hone
        by_contra hne
        rw [if_neg hne] at hone
        cases hone
      exact fun peer hpeer peer' hpeer' ha ha' =>
        (heq peer hpeer ha).symm.trans (heq peer' hpeer' ha')
    · intro hall peer
      rw [hto]
      refine ⟨fun hp => if_pos (hall _ hst _ hp.1 hacc hp.2), fun hp => if_neg ?_⟩
      rintro rfl
      exact hp ⟨hst, hacc⟩

/-- In a state that is reached by a run in which each new stream gets tags apart from those of the
other streams and a free id, neither call meets a stream that is missing. `Broadcast` is exact if
and only if the queue of each open stream with one of the tags has room, and several tags are given
or the stream has the tag once or there is room for just one. `SendById` is exact if and only if no
two peers of the list have streams that take the message. -/
theorem delivers_exactly_iff (hqueue : TryAddSpec tryAdd) (room : ℕ → ℕ) (steps : List Step)
    (hok : ∀ x ∈ runTrace (step room) new steps, x.1.Meets x.2)
    (hrun : steps.foldlM (step room) new = .ok p) :
    (∀ tags, ∃ p' delivered, p.broadcast tryAdd tags = some (p', delivered) ∧
      (p.BroadcastExact tags delivered ↔ ∀ k st, p.Live k st → st.queue.closed = false →
        (∃ tag ∈ tags, tag ∈ p.tags st) → p.GetsOne tags st)) ∧
    ∀ peerIds, ∃ p' delivered failed, p.sendById tryAdd peerIds = some (p', delivered, failed) ∧
      (p.SendExact tryAdd peerIds delivered ↔ ∀ peer ∈ peerIds, ∀ peer' ∈ peerIds,
        p.Accepts tryAdd peer → p.Accepts tryAdd peer' → peer = peer') :=
  ⟨(inv_of_run hok hrun).broadcast hqueue, (inv_of_run hok hrun).sendById hqueue⟩

/-- A queue as it is assumed. -/
def sampleTryAdd (q : Queue) : Option Queue :=
  if q.closed = false ∧ q.msgs < q.size then some { q with msgs := q.msgs + 1 } else none

/-- The queue of the examples is as it is assumed to be. -/
theorem sampleTryAdd_spec : TryAddSpec sampleTryAdd where
  closed q hq := if_neg fun h => by simp [h.1] at hq
  full q hq := if_neg fun h => absurd h.2 (Nat.not_lt.mpr hq)
  takes q hopen hroom := if_pos ⟨hopen, hroom⟩

/-- The stream of the peer `1` has the tag `b`, and its queue is full; the one of the peer `2` has
the tags `a` and `b`. -/
def twoStreams : List Step := sampleSteps.take 5 ++ [.traffic 0 100]

theorem twoStreams_meets : ∀ x ∈ runTrace (step fun _ => 0) new twoStreams, x.1.Meets x.2 := by
  have hmeets := sampleSteps_meets
  rw [← List.take_append_drop 5 sampleSteps, runTrace_append rfl] at hmeets
  rw [twoStreams, runTrace_append rfl]
  intro x hx
  rcases List.mem_append.mp hx with hx | hx
  · exact hmeets x (List.mem_append_left _ hx)
  · rw [List.mem_singleton.mp hx]
    trivial

/-- Of the two streams one has the tag `a`, and of the two peers one takes the message. -/
theorem delivers_exactly_sample :
    ∃ p p' p'' failed,
      twoStreams.foldlM (step fun _ => 0) new = .ok p ∧
      p.broadcast sampleTryAdd [[97]] = some (p', [1]) ∧ p.BroadcastExact [[97]] [1] ∧
      p.sendById sampleTryAdd [[1], [2]] = some (p'', [1], failed) ∧
      p.SendExact sampleTryAdd [[1], [2]] [1] := by
  obtain ⟨hbroadcast, hsend⟩ :=
    delivers_exactly_iff sampleTryAdd_spec (fun _ => 0) twoStreams twoStreams_meets rfl
  obtain ⟨p', delivered, hp', hiff⟩ := hbroadcast [[97]]
  obtain ⟨p'', delivered', failed, hp'', hiff'⟩ := hsend [[1], [2]]
  cases hp'
  cases hp''
  refine ⟨_, _, _, _, rfl, rfl, hiff.mpr ?_, rfl, hiff'.mpr ?_⟩
  · rintro k st ⟨hst, -⟩ - htag
    match k with
    | 0 => cases hst; exact absurd htag (by decide)
    | 1 => cases hst; exact ⟨by decide, .inr (.inl (by decide))⟩
    | k + 2 => cases hst
  · -- the queue of the peer `1` is full
    rintro peer - peer' - ⟨k, st, ⟨hst, -⟩, rfl, htakes⟩ ⟨k', st', ⟨hst', -⟩, rfl, htakes'⟩
    match k, k' with
    | 0, _ => cases hst; cases htakes
    | 1, 0 => cases hst'; cases htakes'
    | 1, 1 => cases hst; cases hst'; rfl
    | 1, k' + 2 => cases hst'
    | k + 2, _ => cases hst

/-- A stream that has the tag `a` twice gets two copies, and of two peers the second gets none. -/
theorem repeated_tag_twice_second_peer_missed :
    ∃ p p' p'' failed,
      [Step.alloc [[97], [97]] 0, .addStream (some [1]) 0 (twoTags 0), .alloc [[97], [98]] 0,
        .addStream (some [2]) 0 (twoTags 1)].foldlM (step fun _ => 0) new = .ok p ∧
      p.broadcast sampleTryAdd [[97]] = some (p', [0, 0, 1]) ∧
      ¬ p.BroadcastExact [[97]] [0, 0, 1] ∧
      p.sendById sampleTryAdd [[1], [2]] = some (p'', [0], failed) ∧
      ¬ p.SendExact sampleTryAdd [[1], [2]] [0] := by
  refine ⟨_, _, _, _, rfl, rfl, ?_, rfl, ?_⟩
  · rintro ⟨-, hexact⟩
    exact absurd (hexact 0 _ ⟨rfl, rfl⟩) (by decide)
  · intro hexact
    exact absurd ((hexact [2]).1 ⟨by decide, 1, _, ⟨rfl, rfl⟩, rfl, by decide⟩) (by decide)

end Pool

end StreamPool
