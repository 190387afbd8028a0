import AnySync.Go.Run
import AnySync.StreamPool.Model

/-!
# The indexes of the stream pool

The lists of stream ids agree with the streams, as long as no two streams have tags in a common
array and no id is given to a second stream.

`Pool.Inv` is the invariant. The loops over the indexes are counted: a list of ids has an id as
often as it was added and not removed.
-/

namespace StreamPool

open Go
open Option (elim_some bind_eq_bind)

namespace Index

theorem ids_insert (m : Index) (l : List ℕ) (key key' : GoString) :
    Index.ids (m.insert key l) key' = if key' = key then l else m.ids key' := by
  rw [ids, GoMap.lookup_insert_eq, ids]
  split <;> rfl

theorem ids_erase (m : Index) (key key' : GoString) :
    Index.ids (m.erase key) key' = if key' = key then [] else m.ids key' := by
  rw [ids, GoMap.lookup_erase_eq, ids]
  split <;> rfl

/-- An id that is added is once more in the list of its key. -/
theorem count_add (m : Index) (key : GoString) (id : ℕ) (key' : GoString) (id' : ℕ) :
    ((m.add key id).ids key').count id' =
      (m.ids key').count id' + if key' = key ∧ id' = id then 1 else 0 := by
  rw [add, ids_insert]
  by_cases hkey : key' = key
  · by_cases hid : id' = id
    · simp [hkey, hid]
    · simp [hkey, hid, Ne.symm hid]
  · simp [hkey]

/-- The loop that adds an id under some keys. -/
theorem count_foldl_add (keys : List GoString) (m : Index) (id : ℕ) (key' : GoString) (id' : ℕ) :
    ((keys.foldl (fun (m : Index) key => m.add key id) m).ids key').count id' =
      (m.ids key').count id' + if id' = id then keys.count key' else 0 := by
  induction keys generalizing m with
  | nil => simp
  | cons key keys ih =>
    rw [List.foldl_cons, ih, count_add, List.count_cons]
    by_cases hid : id' = id
    · by_cases hkey : key' = key
      · simp [hid, hkey]
        omega
      · simp [hid, hkey, Ne.symm hkey]
    · simp [hid]

/-- An id that is in the list of its key can be removed, and is then once less in it. -/
theorem exists_remove (m : Index) (key : GoString) (id : ℕ) (h : 0 < (m.ids key).count id) :
    ∃ m', m.remove key id = some m' ∧ ∀ key' id', (m'.ids key').count id' =
      (m.ids key').count id' - if key' = key ∧ id' = id then 1 else 0 := by
  refine ⟨_, if_pos (List.count_pos_iff.mp h), ?_⟩
  intro key' id'
  have hids : Index.ids (if (m.ids key).erase id = [] then m.erase key
      else m.insert key ((m.ids key).erase id)) key' =
      if key' = key then (m.ids key).erase id else m.ids key' := by
    split
    · next hnil => rw [ids_erase, hnil]
    · rw [ids_insert]
  rw [hids]
  by_cases hkey : key' = key
  · by_cases hid : id' = id
    · simp [hkey, hid, List.count_erase_self]
    · simp [hkey, hid, List.count_erase_of_ne hid]
  · simp [hkey]

/-- The loop that removes an id under some keys does not fail, if it is listed often enough. -/
theorem exists_foldlM_remove (m : Index) (keys : List GoString) (id : ℕ)
    (h : ∀ key, keys.count key ≤ (m.ids key).count id) :
    ∃ m', keys.foldlM (fun (m : Index) key => m.remove key id) m = some m' ∧
      ∀ key' id', (m'.ids key').count id' =
        (m.ids key').count id' - if id' = id then keys.count key' else 0 := by
  induction keys generalizing m with
  | nil => exact ⟨m, rfl, by simp⟩
  | cons key keys ih =>
    have hpos : 0 < (m.ids key).count id := by
      have hle := h key
      rw [List.count_cons_self] at hle
      omega
    obtain ⟨m₁, hm₁, hcount₁⟩ := exists_remove m key id hpos
    -- the other keys are still there often enough
    have hle : ∀ key', keys.count key' ≤ (m₁.ids key').count id := by
      intro key'
      have hle := h key'
      rw [List.count_cons] at hle
      rw [hcount₁]
      by_cases hkey : key' = key
      · simp [hkey] at hle ⊢
        omega
      · simpa [hkey, Ne.symm hkey] using hle
    obtain ⟨m₂, hm₂, hcount₂⟩ := ih m₁ hle
    refine ⟨m₂, by rw [List.foldlM_cons, hm₁]; exact hm₂, ?_⟩
    intro key' id'
    rw [hcount₂, hcount₁, List.count_cons]
    by_cases hid : id' = id
    · by_cases hkey : key' = key
      · simp [hid, hkey]
        omega
      · simp [hid, hkey, Ne.symm hkey]
    · simp [hid]

end Index

namespace Pool

/-- The tags of a stream. -/
def tags (p : Pool) (st : Stream) : List GoString := p.heap.read st.tags

/-- The indexes list every stream of the pool once under its peer, and under a tag as often as it
has it, and no other id. -/
def Consistent (p : Pool) : Prop :=
  ∀ id,
    (∀ peer, (p.streamIdsByPeer.ids peer).count id =
      ((p.stream id).elim 0 fun x => if x.2.peerId = peer then 1 else 0)) ∧
    ∀ tag, (p.streamIdsByTag.ids tag).count id =
      ((p.stream id).elim 0 fun x => (p.tags x.2).count tag)

/-- The stream `k` was made and not removed. -/
def Live (p : Pool) (k : ℕ) (st : Stream) : Prop := p.made[k]? = some st ∧ st.removed = false

/-- The indexes, the streams and their slices agree. -/
structure Inv (p : Pool) : Prop where
  consistent : p.Consistent
  /-- The map has the live streams under their ids. -/
  stream : ∀ id k st, p.stream id = some (k, st) ↔ p.Live k st ∧ st.streamId = id
  bound : ∀ id k, p.streams.lookup id = some k → k < p.made.length
  valid : ∀ k st, p.Live k st → p.heap.Valid st.tags
  apart : ∀ k k' st st', p.Live k st → p.Live k' st' → k ≠ k' → st.tags.Apart st'.tags

/-- What a caller has to do: a new stream gets tags that are apart from those of the other streams,
and an id that is free. -/
def Meets (p : Pool) : Step → Prop
  | .addStream (some _) _ tags =>
    (∀ k st, p.Live k st → st.tags.Apart tags) ∧
      p.streams.lookup ((p.lastStreamId + 1) % 2 ^ 32) = none
  | _ => True

variable {p p' : Pool} {room : ℕ → ℕ}

/-- A stream of the pool is in the map and was made. -/
theorem stream_eq_some {id k : ℕ} {st : Stream} :
    p.stream id = some (k, st) ↔ p.streams.lookup id = some k ∧ p.made[k]? = some st := by
  simp only [Pool.stream, bind_eq_bind, Option.bind_eq_some_iff, Option.pure_def,
    Option.some.injEq, Prod.mk.injEq]
  constructor
  · rintro ⟨k', hk', st', hst', rfl, rfl⟩
    exact ⟨hk', hst'⟩
  · rintro ⟨hk, hst⟩
    exact ⟨k, hk, st, hst, rfl, rfl⟩

/-- An empty pool. -/
theorem inv_new : new.Inv where
  consistent _ := ⟨fun _ => rfl, fun _ => rfl⟩
  stream _ _ _ := by simp [Pool.stream, new, Live]
  bound _ _ h := by simp [new] at h
  valid _ _ h := by simp [Live, new] at h
  apart _ _ _ _ h := by simp [Live, new] at h

/-! ## A change of one stream -/

/-- The stream `k` is made, changed or removed. No other stream has its id. -/
structure Changes (p p' : Pool) (id k : ℕ) (new : Option Stream) : Prop where
  live : ∀ k' s, p'.Live k' s ↔ if k' = k then new = some s else p.Live k' s
  stream : ∀ id', p'.stream id' = if id' = id then new.map (k, ·) else p.stream id'
  only : ∀ k' s, p.Live k' s → (k' = k ↔ s.streamId = id)
  id_eq : ∀ s ∈ new, s.streamId = id
  byPeer : ∀ peer id', (p'.streamIdsByPeer.ids peer).count id' =
    if id' = id then new.elim 0 fun s => if s.peerId = peer then 1 else 0
    else (p.streamIdsByPeer.ids peer).count id'
  byTag : ∀ tag id', (p'.streamIdsByTag.ids tag).count id' =
    if id' = id then new.elim 0 fun s => (p'.tags s).count tag
    else (p.streamIdsByTag.ids tag).count id'
  /-- The slices of the other streams are read as before. -/
  read : ∀ k' s, p.Live k' s → k' ≠ k → p'.heap.read s.tags = p.heap.read s.tags

namespace Changes

variable {id k : ℕ} {new : Option Stream}

/-- The lists agree with the streams after the change. -/
theorem consistent (hc : Changes p p' id k new) (h : p.Inv) : p'.Consistent := by
  intro id'
  rw [hc.stream]
  by_cases heq : id' = id
  · rw [if_pos heq]
    refine ⟨fun peer => ?_, fun tag => ?_⟩
    · rw [hc.byPeer, if_pos heq]
      cases new <;> rfl
    · rw [hc.byTag, if_pos heq]
      cases new <;> rfl
  · rw [if_neg heq]
    obtain ⟨hbyPeer, hbyTag⟩ := h.consistent id'
    refine ⟨fun peer => ((hc.byPeer peer id').trans (if_neg heq)).trans (hbyPeer peer),
      fun tag => ((hc.byTag tag id').trans (if_neg heq)).trans ((hbyTag tag).trans ?_)⟩
    cases hold : p.stream id' with
    | none => rfl
    | some x =>
      obtain ⟨hx, hxid⟩ := (h.stream id' x.1 x.2).mp hold
      have hne : x.1 ≠ k := fun hk => heq (hxid.symm.trans ((hc.only _ _ hx).mp hk))
      simp only [elim_some, tags, hc.read _ _ hx hne]

/-- The map agrees with the live streams after the change. -/
theorem stream_iff (hc : Changes p p' id k new) (h : p.Inv) (id' k' : ℕ) (s : Stream) :
    p'.stream id' = some (k', s) ↔ p'.Live k' s ∧ s.streamId = id' := by
  rw [hc.stream, hc.live]
  by_cases heq : id' = id
  · rw [if_pos heq, Option.map_eq_some_iff]
    constructor
    · rintro ⟨s', hs', hpair⟩
      obtain ⟨rfl, rfl⟩ := Prod.mk.inj hpair
      exact ⟨by rwa [if_pos rfl], (hc.id_eq s' hs').trans heq.symm⟩
    · rintro ⟨hs, hsid⟩
      split at hs
      · next hk => exact ⟨s, hs, Prod.ext hk.symm rfl⟩
      · next hk => exact absurd ((hc.only k' s hs).mpr (hsid.trans heq)) hk
  · rw [if_neg heq, h.stream]
    refine and_congr_left fun hsid => ?_
    split
    · next hk =>
      refine iff_of_false (fun hs => ?_) fun hs => ?_
      · exact heq (hsid.symm.trans ((hc.only k' s hs).mp hk))
      · exact heq (hsid.symm.trans (hc.id_eq s hs))
    · rfl

/-- The invariant is kept if the slice of the stream is apart from the other ones. -/
theorem inv (hc : Changes p p' id k new) (h : p.Inv)
    (hbound : ∀ id' k', p'.streams.lookup id' = some k' → k' < p'.made.length)
    (hvalid : ∀ s ∈ new, p'.heap.Valid s.tags)
    (hothers : ∀ k' s, p.Live k' s → k' ≠ k → p'.heap.Valid s.tags)
    (hapart : ∀ s ∈ new, ∀ k' s', p.Live k' s' → k' ≠ k → s.tags.Apart s'.tags) : p'.Inv where
  consistent := hc.consistent h
  stream := hc.stream_iff h
  bound := hbound
  valid k' s hs := by
    rw [hc.live] at hs
    split at hs
    · exact hvalid s hs
    · next hk => exact hothers k' s hs hk
  apart k₁ k₂ s₁ s₂ hs₁ hs₂ hne := by
    rw [hc.live] at hs₁ hs₂
    -- only one of the two can be the stream that changes
    split at hs₁
    · next hk₁ =>
      have hk₂ : k₂ ≠ k := fun hk₂ => hne (hk₁.trans hk₂.symm)
      rw [if_neg hk₂] at hs₂
      exact hapart s₁ hs₁ k₂ s₂ hs₂ hk₂
    · next hk₁ =>
      split at hs₂
      · exact (hapart s₂ hs₂ k₁ s₁ hs₁ hk₁).symm
      · exact h.apart _ _ _ _ hs₁ hs₂ hne

end Changes

/-- A live stream is the only one with its id. -/
theorem Inv.live_iff (h : p.Inv) {k k' : ℕ} {st s : Stream} (hlive : p.Live k st)
    (hs : p.Live k' s) : k' = k ↔ s.streamId = st.streamId := by
  constructor
  · rintro rfl
    rw [Option.some.inj (hs.1.symm.trans hlive.1)]
  · intro hid
    have hst := (h.stream st.streamId k st).mpr ⟨hlive, rfl⟩
    rw [(h.stream st.streamId k' s).mpr ⟨hs, hid⟩] at hst
    exact (Prod.mk.inj (Option.some.inj hst)).1

/-- The stream `k` becomes `st`. -/
def update (p : Pool) (k : ℕ) (st : Stream) (heap : Heap GoString) (byTag : Index) : Pool :=
  { p with heap := heap, made := p.made.set k st, streamIdsByTag := byTag }

section Update

variable {k : ℕ} {st st' : Stream} {heap : Heap GoString} {byTag : Index}

/-- The live streams after one of them was changed. -/
theorem live_update (hlive : p.Live k st) (hremoved : st'.removed = false) (heap : Heap GoString)
    (byTag : Index) (k' : ℕ) (s : Stream) :
    (p.update k st' heap byTag).Live k' s ↔ if k' = k then some st' = some s else p.Live k' s := by
  have hk : k < p.made.length := (List.getElem?_eq_some_iff.mp hlive.1).1
  rw [Live, update]
  by_cases hkk : k' = k
  · rw [if_pos hkk, hkk, List.getElem?_set_self hk]
    exact and_iff_left_of_imp fun heq => Option.some.inj heq ▸ hremoved
  · rw [if_neg hkk, List.getElem?_set_ne (Ne.symm hkk), Live]

/-- The map after a live stream was changed. -/
theorem Inv.stream_update (h : p.Inv) (hlive : p.Live k st) (heap : Heap GoString) (byTag : Index)
    (id : ℕ) : (p.update k st' heap byTag).stream id =
      if id = st.streamId then some (k, st') else p.stream id := by
  have hk : k < p.made.length := (List.getElem?_eq_some_iff.mp hlive.1).1
  have hlookup := (stream_eq_some.mp ((h.stream st.streamId k st).mpr ⟨hlive, rfl⟩)).1
  by_cases hid : id = st.streamId
  · rw [if_pos hid, stream_eq_some, hid]
    exact ⟨hlookup, List.getElem?_set_self hk⟩
  · rw [if_neg hid]
    -- the number of another id is not `k`
    apply Option.ext
    rintro ⟨k', s⟩
    rw [stream_eq_some, stream_eq_some]
    refine and_congr_right fun hk' => ?_
    have hne : k' ≠ k := by
      rintro rfl
      exact hid ((h.stream id k' st).mp (stream_eq_some.mpr ⟨hk', hlive.1⟩)).2.symm
    rw [update, List.getElem?_set_ne (Ne.symm hne)]

/-- A stream gets other tags or another state, and is listed accordingly. -/
theorem Inv.update (h : p.Inv) (hlive : p.Live k st) (hpeer : st'.peerId = st.peerId)
    (hid : st'.streamId = st.streamId) (hremoved : st'.removed = false)
    (hext : Heap.Extends p.heap st.tags heap st'.tags)
    (hcount : ∀ tag id, (byTag.ids tag).count id =
      if id = st.streamId then (heap.read st'.tags).count tag
      else (p.streamIdsByTag.ids tag).count id) : (p.update k st' heap byTag).Inv := by
  have hread : ∀ k' s, p.Live k' s → k' ≠ k → heap.read s.tags = p.heap.read s.tags :=
    fun k' s hs hne => hext.read_eq _ (h.valid _ _ hs) (h.apart _ _ _ _ hlive hs (Ne.symm hne))
  have hold := (h.stream st.streamId k st).mpr ⟨hlive, rfl⟩
  have hchanges : Changes p (p.update k st' heap byTag) st.streamId k (some st') :=
    { live := live_update hlive hremoved heap byTag
      stream := h.stream_update hlive heap byTag
      only k' s := h.live_iff hlive
      id_eq s hs := Option.some.inj hs ▸ hid
      byPeer peer id := by
        split
        · next heq =>
          rw [Pool.update, (h.consistent id).1, heq, hold, elim_some, elim_some,
            hpeer]
        · rfl
      byTag tag id := hcount tag id
      read := hread }
  refine hchanges.inv h (fun id k' hk' => ?_) (fun s hs => ?_) (fun k' s hs _ => ?_)
    fun s hs k' s' hs' hne => ?_
  · rw [Pool.update, List.length_set]
    exact h.bound id k' hk'
  · exact Option.some.inj hs ▸ hext.valid
  · exact (h.valid k' s hs).mono hext.arrays
  · exact Option.some.inj hs ▸
      hext.apart _ (h.valid _ _ hs') (h.apart _ _ _ _ hlive hs' (Ne.symm hne))

end Update

variable {k : ℕ} {st st' : Stream}

/-- A change that keeps the peer, the id and the tags of a stream. -/
theorem Inv.setState (h : p.Inv) (hlive : p.Live k st) (hpeer : st'.peerId = st.peerId)
    (hid : st'.streamId = st.streamId) (hremoved : st'.removed = false)
    (htags : st'.tags = st.tags) :
    Inv { p with made := p.made.set k st' } := by
  apply h.update hlive hpeer hid hremoved
  · rw [htags]
    exact .refl (h.valid k st hlive)
  · intro tag id
    split
    · next heq =>
      rw [(h.consistent id).2, heq, (h.stream st.streamId k st).mpr ⟨hlive, rfl⟩, htags]
      rfl
    · rfl

/-- The same for any stream that was made; a removed one is not looked at. -/
theorem Inv.setAny (h : p.Inv) (hst : p.made[k]? = some st) (hpeer : st'.peerId = st.peerId)
    (hid : st'.streamId = st.streamId) (hremoved : st'.removed = st.removed)
    (htags : st'.tags = st.tags) : Inv { p with made := p.made.set k st' } := by
  cases hold : st.removed with
  | false => exact h.setState ⟨hst, hold⟩ hpeer hid (hremoved.trans hold) htags
  | true =>
    have hk : k < p.made.length := (List.getElem?_eq_some_iff.mp hst).1
    -- the stream is not in the pool, so no index speaks of it
    have hlive : ∀ k' s, Live { p with made := p.made.set k st' } k' s ↔ p.Live k' s := by
      intro k' s
      rw [Live, Live]
      by_cases hkk : k' = k
      · subst hkk
        rw [List.getElem?_set_self hk, hst]
        constructor
        · rintro ⟨heq, hs⟩
          cases heq
          rw [hremoved, hold] at hs
          cases hs
        · rintro ⟨heq, hs⟩
          cases heq
          rw [hold] at hs
          cases hs
      · rw [List.getElem?_set_ne (Ne.symm hkk)]
    have hstream : ∀ id, Pool.stream { p with made := p.made.set k st' } id = p.stream id := by
      intro id
      apply Option.ext
      rintro ⟨k', s⟩
      rw [stream_eq_some, stream_eq_some]
      refine and_congr_right fun hk' => ?_
      have hne : k' ≠ k := by
        rintro rfl
        have hlive := ((h.stream id k' st).mp (stream_eq_some.mpr ⟨hk', hst⟩)).1
        rw [Live, hold] at hlive
        cases hlive.2
      rw [List.getElem?_set_ne (Ne.symm hne)]
    refine ⟨fun id => ?_, fun id k' s => ?_, fun id k' hk' => ?_, fun k' s hs => ?_,
      fun k₁ k₂ s₁ s₂ hs₁ hs₂ hne => ?_⟩
    · rw [hstream]
      exact h.consistent id
    · rw [hstream, hlive, h.stream]
    · rw [List.length_set]
      exact h.bound id k' hk'
    · exact h.valid k' s ((hlive k' s).mp hs)
    · exact h.apart _ _ _ _ ((hlive _ _).mp hs₁) ((hlive _ _).mp hs₂) hne

/-! ## The calls -/

/-- `AddTagsCtx`. -/
theorem Inv.addTags (h : p.Inv) (room : ℕ → ℕ) (id : ℕ) (tags : Slice) :
    (p.addTags room id tags).Inv := by
  rw [Pool.addTags]
  cases hst : p.stream id with
  | none => exact h
  | some x =>
    obtain ⟨k, st⟩ := x
    obtain ⟨hlive, rfl⟩ := (h.stream id k st).mp hst
    have hloop := Heap.extends_appendLoop room
      (fun heap own tag => decide (tag ∈ heap.read own)) tags (h.valid _ _ hlive)
    dsimp only
    generalize p.heap.appendLoop room _ tags st.tags = r at hloop ⊢
    obtain ⟨heap, own, newTags⟩ := r
    obtain ⟨hext, hread⟩ := hloop
    apply @Inv.update p k st { st with tags := own } heap _ h hlive rfl rfl hlive.2 hext
    intro tag id
    rw [Index.count_foldl_add, (h.consistent id).2]
    split
    · next heq =>
      change _ = (heap.read own).count tag
      rw [heq, hst, hread, List.count_append]
      rfl
    · rfl

/-- `RemoveTagsCtx`. -/
theorem Inv.removeTags (h : p.Inv) (room : ℕ → ℕ) (id : ℕ) (tags : Slice) :
    ∃ p', p.removeTags room id tags = some p' ∧ p'.Inv := by
  rw [Pool.removeTags]
  cases hst : p.stream id with
  | none => exact ⟨p, rfl, h⟩
  | some x =>
    obtain ⟨k, st⟩ := x
    obtain ⟨hlive, rfl⟩ := (h.stream id k st).mp hst
    have hloop := Heap.extends_filterLoop room
      (fun heap tag => decide (tag ∈ heap.read tags)) (h.valid _ _ hlive)
    dsimp only
    generalize p.heap.filterLoop room _ st.tags = r at hloop ⊢
    obtain ⟨heap, own, toRemove⟩ := r
    obtain ⟨hext, hperm⟩ := hloop
    -- what is removed was listed as often
    have hcount : ∀ tag, (p.streamIdsByTag.ids tag).count st.streamId =
        (heap.read own).count tag + toRemove.count tag := by
      intro tag
      rw [(h.consistent st.streamId).2, hst, ← List.count_append]
      exact (List.perm_iff_count.mp hperm tag).symm
    obtain ⟨byTag, hbyTag, hcount'⟩ := Index.exists_foldlM_remove p.streamIdsByTag toRemove
      st.streamId (fun tag => (hcount tag).symm ▸ Nat.le_add_left _ _)
    refine ⟨_, by dsimp only; rw [hbyTag]; rfl, ?_⟩
    apply @Inv.update p k st { st with tags := own } heap _ h hlive rfl rfl hlive.2 hext
    intro tag id
    rw [hcount']
    split
    · next heq => rw [heq, hcount, Nat.add_sub_cancel]
    · rfl

/-- The live streams after one of them was removed. -/
theorem live_without (p : Pool) (k id : ℕ) (byPeer byTag : Index) (k' : ℕ) (s : Stream) :
    (p.without k id byPeer byTag).Live k' s ↔ if k' = k then none = some s else p.Live k' s := by
  rw [Live, without]
  by_cases hk : k' = k
  · subst hk
    rw [if_pos rfl]
    refine iff_of_false (fun hs => ?_) (by simp)
    rw [List.getElem?_modify_eq] at hs
    obtain ⟨st, -, rfl⟩ := Option.map_eq_some_iff.mp hs.1
    cases hs.2
  · dsimp only
    rw [List.getElem?_modify_ne _ _ (Ne.symm hk), if_neg hk, Live]

/-- The map after a live stream was removed. -/
theorem Inv.stream_without (h : p.Inv) (hlive : p.Live k st) (byPeer byTag : Index) (id : ℕ) :
    (p.without k st.streamId byPeer byTag).stream id =
      if id = st.streamId then none else p.stream id := by
  apply Option.ext
  rintro ⟨k', s⟩
  rw [stream_eq_some, without, GoMap.lookup_erase_eq]
  split
  · simp
  · next hid =>
    rw [stream_eq_some]
    refine and_congr_right fun hk' => ?_
    have hne : k' ≠ k := by
      rintro rfl
      exact hid ((h.stream id k' st).mp (stream_eq_some.mpr ⟨hk', hlive.1⟩)).2.symm
    dsimp only
    rw [List.getElem?_modify_ne _ _ (Ne.symm hne)]

/-- A stream that was closed is removed. -/
theorem Inv.removeStream (h : p.Inv) (hlive : p.Live k st) :
    ∃ p', p.removeStream k st.streamId = some p' ∧ p'.Inv := by
  have hst := (h.stream st.streamId k st).mpr ⟨hlive, rfl⟩
  obtain ⟨hbyPeer, hbyTag⟩ := h.consistent st.streamId
  rw [hst] at hbyPeer hbyTag
  obtain ⟨byPeer, hpeer, hpeerCount⟩ :=
    Index.exists_remove p.streamIdsByPeer st.peerId st.streamId (by simp [hbyPeer])
  obtain ⟨byTag, htag, htagCount⟩ := Index.exists_foldlM_remove p.streamIdsByTag
    (p.heap.read st.tags) st.streamId (fun tag => (hbyTag tag).ge)
  have hchanges : Changes p (p.without k st.streamId byPeer byTag) st.streamId k none :=
    { live := live_without p k st.streamId byPeer byTag
      stream := h.stream_without hlive byPeer byTag
      only k' s := h.live_iff hlive
      id_eq s hs := by cases hs
      byPeer peer id := by
        rw [without, hpeerCount]
        by_cases hid : id = st.streamId
        · -- it was listed once, under its peer
          rw [hid, hbyPeer]
          by_cases hp : peer = st.peerId
          · simp [hp]
          · simp [hp, Ne.symm hp]
        · simp [hid]
      byTag tag id := by
        rw [without, htagCount]
        by_cases hid : id = st.streamId
        · rw [hid, hbyTag, if_pos rfl, if_pos rfl]
          exact Nat.sub_self _
        · rw [if_neg hid, if_neg hid, Nat.sub_zero]
      read k' s _ _ := rfl }
  refine ⟨p.without k st.streamId byPeer byTag, ?_, hchanges.inv h (fun id k' hk' => ?_)
    (fun s hs => by cases hs) (fun k' s hs _ => h.valid k' s hs) fun s hs => by cases hs⟩
  · simp only [Pool.removeStream, hst, bind_eq_bind, Option.bind_some, hpeer, htag]
    rfl
  · rw [without, GoMap.lookup_erase_eq] at hk'
    split at hk'
    · cases hk'
    · simpa [without] using h.bound id k' hk'

/-- The stream `st` is added under its id. -/
def added (p : Pool) (st : Stream) (tags : List GoString) : Pool :=
  { p with
    made := p.made ++ [st]
    streams := p.streams.insert st.streamId p.made.length
    lastStreamId := st.streamId
    streamIdsByPeer := p.streamIdsByPeer.add st.peerId st.streamId
    streamIdsByTag :=
      tags.foldl (fun (index : Index) tag => index.add tag st.streamId) p.streamIdsByTag }

section Added

variable {st : Stream}

/-- The live streams after one more was made. -/
theorem live_added (hremoved : st.removed = false) (tags : List GoString) (k : ℕ) (s : Stream) :
    (p.added st tags).Live k s ↔ if k = p.made.length then some st = some s else p.Live k s := by
  rw [Live, Live, added]
  rcases Nat.lt_trichotomy k p.made.length with hk | rfl | hk
  · rw [if_neg hk.ne, List.getElem?_append_left hk]
  · rw [if_pos rfl, List.getElem?_concat_length]
    exact and_iff_left_of_imp fun heq => Option.some.inj heq ▸ hremoved
  · rw [if_neg hk.ne', List.getElem?_eq_none (by simp; omega), List.getElem?_eq_none hk.le]

/-- The map after one more stream was made. -/
theorem Inv.stream_added (h : p.Inv) (tags : List GoString) (id : ℕ) :
    (p.added st tags).stream id =
      if id = st.streamId then some (p.made.length, st) else p.stream id := by
  apply Option.ext
  rintro ⟨k, s⟩
  rw [stream_eq_some, added, GoMap.lookup_insert_eq]
  split
  · simp only [Option.some.injEq, Prod.mk.injEq]
    refine and_congr_right ?_
    rintro rfl
    simp
  · rw [stream_eq_some]
    exact and_congr_right fun hk => by rw [List.getElem?_append_left (h.bound id k hk)]

/-- A stream with a free id and tags of its own is added. -/
theorem Inv.added (h : p.Inv) (st : Stream) (hremoved : st.removed = false)
    (hvalid : p.heap.Valid st.tags) (hapart : ∀ k s, p.Live k s → s.tags.Apart st.tags)
    (hfree : p.streams.lookup st.streamId = none) : (p.added st (p.heap.read st.tags)).Inv := by
  -- no list has the new id yet
  have hnone : p.stream st.streamId = none := by rw [Pool.stream, hfree]; rfl
  obtain ⟨hbyPeer, hbyTag⟩ := h.consistent st.streamId
  rw [hnone] at hbyPeer hbyTag
  have hchanges : Changes p (p.added st (p.heap.read st.tags)) st.streamId p.made.length
      (some st) :=
    { live := live_added hremoved _
      stream := h.stream_added _
      only k s hs := by
        refine iff_of_false (List.getElem?_eq_some_iff.mp hs.1).1.ne fun hid => ?_
        rw [(h.stream st.streamId k s).mpr ⟨hs, hid⟩] at hnone
        cases hnone
      id_eq s hs := by rw [Option.some.inj hs]
      byPeer peer id := by
        rw [Pool.added, Index.count_add]
        by_cases hid : id = st.streamId
        · rw [hid, hbyPeer]
          by_cases hp : peer = st.peerId
          · simp [hp]
          · simp [hp, Ne.symm hp]
        · simp [hid]
      byTag tag id := by
        rw [Pool.added, Index.count_foldl_add]
        by_cases hid : id = st.streamId
        · rw [hid, hbyTag, if_pos rfl, if_pos rfl]
          exact Nat.zero_add _
        · rw [if_neg hid, if_neg hid, Nat.add_zero]
      read k s _ _ := rfl }
  refine hchanges.inv h (fun id k hk => ?_) (fun s hs => Option.some.inj hs ▸ hvalid)
    (fun k s hs _ => h.valid k s hs)
    fun s hs k s' hs' _ => Option.some.inj hs ▸ (hapart k s' hs').symm
  rw [Pool.added, GoMap.lookup_insert_eq] at hk
  rw [Pool.added, List.length_append, List.length_singleton]
  split at hk
  · cases hk
    exact Nat.lt_succ_self _
  · exact (h.bound id k hk).trans (Nat.lt_succ_self _)

end Added

/-- `AddStream`, if the next id is free and the tags are in an array of their own. -/
theorem Inv.addStream (h : p.Inv) (peerId : GoString) {tags : Slice} (queueSize : ℤ)
    (hvalid : p.heap.Valid tags) (hapart : ∀ k st, p.Live k st → st.tags.Apart tags)
    (hfree : p.streams.lookup ((p.lastStreamId + 1) % 2 ^ 32) = none) :
    (p.addStream peerId queueSize tags).Inv :=
  h.added ⟨peerId, (p.lastStreamId + 1) % 2 ^ 32, false, false, _, tags⟩ rfl hvalid hapart hfree

/-! ## Runs -/

/-- A new slice of a caller. -/
theorem Inv.alloc (h : p.Inv) (tags : List GoString) (extra : ℕ) :
    Inv { p with heap := (p.heap.alloc tags [] extra).1 } := by
  -- as seen from a slice outside of the arrays in use
  obtain ⟨hext, -⟩ := Heap.extends_alloc p.heap
      { arr := p.heap.arrays, off := 0, len := 0, cap := 0 }
    tags [] extra
  have hread : ∀ k st, p.Live k st → (p.heap.alloc tags [] extra).1.read st.tags =
      p.heap.read st.tags := fun k st hlive =>
    hext.read_eq _ (h.valid k st hlive) fun harr => absurd harr.symm (h.valid k st hlive).arr.ne
  refine ⟨fun id => ⟨(h.consistent id).1, fun tag => ?_⟩, h.stream, h.bound,
    fun k st hlive => (h.valid k st hlive).mono hext.arrays, h.apart⟩
  refine ((h.consistent id).2 tag).trans ?_
  change _ = (p.stream id).elim 0 _
  cases hst : p.stream id with
  | none => rfl
  | some x =>
    have hlive := ((h.stream id x.1 x.2).mp hst).1
    simp only [elim_some, Pool.tags, hread _ _ hlive]

/-- A step that meets the condition keeps the invariant, and does not end the process. -/
theorem Inv.step (h : p.Inv) (room : ℕ → ℕ) {s : Step} (hok : p.Meets s) :
    p.step room s = .error .impossible ∨ ∃ p', p.step room s = .ok p' ∧ p'.Inv := by
  cases s with
  | alloc tags extra => exact .inr ⟨_, rfl, h.alloc tags extra⟩
  | addStream peerId queueSize tags =>
    by_cases hvalid : tags.arr < p.heap.arrays ∧ tags.len ≤ tags.cap
    · refine .inr ?_
      simp only [Pool.step, hvalid, and_self, if_true]
      cases peerId with
      | none => exact ⟨p, rfl, h⟩
      | some peerId =>
        exact ⟨_, rfl, h.addStream peerId queueSize ⟨hvalid.1, hvalid.2⟩ hok.1 hok.2⟩
    · exact .inl (if_neg hvalid)
  | addTagsCtx id tags =>
    cases id with
    | none => exact .inr ⟨p, rfl, h⟩
    | some id => exact .inr ⟨_, rfl, h.addTags room id tags⟩
  | removeTagsCtx id tags =>
    cases id with
    | none => exact .inr ⟨p, rfl, h⟩
    | some id =>
      obtain ⟨p', hp', hinv⟩ := h.removeTags room id tags
      exact .inr ⟨p', by rw [Pool.step, elim_some, hp', elim_some], hinv⟩
  | removeTagsById id tags =>
    obtain ⟨p', hp', hinv⟩ := h.removeTags room id tags
    exact .inr ⟨p', by rw [Pool.step, hp', elim_some], hinv⟩
  -- steps of the stream itself, which may have left the pool
  | streamClose k =>
    rw [Pool.step]
    split
    · next st hst =>
      split
      · exact .inr ⟨p, rfl, h⟩
      · exact .inr ⟨_, rfl, h.setAny hst rfl rfl rfl rfl⟩
    · exact .inl rfl
  | removeStream k =>
    rw [Pool.step]
    split
    · next st hst =>
      split
      · next hclosed =>
        obtain ⟨p', hp', hinv⟩ := h.removeStream ⟨hst, hclosed.2⟩
        exact .inr ⟨p', by rw [hp', elim_some], hinv⟩
      · exact .inl rfl
    · exact .inl rfl
  | traffic k msgs =>
    rw [Pool.step]
    split
    · next st hst =>
      split
      · exact .inr ⟨_, rfl, h.setAny hst rfl rfl rfl rfl⟩
      · exact .inl rfl
    · exact .inl rfl

/-- The invariant holds after every run whose steps meet the condition. -/
theorem inv_of_run {steps : List Step} (hok : ∀ x ∈ runTrace (step room) new steps, x.1.Meets x.2)
    (hrun : steps.foldlM (step room) new = .ok p) : p.Inv := by
  refine foldlM_invariant_of_trace Inv (fun x => x.1.Meets x.2) ?_ inv_new hok hrun
  intro p s p' h hs hp'
  rcases h.step room hs with himp | ⟨p'', hp'', hinv⟩
  · rw [himp] at hp'
    cases hp'
  · rw [hp''] at hp'
    cases hp'
    exact hinv

/-- In every run in which each new stream gets tags apart from those of the other streams and a free
id, no `log.Fatal` is reached, and the indexes list the streams of the pool exactly. -/
theorem indexes_consistent (room : ℕ → ℕ) (steps : List Step)
    (hok : ∀ x ∈ runTrace (step room) new steps, x.1.Meets x.2) :
    steps.foldlM (step room) new ≠ .error .fatal ∧
      ∀ p, steps.foldlM (step room) new = .ok p → p.Consistent := by
  refine ⟨fun hfatal => ?_, fun p hrun => (inv_of_run hok hrun).consistent⟩
  obtain ⟨before, s, after, p, rfl, hrun, hs⟩ := foldlM_eq_error.mp hfatal
  rw [runTrace_append hrun] at hok
  have hinv : p.Inv := inv_of_run (fun x hx => hok x (List.mem_append_left _ hx)) hrun
  have hmeets : p.Meets s := hok (p, s) (List.mem_append_right _ (by simp [runTrace]))
  rcases hinv.step room hmeets with himp | ⟨p', hp', -⟩
  · rw [himp] at hs
    cases hs
  · rw [hp'] at hs
    cases hs

/-- The tags `a`, `b` as a slice of the array `arr`. -/
def twoTags (arr : ℕ) : Slice := { arr := arr, off := 0, len := 2, cap := 2 }

/-- Two streams with slices of their own: tags of one are removed, and the other is closed. -/
def sampleSteps : List Step :=
  [.alloc [[97], [98]] 0, .addStream (some [1]) 0 (twoTags 0), .alloc [[97], [98]] 0,
    .addStream (some [2]) 0 (twoTags 1), .removeTagsById 1 { twoTags 1 with len := 1 },
    .streamClose 1, .removeStream 1]

theorem sampleSteps_meets :
    ∀ x ∈ runTrace (step fun _ => 0) new sampleSteps, x.1.Meets x.2 := by
  refine List.forall_mem_cons.mpr ⟨trivial, List.forall_mem_cons.mpr ⟨⟨?_, rfl⟩, ?_⟩⟩
  · rintro k st ⟨hst, -⟩
    cases hst
  refine List.forall_mem_cons.mpr ⟨trivial, List.forall_mem_cons.mpr ⟨⟨?_, rfl⟩, ?_⟩⟩
  · -- the one stream has another array
    rintro k st ⟨hst, -⟩ harr
    match k with
    | 0 => cases hst; cases harr
    | k + 1 => cases hst
  refine List.forall_mem_cons.mpr ⟨trivial, List.forall_mem_cons.mpr ⟨trivial, ?_⟩⟩
  exact List.forall_mem_cons.mpr ⟨trivial, fun x hx => nomatch hx⟩

theorem indexes_consistent_sample :
    ∃ p, sampleSteps.foldlM (step fun _ => 0) new = .ok p ∧ p.Consistent :=
  ⟨_, rfl, (indexes_consistent (fun _ => 0) _ sampleSteps_meets).2 _ rfl⟩

/-- Two streams are given the same slice, and a tag of the first is removed: closing the second
ends the process. -/
theorem shared_tags_fatal :
    [Step.alloc [[97], [98]] 0, .addStream (some [1]) 0 (twoTags 0),
      .addStream (some [2]) 0 (twoTags 0), .alloc [[97]] 0,
      .removeTagsById 1 { arr := 1, off := 0, len := 1, cap := 1 }, .streamClose 1,
      .removeStream 1].foldlM (step fun _ => 0) new = .error .fatal := by
  rfl

end Pool

end StreamPool
