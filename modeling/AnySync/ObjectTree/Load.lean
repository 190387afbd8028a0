import AnySync.Graph.Search
import AnySync.ObjectTree.Object

/-!
# The load iterator

`loaditerator.go`: the changes that a peer does not have are read from the storage and sent in
batches.

The main result is `load_sends_missing`.
-/

namespace ObjectTree

open Relation.ReflTransGen (head_induction_on)

/-- `RawTreeChangeWithId`, as it is sent. -/
structure RawTreeChangeWithId where
  id : GoString
  rawChange : Bytes
deriving DecidableEq, Repr

/-- The raw changes in the storage, and the decoder. -/
structure RawChanges where
  /-- The field `RawChange` of the stored change with an id. -/
  raw : GoString → Bytes
  /-- `UnmarshallReduced`: the previous ids, or an error. -/
  unmarshallReduced : RawTreeChangeWithId → Option (List GoString)

/-- The raw change that is sent for a stored one. -/
def RawChanges.rawOf (R : RawChanges) (c : Change) : RawTreeChangeWithId := ⟨c.id, R.raw c.id⟩

/-- `rawCacheEntry`. -/
structure CacheEntry where
  /-- `PreviousIds` of the change. -/
  previousIds : List GoString
  size : ℕ
deriving DecidableEq, Repr

/-- `IteratorBatch`. -/
structure IteratorBatch where
  batch : List RawTreeChangeWithId
  heads : List GoString
  snapshotPath : List GoString
  root : RawTreeChangeWithId
deriving DecidableEq, Repr

/-- `loadIterator`. -/
structure LoadIterator where
  cache : GoMap GoString CacheEntry
  /-- The ids of the entries that have `removed` set. -/
  removed : List GoString
  heads : List GoString
  lastHeads : List GoString
  snapshotPath : List GoString
  orderId : GoString
  root : RawTreeChangeWithId
  isExhausted : Bool

namespace LoadIterator

/-- `newLoadIterator`. -/
def new (root : RawTreeChangeWithId) (snapshotPath : List GoString) : LoadIterator where
  cache := ∅
  removed := []
  heads := []
  lastHeads := []
  snapshotPath := snapshotPath
  orderId := []
  root := root
  isExhausted := false

/-- The previous ids of a change in the cache. -/
def previousIds (cache : GoMap GoString CacheEntry) (id : GoString) : List GoString :=
  match cache.lookup id with
  | some entry => entry.previousIds
  | none => []

/-- The first loop of `load`. -/
def fillCache (R : RawChanges) (cache : GoMap GoString CacheEntry) (c : Change) :
    Except Stop (GoMap GoString CacheEntry) :=
  match R.unmarshallReduced (R.rawOf c) with
  | some previousIds => .ok (cache.insert c.id ⟨previousIds, (R.raw c.id).length⟩)
  | none => .error .badRawChange

/-- `load`. The last of the heads is on top of the stack. The marks of the changes that the peer has
are the ids `removed`. -/
def load (l : LoadIterator) (st : Storage) (R : RawChanges) (commonSnapshot : GoString)
    (heads breakpoints : List GoString) : Except Stop LoadIterator := do
  let cs ← st.get commonSnapshot
  let cache ← (st.getAfterOrder cs.orderId).foldlM (fillCache R) l.cache
  let isCached := fun id => (cache.lookup id).isSome
  let existingBreakpoints := breakpoints.filter isCached
  let fuel := Graph.weight (previousIds cache) cache.keys [] + existingBreakpoints.length
  match Graph.search (previousIds cache) isCached fuel [] existingBreakpoints.reverse with
  | some removed =>
    .ok { l with
      cache := cache
      removed := removed
      heads := heads
      orderId := cs.orderId
      lastHeads := [cs.id] }
  | none => .error .endless

/-- What `NextBatch` changes while it iterates. -/
structure Scan where
  orderId : GoString
  isExhausted : Bool
  curSize : ℤ
  batch : List RawTreeChangeWithId
  heads : List GoString

/-- The heads of the batch after one more change. -/
def addHead (heads : List GoString) (c : Change) : List GoString :=
  let heads := heads.filter (· ∉ c.previousIds)
  if c.id ∈ heads then heads else heads ++ [c.id]

/-- The iteration of `NextBatch`. -/
def scan (l : LoadIterator) (R : RawChanges) (maxSize : ℤ) : List Change → Scan → Scan
  | [], s => s
  | c :: changes, s =>
    let s := { s with orderId := c.orderId }
    match l.cache.lookup c.id with
    | none => l.scan R maxSize changes s
    | some rawEntry =>
      if c.id ∈ l.removed then
        l.scan R maxSize changes { s with heads := addHead s.heads c }
      else if maxSize ≤ s.curSize + rawEntry.size ∧ s.batch ≠ [] then
        { s with isExhausted := false }
      else
        l.scan R maxSize changes
          { s with
            curSize := s.curSize + rawEntry.size
            batch := s.batch ++ [R.rawOf c]
            heads := addHead s.heads c }

/-- `NextBatch`. The next one starts at the change that did not fit. -/
def nextBatch (l : LoadIterator) (st : Storage) (R : RawChanges) (maxSize : ℤ) :
    IteratorBatch × LoadIterator :=
  if l.isExhausted then
    ({ batch := [], heads := [], snapshotPath := l.snapshotPath, root := l.root }, l)
  else
    let s := l.scan R maxSize (st.getAfterOrder l.orderId)
      { orderId := l.orderId, isExhausted := true, curSize := 0, batch := [], heads := [] }
    ({ batch := s.batch, heads := s.heads, snapshotPath := l.snapshotPath, root := l.root },
      { l with orderId := s.orderId, isExhausted := s.isExhausted, lastHeads := s.heads })

variable (l : LoadIterator) (st : Storage) (R : RawChanges) (sizes : ℕ → ℤ)

/-- The iterator after so many calls of `NextBatch`. -/
def after : ℕ → LoadIterator
  | 0 => l
  | n + 1 => ((after n).nextBatch st R (sizes n)).2

/-- The changes in a batch. -/
def batchAt (n : ℕ) : List RawTreeChangeWithId :=
  ((l.after st R sizes n).nextBatch st R (sizes n)).1.batch

/-- The changes in the first batches. -/
def sent (n : ℕ) : List RawTreeChangeWithId := (List.range n).flatMap (l.batchAt st R sizes)

/-- The batch is empty and the iterator is exhausted. -/
def EndsAt (n : ℕ) : Prop :=
  l.batchAt st R sizes n = [] ∧ (l.after st R sizes (n + 1)).isExhausted = true

end LoadIterator

/-! ## The order of the storage -/

namespace Storage

/-- The order ids put the stored changes into a topological order. -/
structure Topological (st : Storage) : Prop where
  /-- Changes are stored under their ids. -/
  id_eq : ∀ id c, st.changes.lookup id = some c → c.id = id
  orderId_inj : ∀ a b c d, st.changes.lookup a = some c → st.changes.lookup b = some d →
    c.orderId = d.orderId → a = b
  previous_lt : ∀ id c, st.changes.lookup id = some c → ∀ pid ∈ c.previousIds, ∀ p,
    st.changes.lookup pid = some p → p.orderId < c.orderId

/-- The raw changes decode to the stored previous ids. -/
def Decodes (st : Storage) (R : RawChanges) : Prop :=
  ∀ id c, st.changes.lookup id = some c →
    ∃ previousIds, R.unmarshallReduced ⟨id, R.raw id⟩ = some previousIds ∧
      ∀ pid, pid ∈ previousIds ↔ pid ∈ c.previousIds

/-- The previous ids of a stored change. -/
def previousIds (st : Storage) (id : GoString) : List GoString :=
  match st.changes.lookup id with
  | some c => c.previousIds
  | none => []

/-- The change is stored at or after an order id. -/
def StoredFrom (st : Storage) (orderId : GoString) (id : GoString) : Prop :=
  ∃ c, st.changes.lookup id = some c ∧ orderId ≤ c.orderId

namespace Topological

variable {st : Storage} {orderId : GoString} {c : Change} (ht : st.Topological)

include ht

/-- The iteration has the stored changes from an order id on. -/
theorem mem_getAfterOrder :
    c ∈ st.getAfterOrder orderId ↔ st.changes.lookup c.id = some c ∧ orderId ≤ c.orderId := by
  rw [getAfterOrder, (List.perm_insertionSort _ _).mem_iff, List.mem_filter, List.mem_map]
  constructor
  · rintro ⟨⟨⟨id, c'⟩, he, rfl⟩, hle⟩
    have hlookup := GoMap.lookup_eq_some_iff.mpr he
    exact ⟨(ht.id_eq id c' hlookup).symm ▸ hlookup, of_decide_eq_true hle⟩
  · rintro ⟨hlookup, hle⟩
    exact ⟨⟨⟨c.id, c⟩, GoMap.lookup_eq_some_iff.mp hlookup, rfl⟩, decide_eq_true hle⟩

/-- It goes through them in their order. -/
theorem pairwise_getAfterOrder (orderId : GoString) :
    (st.getAfterOrder orderId).Pairwise (·.orderId < ·.orderId) := by
  have hne : (st.getAfterOrder orderId).Pairwise (·.orderId ≠ ·.orderId) := by
    have hentries : (st.changes.entries.map Sigma.snd).Pairwise (·.orderId ≠ ·.orderId) := by
      rw [List.pairwise_map]
      have hkeys := List.pairwise_map.mp st.changes.nodupKeys
      refine hkeys.imp_of_mem fun {a b} ha hb hab heq => hab ?_
      exact ht.orderId_inj a.1 b.1 a.2 b.2 (GoMap.lookup_eq_some_iff.mpr ha)
        (GoMap.lookup_eq_some_iff.mpr hb) heq
    refine (List.Perm.pairwise_iff (fun h => h.symm) (List.perm_insertionSort _ _)).mpr ?_
    exact hentries.filter _
  have hle : (st.getAfterOrder orderId).Pairwise (·.orderId ≤ ·.orderId) :=
    List.pairwise_insertionSort _ _
  exact (hle.and hne).imp fun h => lt_of_le_of_ne h.1 h.2

/-- From one of the changes on, the storage iterates over it and what follows it. -/
theorem getAfterOrder_of_split {pre post : List Change}
    (hsplit : st.getAfterOrder orderId = pre ++ c :: post) :
    st.getAfterOrder c.orderId = c :: post := by
  have hsorted := ht.pairwise_getAfterOrder orderId
  have hmem : ∀ d, d ∈ pre ++ c :: post ↔ _ := fun d => hsplit ▸ ht.mem_getAfterOrder
  rw [hsplit] at hsorted
  obtain ⟨-, htail, hbefore⟩ := List.pairwise_append.mp hsorted
  have hhead := (List.pairwise_cons.mp htail).1
  have hc := (hmem c).mp (List.mem_append_right _ List.mem_cons_self)
  refine List.Perm.eq_of_pairwise (fun a b _ _ hab hba => absurd hab hba.asymm)
    (ht.pairwise_getAfterOrder c.orderId) htail ?_
  have hnodup : ∀ {l : List Change}, l.Pairwise (·.orderId < ·.orderId) → l.Nodup :=
    fun h => h.imp fun {a b} hab heq => absurd (heq ▸ hab) (lt_irrefl _)
  refine (List.perm_ext_iff_of_nodup (hnodup (ht.pairwise_getAfterOrder c.orderId))
    (hnodup htail)).mpr fun d => ?_
  rw [ht.mem_getAfterOrder]
  constructor
  · rintro ⟨hd, hle⟩
    rcases List.mem_append.mp ((hmem d).mpr ⟨hd, hc.2.trans hle⟩) with hpre | htail
    · exact absurd (hbefore d hpre c List.mem_cons_self) (not_lt_of_ge hle)
    · exact htail
  · intro hd
    refine ⟨((hmem d).mp (List.mem_append_right _ hd)).1, ?_⟩
    rcases List.mem_cons.mp hd with rfl | hd
    · exact le_rfl
    · exact (hhead d hd).le

end Topological

end Storage

/-! ## Batches -/

namespace LoadIterator

variable {l : LoadIterator} {st : Storage} {R : RawChanges} {sizes : ℕ → ℤ}
variable {c : Change} {changes : List Change} {orderId a b : GoString}

/-- The change is cached and not marked. -/
def sends (l : LoadIterator) (c : Change) : Bool :=
  (l.cache.lookup c.id).isSome && decide (c.id ∉ l.removed)

/-- The raw changes that are sent for a list of changes. -/
def toSend (l : LoadIterator) (R : RawChanges) (changes : List Change) : List RawTreeChangeWithId :=
  (changes.filter l.sends).map R.rawOf

theorem toSend_cons_of_pos (hsends : l.sends c = true) :
    l.toSend R (c :: changes) = R.rawOf c :: l.toSend R changes := by
  rw [toSend, List.filter_cons_of_pos hsends, List.map_cons, toSend]

theorem toSend_cons_of_neg (hsends : l.sends c = false) :
    l.toSend R (c :: changes) = l.toSend R changes := by
  rw [toSend, List.filter_cons_of_neg (by simp [hsends]), toSend]

theorem toSend_append {changes' : List Change} :
    l.toSend R (changes ++ changes') = l.toSend R changes ++ l.toSend R changes' := by
  rw [toSend, List.filter_append, List.map_append, toSend, toSend]

/-- The iteration came to the end of the list, or it stopped at a change that is left for the next
batch. -/
def Scanned (l : LoadIterator) (R : RawChanges) (changes : List Change) (s s' : Scan) : Prop :=
  (s'.isExhausted = s.isExhausted ∧ s'.batch = s.batch ++ l.toSend R changes) ∨
    ∃ pre c post, changes = pre ++ c :: post ∧ s'.isExhausted = false ∧ s'.orderId = c.orderId ∧
      s'.batch = s.batch ++ l.toSend R pre ∧ s'.batch ≠ []

/-- The iteration goes on after a change that is passed over or sent. -/
theorem Scanned.cons {s s₁ s' : Scan} (h : Scanned l R changes s₁ s')
    (hexhausted : s₁.isExhausted = s.isExhausted)
    (hbatch : ∀ pre, s₁.batch ++ l.toSend R pre = s.batch ++ l.toSend R (c :: pre)) :
    Scanned l R (c :: changes) s s' := by
  rcases h with ⟨hend, hall⟩ | ⟨pre, d, post, rfl, hfalse, horder, hpre, hne⟩
  · exact .inl ⟨hend.trans hexhausted, hall.trans (hbatch changes)⟩
  · exact .inr ⟨c :: pre, d, post, rfl, hfalse, horder, hpre.trans (hbatch pre), hne⟩

/-- What the loop of a batch has sent and what is left. -/
theorem scanned_scan (maxSize : ℤ) (changes : List Change) (s : Scan) :
    Scanned l R changes s (l.scan R maxSize changes s) := by
  induction changes generalizing s with
  | nil => exact .inl ⟨rfl, by simp [scan, toSend]⟩
  | cons c changes ih =>
    rw [scan]
    dsimp only
    cases hlookup : l.cache.lookup c.id with
    | none =>
      have hsends : l.sends c = false := by simp [sends, hlookup]
      exact (ih _).cons rfl fun pre => by rw [toSend_cons_of_neg hsends]
    | some rawEntry =>
      dsimp only
      split
      · next hremoved =>
        have hsends : l.sends c = false := by simp [sends, hremoved]
        exact (ih _).cons rfl fun pre => by rw [toSend_cons_of_neg hsends]
      · next hremoved =>
        have hsends : l.sends c = true := by simp [sends, hlookup, hremoved]
        split
        · next hfull => exact .inr ⟨[], c, changes, rfl, rfl, rfl, by simp [toSend], hfull.2⟩
        · refine (ih _).cons rfl fun pre => ?_
          rw [toSend_cons_of_pos hsends, List.append_assoc, List.singleton_append]

/-- A batch is the next part of what is to be sent. -/
theorem nextBatch_spec (ht : st.Topological) (R : RawChanges) (maxSize : ℤ)
    (hexhausted : l.isExhausted = false) {r : IteratorBatch × LoadIterator}
    (hr : l.nextBatch st R maxSize = r) :
    r.2.cache = l.cache ∧ r.2.removed = l.removed ∧
      (r.2.isExhausted = true ∧ r.1.batch = l.toSend R (st.getAfterOrder l.orderId) ∨
        r.2.isExhausted = false ∧ r.1.batch ≠ [] ∧
          r.1.batch ++ l.toSend R (st.getAfterOrder r.2.orderId) =
            l.toSend R (st.getAfterOrder l.orderId)) := by
  rw [nextBatch, hexhausted] at hr
  simp only [Bool.false_eq_true, if_false] at hr
  subst hr
  refine ⟨rfl, rfl, ?_⟩
  rcases scanned_scan (l := l) (R := R) maxSize (st.getAfterOrder l.orderId)
    { orderId := l.orderId, isExhausted := true, curSize := 0, batch := [], heads := [] } with
    ⟨hend, hbatch⟩ | ⟨pre, c, post, hsplit, hfalse, horder, hbatch, hne⟩
  · exact .inl ⟨hend, hbatch⟩
  · refine .inr ⟨hfalse, hne, ?_⟩
    dsimp only
    rw [hbatch, horder, ht.getAfterOrder_of_split hsplit, hsplit, toSend_append]
    rfl

/-! ## All batches -/

/-- After some calls: everything is sent, or what is left is what the storage has from the order id
of the iterator on. -/
structure Progress (l : LoadIterator) (st : Storage) (R : RawChanges) (sizes : ℕ → ℤ)
    (all : List RawTreeChangeWithId) (n : ℕ) : Prop where
  cache : (l.after st R sizes n).cache = l.cache
  removed : (l.after st R sizes n).removed = l.removed
  done : (l.after st R sizes n).isExhausted = true → l.sent st R sizes n = all
  rest : (l.after st R sizes n).isExhausted = false →
    n ≤ (l.sent st R sizes n).length ∧
      l.sent st R sizes n ++ l.toSend R (st.getAfterOrder (l.after st R sizes n).orderId) = all

theorem sent_succ (n : ℕ) :
    l.sent st R sizes (n + 1) = l.sent st R sizes n ++ l.batchAt st R sizes n := by
  rw [sent, List.range_succ, List.flatMap_append, List.flatMap_singleton, sent]

/-- Nothing comes after the last batch. -/
theorem nextBatch_of_isExhausted (st : Storage) (R : RawChanges) (maxSize : ℤ)
    (hexhausted : l.isExhausted = true) :
    (l.nextBatch st R maxSize).1.batch = [] ∧ (l.nextBatch st R maxSize).2 = l := by
  rw [nextBatch, if_pos hexhausted]
  exact ⟨rfl, rfl⟩

theorem toSend_congr {l' : LoadIterator} (hcache : l'.cache = l.cache)
    (hremoved : l'.removed = l.removed) (changes : List Change) :
    l'.toSend R changes = l.toSend R changes := by
  have hsends : l'.sends = l.sends := by
    funext c
    rw [sends, sends, hcache, hremoved]
  rw [toSend, toSend, hsends]

variable (ht : st.Topological) (hnew : l.isExhausted = false)

include ht hnew

/-- Every batch before the last one sends something. -/
theorem progress (R : RawChanges) (sizes : ℕ → ℤ) (n : ℕ) :
    l.Progress st R sizes (l.toSend R (st.getAfterOrder l.orderId)) n := by
  induction n with
  | zero =>
    refine ⟨rfl, rfl, fun hexhausted => ?_, fun _ => ⟨Nat.zero_le _, rfl⟩⟩
    exact absurd (hnew.symm.trans hexhausted) Bool.false_ne_true
  | succ n ih =>
    cases hexhausted : (l.after st R sizes n).isExhausted with
    -- nothing is sent once the iterator is exhausted
    | true =>
      obtain ⟨hbatch, hsame⟩ := nextBatch_of_isExhausted st R (sizes n) hexhausted
      have hafter : l.after st R sizes (n + 1) = l.after st R sizes n := hsame
      have hsent : l.sent st R sizes (n + 1) = l.sent st R sizes n := by
        rw [sent_succ, batchAt, hbatch, List.append_nil]
      refine ⟨hafter ▸ ih.cache, hafter ▸ ih.removed, fun _ => hsent.trans (ih.done hexhausted),
        fun hfalse => ?_⟩
      rw [hafter, hexhausted] at hfalse
      cases hfalse
    | false =>
      obtain ⟨hlength, hrest⟩ := ih.rest hexhausted
      obtain ⟨hcache, hremoved, hcases⟩ :=
        nextBatch_spec ht R (sizes n) hexhausted rfl
      have hsame := toSend_congr (R := R) ih.cache ih.removed
      simp only [hsame] at hcases
      refine ⟨hcache.trans ih.cache, hremoved.trans ih.removed, fun htrue => ?_, fun hfalse => ?_⟩
      · rcases hcases with ⟨-, hbatch⟩ | ⟨hfalse, -⟩
        · rw [sent_succ, batchAt, hbatch, hrest]
        · exact absurd (hfalse.symm.trans htrue) Bool.false_ne_true
      · rcases hcases with ⟨htrue, -⟩ | ⟨-, hne, hbatch⟩
        · exact absurd (hfalse.symm.trans htrue) Bool.false_ne_true
        · rw [sent_succ, List.length_append, List.append_assoc]
          have hpos : 0 < (l.batchAt st R sizes n).length := List.length_pos_iff.mpr hne
          refine ⟨by omega, ?_⟩
          rw [← hrest]
          exact congrArg _ hbatch

/-- The batches come to an end, contain what is to be sent, and are not empty before. -/
theorem batches_spec (R : RawChanges) (sizes : ℕ → ℤ) :
    (∃ n, l.EndsAt st R sizes n) ∧
      (∀ n, l.EndsAt st R sizes n →
        l.sent st R sizes (n + 1) = l.toSend R (st.getAfterOrder l.orderId)) ∧
      ∀ n, (l.after st R sizes (n + 1)).isExhausted = false → l.batchAt st R sizes n ≠ [] := by
  have hprogress := progress ht hnew R sizes
  refine ⟨?_, fun n hends => (hprogress (n + 1)).done hends.2, fun n hfalse hempty => ?_⟩
  · -- so many batches that are not empty would contain too many changes
    set n := (l.toSend R (st.getAfterOrder l.orderId)).length + 1
    have htrue : (l.after st R sizes n).isExhausted = true := by
      by_contra hfalse
      obtain ⟨hlength, hrest⟩ := (hprogress n).rest (by simpa using hfalse)
      have hsum := congrArg List.length hrest
      rw [List.length_append] at hsum
      omega
    obtain ⟨hbatch, hsame⟩ := nextBatch_of_isExhausted st R (sizes n) htrue
    exact ⟨n, hbatch, (congrArg isExhausted hsame).trans htrue⟩
  · cases hexhausted : (l.after st R sizes n).isExhausted with
    | true =>
      obtain ⟨-, hsame⟩ := nextBatch_of_isExhausted st R (sizes n) hexhausted
      rw [after, hsame, hexhausted] at hfalse
      cases hfalse
    | false =>
      rcases (nextBatch_spec ht R (sizes n) hexhausted rfl).2.2 with
        ⟨htrue, -⟩ | ⟨-, hne, -⟩
      · exact absurd (hfalse.symm.trans htrue) Bool.false_ne_true
      · exact hne hempty

omit ht hnew

/-! ## The cache -/

/-- The cache has an entry for the change, with its previous ids. -/
def Caches (cache : GoMap GoString CacheEntry) (c : Change) : Prop :=
  ∃ entry, cache.lookup c.id = some entry ∧ ∀ pid, pid ∈ entry.previousIds ↔ pid ∈ c.previousIds

/-- The loop over the stored changes caches them and nothing else. -/
theorem fillCache_spec
    (hdecodes : ∀ c ∈ changes, ∃ previousIds, R.unmarshallReduced (R.rawOf c) = some previousIds ∧
      ∀ pid, pid ∈ previousIds ↔ pid ∈ c.previousIds) (cache : GoMap GoString CacheEntry) :
    ∃ cache', changes.foldlM (fillCache R) cache = .ok cache' ∧
      ∀ id, (∃ c ∈ changes, c.id = id ∧ Caches cache' c) ∨
        (∀ c ∈ changes, c.id ≠ id) ∧ cache'.lookup id = cache.lookup id := by
  induction changes generalizing cache with
  | nil => exact ⟨cache, rfl, fun _ => .inr ⟨fun _ hc => absurd hc List.not_mem_nil, rfl⟩⟩
  | cons c changes ih =>
    obtain ⟨previousIds, hok, hmem⟩ := hdecodes c List.mem_cons_self
    obtain ⟨cache', hfold, hcases⟩ := ih (fun d hd => hdecodes d (List.mem_cons_of_mem _ hd))
      (cache.insert c.id ⟨previousIds, (R.raw c.id).length⟩)
    refine ⟨cache', foldlM_cons_eq_ok.mpr ⟨_, by rw [fillCache, hok], hfold⟩, fun id => ?_⟩
    rcases hcases id with ⟨d, hd, hid, hcaches⟩ | ⟨hne, hlookup⟩
    · exact .inl ⟨d, List.mem_cons_of_mem _ hd, hid, hcaches⟩
    · rw [GoMap.lookup_insert_eq] at hlookup
      split at hlookup
      · next hid =>
        subst hid
        exact .inl ⟨c, List.mem_cons_self, rfl, _, hlookup, hmem⟩
      · next hid => exact .inr ⟨List.forall_mem_cons.mpr ⟨Ne.symm hid, hne⟩, hlookup⟩

/-- The cache of an iterator that was loaded. -/
structure CachesFrom (st : Storage) (orderId : GoString) (cache : GoMap GoString CacheEntry) :
    Prop where
  isSome_iff : ∀ id, (cache.lookup id).isSome = true ↔ st.StoredFrom orderId id
  previousIds : ∀ id, st.StoredFrom orderId id → ∀ pid,
    pid ∈ LoadIterator.previousIds cache id ↔ pid ∈ st.previousIds id

/-- The cache has the changes from the common snapshot on. -/
theorem exists_cachesFrom (ht : st.Topological) (hR : st.Decodes R) (orderId : GoString) :
    ∃ cache, (st.getAfterOrder orderId).foldlM (fillCache R) (∅ : GoMap GoString CacheEntry) =
      .ok cache ∧ CachesFrom st orderId cache := by
  have hdecodes : ∀ c ∈ st.getAfterOrder orderId,
      ∃ previousIds, R.unmarshallReduced (R.rawOf c) = some previousIds ∧
        ∀ pid, pid ∈ previousIds ↔ pid ∈ c.previousIds :=
    fun c hc => hR c.id c (ht.mem_getAfterOrder.mp hc).1
  obtain ⟨cache, hok, hcases⟩ := fillCache_spec hdecodes ∅
  have hcaches : ∀ id c, st.changes.lookup id = some c → orderId ≤ c.orderId → Caches cache c := by
    intro id c hc hle
    obtain rfl := ht.id_eq id c hc
    have hmem := ht.mem_getAfterOrder.mpr ⟨hc, hle⟩
    rcases hcases c.id with ⟨d, hd, hid, hcaches⟩ | ⟨hne, -⟩
    · have hdc := (ht.mem_getAfterOrder.mp hd).1
      rw [hid, hc] at hdc
      exact Option.some.inj hdc ▸ hcaches
    · exact absurd rfl (hne c hmem)
  refine ⟨cache, hok, ⟨fun id => ⟨fun hsome => ?_, ?_⟩, ?_⟩⟩
  · rcases hcases id with ⟨c, hc, rfl, -⟩ | ⟨-, hlookup⟩
    · exact ⟨c, ht.mem_getAfterOrder.mp hc⟩
    · rw [hlookup] at hsome
      cases hsome
  · rintro ⟨c, hc, hle⟩
    obtain ⟨entry, hentry, -⟩ := hcaches id c hc hle
    rw [← ht.id_eq id c hc, hentry]
    rfl
  · rintro id ⟨c, hc, hle⟩ pid
    obtain ⟨entry, hentry, hmem⟩ := hcaches id c hc hle
    rw [ht.id_eq id c hc] at hentry
    rw [LoadIterator.previousIds, hentry, Storage.previousIds, hc]
    exact hmem pid

/-- A change before a stored one is stored before it, or is not stored. -/
theorem storedFrom_of_reaches (ht : st.Topological) (hreach : Graph.Reaches st.previousIds b a)
    (ha : st.StoredFrom orderId a) : st.StoredFrom orderId b := by
  induction hreach using head_induction_on with
  | refl => exact ha
  | @head b x hedge _ ih =>
    obtain ⟨c, hc, hle⟩ := ih
    cases hlookup : st.changes.lookup b with
    | none => simp [Graph.Edge, Storage.previousIds, hlookup] at hedge
    | some d =>
      have hmem : x ∈ d.previousIds := by
        simpa [Graph.Edge, Storage.previousIds, hlookup] using hedge
      exact ⟨d, hlookup, hle.trans (ht.previous_lt b d hlookup x hmem c hc).le⟩

/-- In the cache the same changes come before a change as in the storage. -/
theorem reaches_cache_iff (ht : st.Topological) {cache : GoMap GoString CacheEntry}
    (hcache : CachesFrom st orderId cache) (ha : st.StoredFrom orderId a) :
    (st.StoredFrom orderId b ∧ Graph.Reaches (Graph.kept (previousIds cache)
      fun id => (cache.lookup id).isSome) b a) ↔ Graph.Reaches st.previousIds b a := by
  constructor
  · rintro ⟨hb, hreach⟩
    induction hreach using head_induction_on with
    | refl => exact .refl
    | @head b x hedge _ ih =>
      obtain ⟨hmem, hkeep⟩ := List.mem_filter.mp hedge
      exact .head ((hcache.previousIds b hb x).mp hmem) (ih ((hcache.isSome_iff x).mp hkeep))
  · intro hreach
    refine ⟨storedFrom_of_reaches ht hreach ha, ?_⟩
    induction hreach using head_induction_on with
    | refl => exact .refl
    | @head b x hedge hrest ih =>
      have hx := storedFrom_of_reaches ht hrest ha
      have hb := storedFrom_of_reaches ht (.head hedge hrest) ha
      refine .head (List.mem_filter.mpr ⟨?_, (hcache.isSome_iff x).mpr hx⟩) ih
      exact (hcache.previousIds b hb x).mpr hedge

/-- A change that the peer has: one of its heads that is loaded, or a change before it. -/
def Held (st : Storage) (orderId : GoString) (breakpoints : List GoString) (id : GoString) : Prop :=
  ∃ b ∈ breakpoints, st.StoredFrom orderId b ∧ Graph.Reaches st.previousIds b id

/-- `load` caches the changes from the snapshot on and marks those that the peer has. -/
theorem load_spec (ht : st.Topological) (hR : st.Decodes R) {commonSnapshot : GoString}
    {cs : Change} (hcs : st.changes.lookup commonSnapshot = some cs) (root : RawTreeChangeWithId)
    (snapshotPath heads breakpoints : List GoString) :
    ∃ l, (new root snapshotPath).load st R commonSnapshot heads breakpoints = .ok l ∧
      l.isExhausted = false ∧ l.orderId = cs.orderId ∧
      ∀ c, st.changes.lookup c.id = some c → cs.orderId ≤ c.orderId →
        (l.sends c = true ↔ ¬ Held st cs.orderId breakpoints c.id) := by
  obtain ⟨cache, hfill, hcache⟩ := exists_cachesFrom ht hR cs.orderId
  have hkeys : ∀ id, (cache.lookup id).isSome = true → id ∈ cache.keys :=
    fun id hid => AList.mem_keys.mp (AList.lookup_isSome.mp hid)
  -- the search through the cache ends
  obtain ⟨removed, hsearch⟩ : ∃ removed, Graph.search (previousIds cache)
      (fun id => (cache.lookup id).isSome)
      (Graph.weight (previousIds cache) cache.keys [] +
        (breakpoints.filter fun id => (cache.lookup id).isSome).length) []
      (breakpoints.filter fun id => (cache.lookup id).isSome).reverse = some removed :=
    Graph.exists_search hkeys (by rw [List.length_reverse])
  have hload : (new root snapshotPath).load st R commonSnapshot heads breakpoints =
      .ok { new root snapshotPath with
        cache := cache, removed := removed, heads := heads, orderId := cs.orderId,
        lastHeads := [cs.id] } := by
    rw [load, Storage.get, hcs]
    simp only [Except.ok_bind]
    rw [show (new root snapshotPath).cache = ∅ from rfl, hfill]
    simp only [Except.ok_bind]
    rw [hsearch]
  refine ⟨_, hload, rfl, rfl, fun c hc hle => ?_⟩
  have hstored : st.StoredFrom cs.orderId c.id := ⟨c, hc, hle⟩
  -- what is marked is what the breakpoints reach
  have hremoved : c.id ∈ removed ↔ Held st cs.orderId breakpoints c.id := by
    rw [Graph.mem_search_iff hsearch]
    constructor
    · rintro ⟨b, hb, hkeep, hreach⟩
      have hb' := (hcache.isSome_iff b).mp hkeep
      refine ⟨b, List.mem_of_mem_filter (List.mem_reverse.mp hb), hb', ?_⟩
      exact (reaches_cache_iff ht hcache hstored).mp ⟨hb', hreach⟩
    · rintro ⟨b, hb, hb', hreach⟩
      have hkeep := (hcache.isSome_iff b).mpr hb'
      refine ⟨b, List.mem_reverse.mpr (List.mem_filter.mpr ⟨hb, hkeep⟩), hkeep, ?_⟩
      exact ((reaches_cache_iff ht hcache hstored).mpr hreach).2
  rw [← hremoved, sends, (hcache.isSome_iff c.id).mpr hstored]
  simp

end LoadIterator

/-- The batches contain the changes from the common snapshot on that the peer does not have, each
once and in the order of the order ids. Every change comes after its previous changes, unless the
peer has them or they come before the snapshot. All batches before the last one are not empty. -/
theorem load_sends_missing {st : Storage} {R : RawChanges} (ht : st.Topological) (hR : st.Decodes R)
    {commonSnapshot : GoString} {cs : Change} (hcs : st.changes.lookup commonSnapshot = some cs)
    (root : RawTreeChangeWithId) (snapshotPath heads breakpoints : List GoString) :
    ∃ l missing,
      (LoadIterator.new root snapshotPath).load st R commonSnapshot heads breakpoints = .ok l ∧
      missing.Pairwise (fun c d : Change => c.orderId < d.orderId) ∧
      (∀ c, c ∈ missing ↔ st.changes.lookup c.id = some c ∧ cs.orderId ≤ c.orderId ∧
        ¬ ∃ b ∈ breakpoints, st.StoredFrom cs.orderId b ∧ Graph.Reaches st.previousIds b c.id) ∧
      (∀ before c after, missing = before ++ c :: after → ∀ pid ∈ c.previousIds,
        st.StoredFrom cs.orderId pid → (∃ p ∈ before, p.id = pid) ∨
          ∃ b ∈ breakpoints, st.StoredFrom cs.orderId b ∧ Graph.Reaches st.previousIds b pid) ∧
      ∀ sizes : ℕ → ℤ,
        (∃ n, l.EndsAt st R sizes n) ∧
        (∀ n, l.EndsAt st R sizes n → l.sent st R sizes (n + 1) = missing.map R.rawOf) ∧
        ∀ n, (l.after st R sizes (n + 1)).isExhausted = false → l.batchAt st R sizes n ≠ [] := by
  obtain ⟨l, hload, hexhausted, horder, hsends⟩ :=
    LoadIterator.load_spec ht hR hcs root snapshotPath heads breakpoints
  have hsorted := (ht.pairwise_getAfterOrder cs.orderId).filter l.sends
  have hmem : ∀ c, c ∈ (st.getAfterOrder cs.orderId).filter l.sends ↔
      st.changes.lookup c.id = some c ∧ cs.orderId ≤ c.orderId ∧
        ¬ LoadIterator.Held st cs.orderId breakpoints c.id := by
    intro c
    rw [List.mem_filter, ht.mem_getAfterOrder]
    constructor
    · rintro ⟨⟨hc, hle⟩, hc'⟩
      exact ⟨hc, hle, (hsends c hc hle).mp hc'⟩
    · rintro ⟨hc, hle, hc'⟩
      exact ⟨⟨hc, hle⟩, (hsends c hc hle).mpr hc'⟩
  refine ⟨l, _, hload, hsorted, hmem, ?_, fun sizes => ?_⟩
  · intro before c after hsplit pid hpid hstored
    by_cases hheld : LoadIterator.Held st cs.orderId breakpoints pid
    · exact .inr hheld
    · -- the previous change is sent, and it has a smaller order id
      obtain ⟨p, hp, hple⟩ := hstored
      obtain rfl := ht.id_eq pid p hp
      have hpmem := (hmem p).mpr ⟨hp, hple, hheld⟩
      have hc := ((hmem c).mp (hsplit ▸ List.mem_append_right _ List.mem_cons_self)).1
      have hlt := ht.previous_lt c.id c hc p.id hpid p hp
      rw [hsplit] at hpmem hsorted
      obtain ⟨-, htail, -⟩ := List.pairwise_append.mp hsorted
      rcases List.mem_append.mp hpmem with hbefore | hafter
      · exact .inl ⟨p, hbefore, rfl⟩
      · rcases List.mem_cons.mp hafter with rfl | hafter
        · exact absurd hlt (lt_irrefl _)
        · exact absurd ((List.pairwise_cons.mp htail).1 p hafter) hlt.asymm
  · have hspec := LoadIterator.batches_spec ht hexhausted R sizes
    rwa [horder] at hspec

namespace LoadIterator.Sample

/-- A stored change. -/
def stored (id : UInt8) (previousIds : List GoString) (orderId : UInt8) : Change where
  id := [id]
  previousIds := previousIds
  snapshotId := if previousIds = [] then [] else [114]
  isSnapshot := previousIds = []
  orderId := [orderId]
  snapshotCounter := 1

/-- The root "r", two changes "a" and "b" after it, and a change "c" after both. -/
def storage : Storage where
  id := [114]
  changes := [stored 114 [] 49, stored 97 [[114]] 50, stored 98 [[114]] 51,
    stored 99 [[97], [98]] 52].foldl (fun changes c => changes.insert c.id c) ∅

/-- Encoded changes, without signatures. -/
def raws : RawChanges where
  raw id := (([([114], [10, 2, 64, 1]), ([97], [10, 3, 10, 1, 114]), ([98], [10, 3, 10, 1, 114]),
    ([99], [10, 6, 10, 1, 97, 10, 1, 98])] : List (GoString × Bytes)).lookup id).getD []
  unmarshallReduced raw := ([([10, 2, 64, 1], []), ([10, 3, 10, 1, 114], [[114]]),
    ([10, 6, 10, 1, 97, 10, 1, 98], [[97], [98]])] : List (Bytes × List GoString)).lookup
      raw.rawChange

theorem mem_of_lookup {id : GoString} {c : Change} (hc : storage.changes.lookup id = some c) :
    (⟨id, c⟩ : (_ : GoString) × Change) ∈ storage.changes.entries :=
  GoMap.lookup_eq_some_iff.mp hc

theorem topological : storage.Topological where
  id_eq id c hc :=
    (by decide : ∀ x ∈ storage.changes.entries, x.2.id = x.1) _ (mem_of_lookup hc)
  orderId_inj a b c d hc hd :=
    (by decide : ∀ x ∈ storage.changes.entries, ∀ y ∈ storage.changes.entries,
      x.2.orderId = y.2.orderId → x.1 = y.1) _ (mem_of_lookup hc) _ (mem_of_lookup hd)
  previous_lt id c hc pid hpid p hp :=
    (by decide : ∀ x ∈ storage.changes.entries, ∀ pid ∈ x.2.previousIds,
      ∀ y ∈ storage.changes.entries, y.1 = pid → y.2.orderId < x.2.orderId) _ (mem_of_lookup hc)
      pid hpid _ (mem_of_lookup hp) rfl

theorem decodes : storage.Decodes raws := by
  intro id c hc
  have hall : ∀ x ∈ storage.changes.entries,
      raws.unmarshallReduced ⟨x.1, raws.raw x.1⟩ = some x.2.previousIds := by decide
  exact ⟨c.previousIds, hall _ (mem_of_lookup hc), fun _ => Iff.rfl⟩

/-- The iterator for a peer with the head "a" and one that is not known. -/
def loaded : LoadIterator :=
  match (new ⟨[114], [10, 2, 64, 1]⟩ [[114]]).load storage raws [114] [[99]] [[97], [120]] with
  | .ok l => l
  | .error _ => new ⟨[114], [10, 2, 64, 1]⟩ [[114]]

end LoadIterator.Sample

/-- The peer gets "b" and "c". -/
theorem load_sends_missing_twoBatches :
    ∃ missing : List Change, missing.map Change.id = [[98], [99]] ∧
      LoadIterator.Sample.loaded.sent LoadIterator.Sample.storage LoadIterator.Sample.raws
        (fun _ => 1) 3 = missing.map LoadIterator.Sample.raws.rawOf := by
  obtain ⟨l, missing, hload, -, -, -, hsizes⟩ := load_sends_missing
    LoadIterator.Sample.topological LoadIterator.Sample.decodes
    (show LoadIterator.Sample.storage.changes.lookup [114] = some _ from rfl)
    ⟨[114], [10, 2, 64, 1]⟩ [[114]] [[99]] [[97], [120]]
  have hl : LoadIterator.Sample.loaded = l := by rw [LoadIterator.Sample.loaded, hload]
  have hends : LoadIterator.Sample.loaded.EndsAt LoadIterator.Sample.storage
      LoadIterator.Sample.raws (fun _ => 1) 2 := by
    unfold LoadIterator.EndsAt
    decide +kernel
  have hsent := (hsizes fun _ => 1).2.1 2 (hl ▸ hends)
  rw [← hl] at hsent
  refine ⟨missing, ?_, hsent⟩
  have hids := congrArg (List.map RawTreeChangeWithId.id) hsent
  rw [List.map_map] at hids
  exact hids.symm.trans (by decide +kernel)

end ObjectTree
