import Mathlib.Data.Finset.Card
import Mathlib.Data.List.Sort
import AnySync.Go.Basic
import AnySync.Go.Run

/-!
# The demotion of quic

`net/quicdemotion/penalty.go`: evidence that quic connections to a peer die, and the verdict to dial
the peer, or the whole network, yamux-first.

A time is a number of nanoseconds, and zero is the zero time. An event happens at one time, and
times do not go back. The observer, which is called after the lock is given back, is left out.

The results are for every run of events: `State.verdict_follows_evidence` says when a demotion is in
force, and `State.yamuxFirst_grounded` that no dial rests on evidence that is too old.
-/

namespace QuicDemotion

open Or (inr inl)
open Option (getD_some filter_eq_some_iff)

/-- `demoteThreshold`. -/
def demoteThreshold : ℕ := 2

/-- `time.Minute`. -/
def minute : ℕ := 60 * 10 ^ 9

/-- `demotionBaseTTL`. -/
def demotionBaseTTL : ℕ := 30 * minute

/-- `demotionMaxTTL`. -/
def demotionMaxTTL : ℕ := 240 * minute

/-- `demotionProbeInterval`. -/
def demotionProbeInterval : ℕ := 10 * minute

/-- `fallbackWindow`. -/
def fallbackWindow : ℕ := 5 * minute

/-- `strikeWindow`. -/
def strikeWindow : ℕ := 60 * minute

/-- `globalDemotionMinPeers`. -/
def globalDemotionMinPeers : ℕ := 2

/-- `PenaltySnapshotVersion`. -/
def penaltySnapshotVersion : ℕ := 1

/-- `PeerPenalty`. -/
structure PeerPenalty where
  consecutiveDegraded : ℕ := 0
  demotedUntil : ℕ := 0
  backoffLevel : ℕ := 0
  lastStrikeAt : ℕ := 0
  nextProbeAt : ℕ := 0
deriving DecidableEq, Repr

abbrev Peers := GoMap GoString PeerPenalty

/-- `PenaltySnapshot`. -/
structure PenaltySnapshot where
  version : ℕ
  peers : Peers

/-- `transportPenalties`. -/
structure Penalties where
  peers : Peers := ∅
  globalUntil : ℕ := 0
  fallbackFailedAt : ℕ := 0
  globalNextProbe : ℕ := 0

/-- The loop of `demotionTTL`. -/
def doubled : ℕ → ℕ → ℕ
  | 0, ttl => ttl
  | backoffLevel + 1, ttl =>
    if ttl < demotionMaxTTL then doubled backoffLevel (ttl * 2) else ttl

/-- `demotionTTL`, where the jitter comes to `extra`. -/
def demotionTTL (backoffLevel extra : ℕ) : ℕ :=
  min (doubled backoffLevel demotionBaseTTL) demotionMaxTTL + extra

/-- What `registerDegraded` makes of an entry. -/
def PeerPenalty.strike (s : PeerPenalty) (extra now : ℕ) : PeerPenalty :=
  -- evidence from another era does not count
  let stale := s.lastStrikeAt ≠ 0 ∧ now - s.lastStrikeAt > strikeWindow
  let backoffLevel := if stale then 0 else s.backoffLevel
  let consecutiveDegraded := (if stale then 0 else s.consecutiveDegraded) + 1
  if consecutiveDegraded ≥ demoteThreshold then
    { consecutiveDegraded := demoteThreshold - 1
      demotedUntil := now + demotionTTL backoffLevel extra
      backoffLevel := backoffLevel + 1
      lastStrikeAt := now
      nextProbeAt := now + demotionProbeInterval }
  else { s with consecutiveDegraded, backoffLevel, lastStrikeAt := now }

/-- `dueForProbe`: the answer, and the clock after it. -/
def dueForProbe (next now : ℕ) : Bool × ℕ :=
  if next = 0 ∨ now < next then (false, next) else (true, now + demotionProbeInterval)

/-- The entries that `pruneLocked` keeps. -/
def PeerPenalty.keep (s : PeerPenalty) (now : ℕ) : Prop :=
  s.demotedUntil > now ∨ ¬ (s.lastStrikeAt = 0 ∨ now - s.lastStrikeAt > strikeWindow)

instance (s : PeerPenalty) (now : ℕ) : Decidable (s.keep now) :=
  inferInstanceAs (Decidable (_ ∨ _))

/-- `pruneLocked`. -/
def prune (peers : Peers) (now : ℕ) : Peers :=
  ⟨peers.entries.filter fun e => e.2.keep now,
    List.NodupKeys.sublist List.filter_sublist peers.nodupKeys⟩

/-- `t.peers[peerId].DemotedUntil`. -/
def deadline (peers : Peers) (peerId : GoString) : ℕ :=
  ((peers.lookup peerId).getD {}).demotedUntil

section Node

variable (isNodePeer : GoString → Bool)

/-- The deadlines of the network nodes, latest first. -/
def deadlines (peers : Peers) : List ℕ :=
  (peers.entries.filterMap fun e =>
    if e.2.demotedUntil = 0 ∨ isNodePeer e.1 = false then none else some e.2.demotedUntil).mergeSort
      fun a b => b ≤ a

namespace Penalties

/-- `recomputeGlobalLocked`. -/
def recomputeGlobal (t : Penalties) (now : ℕ) : Penalties :=
  let globalUntil := (deadlines isNodePeer t.peers)[globalDemotionMinPeers - 1]?.getD 0
  { t with
    globalUntil := globalUntil
    globalNextProbe :=
      if globalUntil > t.globalUntil ∧ globalUntil > now ∧ t.globalNextProbe < now then
        now + demotionProbeInterval
      else t.globalNextProbe }

/-- `registerDegraded`. -/
def registerDegraded (t : Penalties) (peerId : GoString) (extra now : ℕ) : Penalties :=
  let s := (t.peers.lookup peerId).getD {}
  recomputeGlobal isNodePeer { t with peers := t.peers.insert peerId (s.strike extra now) } now

/-- `registerHealthy`. -/
def registerHealthy (t : Penalties) (peerId : GoString) (now : ℕ) : Penalties :=
  match t.peers.lookup peerId with
  | none => t
  | some _ => recomputeGlobal isNodePeer { t with peers := t.peers.erase peerId } now

/-- `quicDemoted`: the verdict, without the probe. -/
def quicDemoted (t : Penalties) (peerId : GoString) (now : ℕ) : Bool × Penalties :=
  let t := { t with peers := prune t.peers now }
  (decide (((t.peers.lookup peerId).getD {}).demotedUntil > now ∨ t.globalUntil > now), t)

/-- `demoteDial`: whether one dial is made yamux-first. -/
def demoteDial (t : Penalties) (peerId : GoString) (now : ℕ) : Bool × Penalties :=
  if t.fallbackFailedAt ≠ 0 ∧ now - t.fallbackFailedAt ≤ fallbackWindow then (false, t)
  else
    let t := { t with peers := prune t.peers now }
    let s := (t.peers.lookup peerId).getD {}
    if s.demotedUntil > now then
      let due := dueForProbe s.nextProbeAt now
      if due.1 then
        (false, { t with peers := t.peers.insert peerId { s with nextProbeAt := due.2 } })
      else (true, t)
    else if t.globalUntil > now then
      let due := dueForProbe t.globalNextProbe now
      (!due.1, { t with globalNextProbe := due.2 })
    else (false, t)

/-- `recordFallback`. -/
def recordFallback (t : Penalties) (peerId : GoString) (ok : Bool) (now : ℕ) : Penalties :=
  if isNodePeer peerId then { t with fallbackFailedAt := if ok then 0 else now } else t

/-- `snapshot`. -/
def snapshot (t : Penalties) (now : ℕ) : PenaltySnapshot × Penalties :=
  let t := { t with peers := prune t.peers now }
  ({ version := penaltySnapshotVersion, peers := t.peers }, t)

/-- `seed`. -/
def seed (t : Penalties) (snap : PenaltySnapshot) (now : ℕ) : Penalties :=
  if snap.version ≠ penaltySnapshotVersion then t
  else recomputeGlobal isNodePeer { t with peers := snap.peers } now

/-- `reset`. -/
def reset : Penalties := {}

end Penalties

inductive Event
  /-- A degraded outcome, with what the jitter adds to a demotion. -/
  | degraded (peerId : GoString) (extra : ℕ)
  | healthy (peerId : GoString)
  /-- The outcome of a yamux dial. -/
  | fallback (peerId : GoString) (ok : Bool)
  | dial (peerId : GoString)
  | query (peerId : GoString)
  | snapshot
  /-- A seed of a snapshot that was taken, by its number. -/
  | seed (i : ℕ)
  | reset
deriving DecidableEq

/-- A dial and whether it was made yamux-first. -/
structure Dial where
  peerId : GoString
  time : ℕ
  yamuxFirst : Bool
deriving DecidableEq

/-- The penalties, the time of the last event, and what happened so far. -/
structure State where
  penalties : Penalties := {}
  now : ℕ := 0
  snapshots : List PenaltySnapshot := []
  dials : List Dial := []

namespace State

/-- What an event does. -/
def apply (s : State) (now : ℕ) : Event → Option State
  | .degraded peerId extra =>
    some { s with penalties := s.penalties.registerDegraded isNodePeer peerId extra now }
  | .healthy peerId =>
    some { s with penalties := s.penalties.registerHealthy isNodePeer peerId now }
  | .fallback peerId ok =>
    some { s with penalties := s.penalties.recordFallback isNodePeer peerId ok now }
  | .dial peerId =>
    let r := s.penalties.demoteDial peerId now
    some { s with
      penalties := r.2
      dials := s.dials ++ [{ peerId := peerId, time := now, yamuxFirst := r.1 }] }
  | .query peerId => some { s with penalties := (s.penalties.quicDemoted peerId now).2 }
  | .snapshot =>
    let r := s.penalties.snapshot now
    some { s with penalties := r.2, snapshots := s.snapshots ++ [r.1] }
  | .seed i => do
    let snap ← s.snapshots[i]?
    some { s with penalties := s.penalties.seed isNodePeer snap now }
  | .reset => some { s with penalties := Penalties.reset }

/-- An event at a time that is not before the last one. -/
def next (s : State) (e : ℕ × Event) : Option State :=
  if e.1 < s.now then none else apply isNodePeer { s with now := e.1 } e.1 e.2

def run (s : State) (events : List (ℕ × Event)) : Option State :=
  events.foldlM (next isNodePeer) s

/-- The network-wide demotion is in force. -/
def GlobalInForce (s : State) (t : ℕ) : Prop := s.penalties.globalUntil > t

/-- The deadline of the entry of a peer is after a time. -/
def DemotedAfter (s : State) (peerId : GoString) (t : ℕ) : Prop :=
  deadline s.penalties.peers peerId > t

end State

/-- The event leaves the evidence about a peer, or takes it away for a healthy outcome. -/
def Event.Spares (peerId : GoString) : Event → Prop
  | .degraded peerId' _ => peerId' ≠ peerId
  | .seed _ => False
  | .reset => False
  | _ => True

section Entries

variable {isNodePeer} {peers : Peers} {peerId : GoString} {now t : ℕ}

/-- In a list with the latest first, the one at `k` is after `t` if more than `k` are. -/
theorem lt_getElem?_getD_iff {l : List ℕ} (h : l.Pairwise (· ≥ ·)) (k : ℕ) :
    t < l[k]?.getD 0 ↔ k < l.countP (t < ·) := by
  induction l generalizing k with
  | nil => simp
  | cons a l ih =>
    rw [List.pairwise_cons] at h
    by_cases ha : t < a
    · cases k with
      | zero => simp [ha]
      | succ k => simpa [ha] using ih h.2 k
    · -- none is later than the first
      have hle : ∀ b ∈ a :: l, b ≤ t := by
        intro b hb
        rcases List.mem_cons.mp hb with rfl | hb
        · omega
        · exact (h.1 b hb).trans (by omega)
      have hcount : (a :: l).countP (t < ·) = 0 :=
        List.countP_eq_zero.mpr fun b hb => by simpa using hle b hb
      rw [hcount]
      constructor
      · intro hlt
        cases hk : (a :: l)[k]? with
        | none => simp [hk] at hlt
        | some b =>
          have hb := hle b (List.mem_of_getElem? hk)
          rw [hk, getD_some] at hlt
          omega
      · intro hlt
        omega

/-- The number of entries with a property, where two of them have different keys. -/
theorem one_lt_countP_iff {l : List ((_ : GoString) × PeerPenalty)} (h : l.NodupKeys)
    (q : (_ : GoString) × PeerPenalty → Bool) :
    1 < l.countP q ↔ ∃ a ∈ l, ∃ b ∈ l, a.1 ≠ b.1 ∧ q a ∧ q b := by
  have hnodup : ((l.filter q).map Sigma.fst).Nodup :=
    List.NodupKeys.sublist List.filter_sublist h
  rw [List.countP_eq_length_filter, ← List.length_map Sigma.fst,
    ← List.toFinset_card_of_nodup hnodup, Finset.one_lt_card]
  simp only [List.mem_toFinset, List.mem_map, List.mem_filter]
  constructor
  · rintro ⟨_, ⟨a, ⟨ha, hqa⟩, rfl⟩, _, ⟨b, ⟨hb, hqb⟩, rfl⟩, hne⟩
    exact ⟨a, ha, b, hb, hne, hqa, hqb⟩
  · rintro ⟨a, ha, b, hb, hne, hqa, hqb⟩
    exact ⟨a.1, ⟨a, ⟨ha, hqa⟩, rfl⟩, b.1, ⟨b, ⟨hb, hqb⟩, rfl⟩, hne⟩

theorem lt_deadline_iff :
    t < deadline peers peerId ↔ ∃ s, peers.lookup peerId = some s ∧ t < s.demotedUntil := by
  unfold deadline
  cases peers.lookup peerId <;> simp

variable (isNodePeer) in
/-- Two network nodes have a deadline after `t`. -/
def TwoDemoted (peers : Peers) (t : ℕ) : Prop :=
  ∃ p q, p ≠ q ∧ isNodePeer p ∧ isNodePeer q ∧ deadline peers p > t ∧ deadline peers q > t

/-- It depends on the deadlines alone, and only on those after `t`. -/
theorem twoDemoted_congr {peers' : Peers} (h : ∀ p, deadline peers' p > t ↔ deadline peers p > t) :
    TwoDemoted isNodePeer peers' t ↔ TwoDemoted isNodePeer peers t := by
  simp only [TwoDemoted, h]

/-- The entry at which the cached deadline is read is late exactly if two nodes are. -/
theorem lt_second_deadline_iff :
    t < (deadlines isNodePeer peers)[globalDemotionMinPeers - 1]?.getD 0 ↔
      TwoDemoted isNodePeer peers t := by
  have hsorted : (deadlines isNodePeer peers).Pairwise (· ≥ ·) := by
    have htrans : ∀ a b c : ℕ, decide (b ≤ a) = true → decide (c ≤ b) = true →
        decide (c ≤ a) = true := by
      simp only [decide_eq_true_eq]
      omega
    have htotal : ∀ a b : ℕ, (decide (b ≤ a) || decide (a ≤ b)) = true := by
      simp only [Bool.or_eq_true, decide_eq_true_eq]
      omega
    simpa [deadlines] using List.pairwise_mergeSort htrans htotal (peers.entries.filterMap fun e =>
      if e.2.demotedUntil = 0 ∨ isNodePeer e.1 = false then none else some e.2.demotedUntil)
  have hcount : (deadlines isNodePeer peers).countP (t < ·) =
      peers.entries.countP fun e => isNodePeer e.1 && decide (t < e.2.demotedUntil) := by
    rw [deadlines, (List.mergeSort_perm _ _).countP_eq, List.countP_filterMap]
    refine List.countP_congr fun e _ => ?_
    by_cases hzero : e.2.demotedUntil = 0
    · simp [hzero]
    · cases isNodePeer e.1 <;> simp [hzero]
  rw [lt_getElem?_getD_iff hsorted, hcount]
  change 1 < _ ↔ _
  rw [one_lt_countP_iff peers.nodupKeys]
  simp only [Bool.and_eq_true, decide_eq_true_eq, TwoDemoted, gt_iff_lt, lt_deadline_iff,
    GoMap.lookup_eq_some_iff]
  constructor
  · rintro ⟨a, ha, b, hb, hne, ⟨hna, hta⟩, hnb, htb⟩
    exact ⟨a.1, b.1, hne, hna, hnb, ⟨a.2, ha, hta⟩, b.2, hb, htb⟩
  · rintro ⟨p, q, hne, hnp, hnq, ⟨a, ha, hta⟩, b, hb, htb⟩
    exact ⟨⟨p, a⟩, ha, ⟨q, b⟩, hb, hne, ⟨hnp, hta⟩, hnq, htb⟩

/-- Pruning drops the penalties that have run out. -/
theorem lookup_prune :
    (prune peers now).lookup peerId = (peers.lookup peerId).filter (·.keep now) := by
  ext s
  rw [GoMap.lookup_eq_some_iff, filter_eq_some_iff, GoMap.lookup_eq_some_iff]
  simp [prune]

/-- What is dropped was not demoted. -/
theorem lt_deadline_prune_iff (h : now ≤ t) :
    deadline (prune peers now) peerId > t ↔ deadline peers peerId > t := by
  simp only [gt_iff_lt, lt_deadline_iff, lookup_prune, filter_eq_some_iff]
  constructor
  · rintro ⟨s, ⟨hs, -⟩, hlt⟩
    exact ⟨s, hs, hlt⟩
  · rintro ⟨s, hs, hlt⟩
    refine ⟨s, ⟨hs, ?_⟩, hlt⟩
    simp only [decide_eq_true_eq]
    exact inl (by omega)

/-- The clock of the peer, if it has a demotion, is armed and runs out at `bound` at the latest. -/
def Due (peers : Peers) (peerId : GoString) (bound : ℕ) : Prop :=
  ∀ s, peers.lookup peerId = some s → s.demotedUntil ≠ 0 →
    s.nextProbeAt ≠ 0 ∧ s.nextProbeAt ≤ bound

variable {bound : ℕ}

section

variable (h : Due peers peerId bound)

include h

theorem Due.mono {bound' : ℕ} (hle : bound ≤ bound') : Due peers peerId bound' := by
  intro s hs hne
  exact ⟨(h s hs hne).1, (h s hs hne).2.trans hle⟩

theorem Due.prune : Due (prune peers now) peerId bound := by
  intro s hs
  rw [lookup_prune, filter_eq_some_iff] at hs
  exact h s hs.1

theorem Due.erase (p : GoString) : Due (peers.erase p) peerId bound := by
  intro s hs
  rw [GoMap.lookup_erase_eq] at hs
  split at hs
  · cases hs
  · exact h s hs

theorem Due.insert {p : GoString} {s : PeerPenalty}
    (hs : peerId = p → s.demotedUntil ≠ 0 → s.nextProbeAt ≠ 0 ∧ s.nextProbeAt ≤ bound) :
    Due (peers.insert p s) peerId bound := by
  intro s' hs'
  rw [GoMap.lookup_insert_eq] at hs'
  split at hs'
  · next heq =>
    cases hs'
    exact hs heq
  · exact h s' hs'

end

/-- A probe that is due is granted, and the next one is set. -/
theorem dueForProbe_of_due {next : ℕ} (harmed : next ≠ 0) (hclock : next ≤ now) :
    dueForProbe next now = (true, now + demotionProbeInterval) := by
  rw [dueForProbe, if_neg]
  omega

theorem dueForProbe_eq_true {next : ℕ} (h : (dueForProbe next now).1 = true) :
    next ≠ 0 ∧ next ≤ now := by
  unfold dueForProbe at h
  split at h
  · cases h
  · omega

theorem clock_ne_zero : now + demotionProbeInterval ≠ 0 := by
  have h : demotionProbeInterval ≠ 0 := by decide
  omega

theorem due_empty : Due ∅ peerId bound := by
  intro s hs
  simp at hs

/-- A strike that demotes arms the clock, and another one leaves the entry as it was. -/
theorem PeerPenalty.strike_clock (s : PeerPenalty) (extra : ℕ) :
    ((s.strike extra now).nextProbeAt = now + demotionProbeInterval) ∨
      ((s.strike extra now).nextProbeAt = s.nextProbeAt ∧
        (s.strike extra now).demotedUntil = s.demotedUntil) := by
  unfold PeerPenalty.strike
  extract_lets stale backoffLevel consecutiveDegraded
  split
  · exact inl rfl
  · exact inr ⟨rfl, rfl⟩

end Entries

namespace Penalties

variable {isNodePeer} {p : Penalties} {peerId : GoString} {now : ℕ}

theorem lt_globalUntil_recomputeGlobal_iff {t : ℕ} :
    t < (p.recomputeGlobal isNodePeer now).globalUntil ↔ TwoDemoted isNodePeer p.peers t :=
  lt_second_deadline_iff

@[simp]
theorem peers_recomputeGlobal : (p.recomputeGlobal isNodePeer now).peers = p.peers := rfl

@[simp]
theorem peers_recordFallback {ok : Bool} :
    (p.recordFallback isNodePeer peerId ok now).peers = p.peers := by
  unfold recordFallback
  split <;> rfl

@[simp]
theorem globalUntil_recordFallback {ok : Bool} :
    (p.recordFallback isNodePeer peerId ok now).globalUntil = p.globalUntil := by
  unfold recordFallback
  split <;> rfl

/-- A probe of the peer is due. -/
structure Probes (p : Penalties) (peerId : GoString) (now : ℕ) (s : PeerPenalty) : Prop where
  lookup : (prune p.peers now).lookup peerId = some s
  demoted : s.demotedUntil > now
  armed : s.nextProbeAt ≠ 0
  due : s.nextProbeAt ≤ now

/-- A dial either is the probe of a demoted peer, or leaves the entries up to pruning. In the second
case it is made yamux-first or the clock of the peer did not run out. -/
theorem demoteDial_cases (p : Penalties) (peerId : GoString) (now : ℕ) :
    (∃ s, p.Probes peerId now s ∧ p.demoteDial peerId now = (false, { p with
      peers := (prune p.peers now).insert peerId
        ({ s with nextProbeAt := now + demotionProbeInterval }) })) ∨
    (((p.demoteDial peerId now).2.peers = p.peers ∨
        (p.demoteDial peerId now).2.peers = prune p.peers now) ∧
      (p.demoteDial peerId now).2.globalUntil = p.globalUntil) := by
  unfold demoteDial
  dsimp only
  split
  · exact inr ⟨inl rfl, rfl⟩
  split
  · next hdemoted =>
    split
    · next hdue =>
      left
      cases hs : (prune p.peers now).lookup peerId with
      | none => simp [hs] at hdemoted
      | some s =>
        rw [hs, getD_some] at hdemoted hdue
        obtain ⟨harmed, hclock⟩ := dueForProbe_eq_true hdue
        refine ⟨s, ⟨hs, hdemoted, harmed, hclock⟩, ?_⟩
        rw [getD_some, dueForProbe_of_due harmed hclock]
    · exact inr ⟨inr rfl, rfl⟩
  split <;> exact inr ⟨inr rfl, rfl⟩

/-- A demoted peer is dialed quic-first once its clock has run out. -/
theorem demoteDial_of_due (hdemoted : deadline p.peers peerId > now)
    (hdue : Due p.peers peerId now) : (p.demoteDial peerId now).1 = false := by
  have hdeadline : deadline (prune p.peers now) peerId > now :=
    (lt_deadline_prune_iff le_rfl).mpr hdemoted
  obtain ⟨s, hs, hlt⟩ := lt_deadline_iff.mp hdeadline
  obtain ⟨harmed, hclock⟩ := hdue.prune s hs (by omega)
  unfold demoteDial
  dsimp only
  split
  · rfl
  · rw [hs, getD_some, if_pos hlt, dueForProbe_of_due harmed hclock]
    rfl

end Penalties

namespace State

variable {isNodePeer} {s s' : State} {peerId : GoString} {now bound : ℕ} {e : ℕ × Event}

variable (isNodePeer) in
/-- What holds after every event. -/
structure Ok (s : State) : Prop where
  /-- The cached deadline says for every later time whether two nodes are demoted. -/
  global : ∀ t, s.now ≤ t → (t < s.penalties.globalUntil ↔
    TwoDemoted isNodePeer s.penalties.peers t)
  due : ∀ p, Due s.penalties.peers p (s.now + demotionProbeInterval)
  snapshots : ∀ snap ∈ s.snapshots, ∀ p, Due snap.peers p (s.now + demotionProbeInterval)

theorem ok_init : Ok isNodePeer {} where
  global t _ := by
    constructor
    · intro h
      cases h
    · rintro ⟨p, q, -, -, -, h, -⟩
      cases h
  due _ := due_empty
  snapshots _ h := by cases h

section

variable (h : Ok isNodePeer s)

include h

/-- Time passes. -/
theorem Ok.wait (hle : s.now ≤ now) :
    Ok isNodePeer { s with now := now } where
  global t ht := h.global t (hle.trans ht)
  due p := (h.due p).mono (Nat.add_le_add_right hle _)
  snapshots snap hsnap p := (h.snapshots snap hsnap p).mono (Nat.add_le_add_right hle _)

/-- The entries are pruned, or stay. -/
theorem Ok.pruned {q : Penalties}
    (hpeers : q.peers = s.penalties.peers ∨ q.peers = prune s.penalties.peers s.now)
    (hglobal : q.globalUntil = s.penalties.globalUntil) :
    Ok isNodePeer { s with penalties := q } where
  global t ht := by
    change t < q.globalUntil ↔ TwoDemoted isNodePeer q.peers t
    rw [hglobal, h.global t ht]
    rcases hpeers with hpeers | hpeers
    · rw [hpeers]
    · rw [hpeers]
      exact (twoDemoted_congr fun p => lt_deadline_prune_iff ht).symm
  due p := by
    change Due q.peers p _
    rcases hpeers with hpeers | hpeers
    · rw [hpeers]
      exact h.due p
    · rw [hpeers]
      exact (h.due p).prune
  snapshots := h.snapshots

/-- The cached deadline is computed for new entries. -/
theorem Ok.recompute {q : Penalties} (hdue : ∀ p, Due q.peers p (s.now + demotionProbeInterval)) :
    Ok isNodePeer { s with penalties := q.recomputeGlobal isNodePeer s.now } where
  global _ _ := Penalties.lt_globalUntil_recomputeGlobal_iff
  due := hdue
  snapshots := h.snapshots

/-- A probe puts the clock of a peer forward, and no deadline changes. -/
theorem Ok.probe {p : PeerPenalty} (hp : s.penalties.Probes peerId s.now p) :
    Ok isNodePeer { s with penalties := { s.penalties with
      peers := (prune s.penalties.peers s.now).insert peerId
        ({ p with nextProbeAt := s.now + demotionProbeInterval }) } } where
  global t ht := by
    rw [h.global t ht]
    refine (twoDemoted_congr fun q => ?_).symm
    refine Iff.trans ?_ (lt_deadline_prune_iff ht)
    unfold deadline
    rw [GoMap.lookup_insert_eq]
    split
    · next heq => rw [heq, hp.lookup, getD_some, getD_some]
    · rfl
  due q := (h.due q).prune.insert fun _ _ => ⟨clock_ne_zero, le_rfl⟩
  snapshots := h.snapshots

/-- A dial asks for its order and may be granted a probe. -/
theorem Ok.dial :
    Ok isNodePeer { s with penalties := (s.penalties.demoteDial peerId s.now).2 } := by
  rcases s.penalties.demoteDial_cases peerId s.now with ⟨p, hp, heq⟩ | ⟨hpeers, hglobal⟩
  · rw [heq]
    exact h.probe hp
  · exact h.pruned hpeers hglobal

/-- A degraded outcome arms the clock with the demotion. -/
theorem Ok.degraded (extra : ℕ) :
    Ok isNodePeer { s with
      penalties := s.penalties.registerDegraded isNodePeer peerId extra s.now } := by
  refine h.recompute fun q => (h.due q).insert fun hq hne => ?_
  subst hq
  rcases ((s.penalties.peers.lookup q).getD {}).strike_clock extra with hclock | ⟨hclock, hsame⟩
  · rw [hclock]
    exact ⟨clock_ne_zero, le_rfl⟩
  · rw [hsame] at hne
    rw [hclock]
    cases hs : s.penalties.peers.lookup q with
    | none => simp [hs] at hne
    | some p =>
      rw [hs] at hne
      exact h.due q p hs hne

theorem Ok.healthy :
    Ok isNodePeer { s with penalties := s.penalties.registerHealthy isNodePeer peerId s.now } := by
  unfold Penalties.registerHealthy
  split
  · exact h
  · exact h.recompute fun q => (h.due q).erase peerId

theorem Ok.snapshot :
    Ok isNodePeer { s with
      penalties := (s.penalties.snapshot s.now).2
      snapshots := s.snapshots ++ [(s.penalties.snapshot s.now).1] } := by
  have hpruned : Ok isNodePeer { s with penalties := (s.penalties.snapshot s.now).2 } :=
    h.pruned (inr rfl) rfl
  refine { hpruned with snapshots := fun snap hsnap p => ?_ }
  rcases List.mem_append.mp hsnap with hsnap | hsnap
  · exact h.snapshots snap hsnap p
  · rw [List.mem_singleton.mp hsnap]
    exact hpruned.due p

/-- A restart takes penalties over from a snapshot. -/
theorem Ok.seed {snap : PenaltySnapshot} (hsnap : snap ∈ s.snapshots) :
    Ok isNodePeer { s with penalties := s.penalties.seed isNodePeer snap s.now } := by
  unfold Penalties.seed
  split
  · exact h
  · exact h.recompute (h.snapshots snap hsnap)

theorem Ok.reset :
    Ok isNodePeer { s with penalties := Penalties.reset } where
  global t _ := ok_init.global t (Nat.zero_le t)
  due _ := due_empty
  snapshots := h.snapshots

/-- Every event keeps it. -/
theorem Ok.next (hnext : s.next isNodePeer e = some s') : Ok isNodePeer s' := by
  obtain ⟨now, e⟩ := e
  unfold State.next at hnext
  split at hnext
  · cases hnext
  next hle =>
  have hwait := h.wait (not_lt.mp hle)
  cases e with
  | degraded peerId extra =>
    cases hnext
    exact hwait.degraded extra
  | healthy peerId =>
    cases hnext
    exact hwait.healthy
  | fallback peerId ok =>
    cases hnext
    exact hwait.pruned (inl (by simp)) (by simp)
  | dial peerId =>
    cases hnext
    exact { hwait.dial with }
  | query peerId =>
    cases hnext
    exact hwait.pruned (inr rfl) rfl
  | snapshot =>
    cases hnext
    exact hwait.snapshot
  | seed i =>
    obtain ⟨snap, hsnap, hseed⟩ := Option.bind_eq_some_iff.mp hnext
    cases hseed
    exact hwait.seed (List.mem_of_getElem? hsnap)
  | reset =>
    cases hnext
    exact hwait.reset

end

/-- The invariant holds after every run. -/
theorem ok_of_run {events : List (ℕ × Event)} (h : run isNodePeer {} events = some s) :
    Ok isNodePeer s :=
  foldlM_some_invariant (Ok isNodePeer) (fun _ _ _ _ hs hnext => hs.next hnext) ok_init h

/-- A dial of the peer after the first `n` was made quic-first. -/
def Probed (s : State) (peerId : GoString) (n : ℕ) : Prop :=
  ∃ d ∈ s.dials.drop n, d.peerId = peerId ∧ d.yamuxFirst = false

/-- No event takes a dial back. -/
theorem exists_dials_append (h : s.next isNodePeer e = some s') : ∃ l, s'.dials = s.dials ++ l := by
  obtain ⟨now, e⟩ := e
  unfold State.next at h
  split at h
  · cases h
  cases e with
  | seed i =>
    obtain ⟨snap, hsnap, hseed⟩ := Option.bind_eq_some_iff.mp h
    cases hseed
    exact ⟨[], (List.append_nil _).symm⟩
  | dial peerId =>
    cases h
    exact ⟨_, rfl⟩
  | _ =>
    cases h
    exact ⟨[], (List.append_nil _).symm⟩

/-- Later events do not take a probe back. -/
theorem Probed.next {n : ℕ} (h : s.Probed peerId n) (hnext : s.next isNodePeer e = some s') :
    s'.Probed peerId n := by
  obtain ⟨d, hd, hpeer⟩ := h
  obtain ⟨l, hl⟩ := exists_dials_append hnext
  refine ⟨d, ?_, hpeer⟩
  rw [hl, List.drop_append]
  exact List.mem_append_left _ hd

/-- A dial that was just made quic-first. -/
theorem probed_of_append {n : ℕ} {d : Dial} (hn : n ≤ s.dials.length)
    (hdials : s'.dials = s.dials ++ [d]) (hd : d.peerId = peerId ∧ d.yamuxFirst = false) :
    s'.Probed peerId n := by
  refine ⟨d, ?_, hd⟩
  rw [hdials, List.drop_append_of_le_length hn]
  exact List.mem_append_right _ (List.mem_singleton.mpr rfl)

/-- While the evidence about a peer stays, its clock stays, until a dial is made quic-first. -/
theorem due_or_probed_next {n : ℕ} (hn : n ≤ s.dials.length)
    (hdue : Due s.penalties.peers peerId bound) (hspares : e.2.Spares peerId)
    (hnext : s.next isNodePeer e = some s') :
    Due s'.penalties.peers peerId bound ∨ s'.Probed peerId n := by
  obtain ⟨now, e⟩ := e
  unfold State.next at hnext
  split at hnext
  · cases hnext
  cases e with
  | degraded p extra =>
    cases hnext
    exact inl (hdue.insert fun heq => absurd heq.symm hspares)
  | healthy p =>
    cases hnext
    refine inl ?_
    change Due (s.penalties.registerHealthy isNodePeer p now).peers _ _
    unfold Penalties.registerHealthy
    split
    · exact hdue
    · exact hdue.erase p
  | fallback p ok =>
    cases hnext
    refine inl ?_
    change Due (s.penalties.recordFallback isNodePeer p ok now).peers _ _
    rwa [Penalties.peers_recordFallback]
  | dial p =>
    cases hnext
    by_cases hp : p = peerId ∧ (s.penalties.demoteDial p now).1 = false
    · exact inr (probed_of_append hn rfl hp)
    · left
      change Due (s.penalties.demoteDial p now).2.peers _ _
      rcases s.penalties.demoteDial_cases p now with ⟨q, -, heq⟩ | ⟨hpeers | hpeers, -⟩
      · -- the probe of another peer
        rw [heq] at hp ⊢
        exact hdue.prune.insert fun h => absurd ⟨h.symm, rfl⟩ hp
      · rwa [hpeers]
      · rw [hpeers]
        exact hdue.prune
  | query p =>
    cases hnext
    exact inl hdue.prune
  | snapshot =>
    cases hnext
    exact inl hdue.prune
  | seed i => cases hspares
  | reset => cases hspares

/-- Until a peer is probed, its probe stays due. -/
theorem due_or_probed_of_run {events : List (ℕ × Event)} (hdue : Due s.penalties.peers peerId bound)
    (hspares : ∀ e ∈ events, e.2.Spares peerId) (hrun : run isNodePeer s events = some s') :
    s.dials.length ≤ s'.dials.length ∧
      (Due s'.penalties.peers peerId bound ∨ s'.Probed peerId s.dials.length) := by
  refine foldlM_some_invariant
    (fun m => s.dials.length ≤ m.dials.length ∧
      (Due m.penalties.peers peerId bound ∨ m.Probed peerId s.dials.length)) ?_
    ⟨le_rfl, inl hdue⟩ hrun
  rintro m e he m' ⟨hn, hm⟩ hnext
  obtain ⟨l, hl⟩ := exists_dials_append hnext
  refine ⟨by rw [hl, List.length_append]; omega, ?_⟩
  rcases hm with hdue | hprobed
  · exact due_or_probed_next hn hdue (hspares e he) hnext
  · exact inr (hprobed.next hnext)

/-- A dial of a demoted peer whose clock has run out is made quic-first. -/
theorem probed_of_due {n : ℕ} (hn : n ≤ s.dials.length) (hdemoted : s.DemotedAfter peerId now)
    (hdue : Due s.penalties.peers peerId now)
    (hnext : s.next isNodePeer (now, .dial peerId) = some s') : s'.Probed peerId n := by
  unfold State.next at hnext
  split at hnext
  · cases hnext
  cases hnext
  exact probed_of_append hn rfl ⟨rfl, Penalties.demoteDial_of_due hdemoted hdue⟩

/-- In every run, the demotion of the network is in force at a time exactly if two network nodes
have a deadline after it. And if a peer is dialed at `a` and at `b`, at least
`demotionProbeInterval` later, and the second dial finds it demoted by its own entry with the
evidence about it left alone in between, then one of its dials, from the first to the last, was made
quic-first. -/
theorem verdict_follows_evidence {events : List (ℕ × Event)}
    (hrun : run isNodePeer {} events = some s) :
    (∀ t, s.now ≤ t → (s.GlobalInForce t ↔
      ∃ p q, p ≠ q ∧ isNodePeer p ∧ isNodePeer q ∧ s.DemotedAfter p t ∧ s.DemotedAfter q t)) ∧
    ∀ (peerId : GoString) (before between : List (ℕ × Event)) (a b : ℕ) (first last : State),
      events = before ++ ((a, .dial peerId) :: between ++ [(b, .dial peerId)]) →
      run isNodePeer {} before = some first →
      run isNodePeer first ((a, .dial peerId) :: between) = some last →
      (∀ e ∈ between, e.2.Spares peerId) → a + demotionProbeInterval ≤ b →
      last.DemotedAfter peerId b →
      ∃ d ∈ s.dials.drop first.dials.length, d.peerId = peerId ∧ d.yamuxFirst = false := by
  refine ⟨(ok_of_run hrun).global, ?_⟩
  intro peerId before between a b first last hevents hfirst hlast hspares hab hdemoted
  -- the clock was set before the first dial, so it runs out before the last
  have hwait : first.now ≤ a := by
    by_contra hlt
    rw [run, List.foldlM_cons, State.next, if_pos (not_le.mp hlt)] at hlast
    cases hlast
  have hdue : Due first.penalties.peers peerId b :=
    ((ok_of_run hfirst).due peerId).mono (by omega)
  have hstep : last.next isNodePeer (b, .dial peerId) = some s := by
    rw [hevents, run, List.foldlM_append] at hrun
    obtain ⟨m, hm, hrun⟩ := Option.bind_eq_some_iff.mp hrun
    rw [show m = first from Option.some.inj (hm.symm.trans hfirst), List.foldlM_append] at hrun
    obtain ⟨m', hm', hrun⟩ := Option.bind_eq_some_iff.mp hrun
    rw [show m' = last from Option.some.inj (hm'.symm.trans hlast), List.foldlM_cons] at hrun
    obtain ⟨m'', hm'', hrun⟩ := Option.bind_eq_some_iff.mp hrun
    cases hrun
    exact hm''
  have hall : ∀ e ∈ (a, Event.dial peerId) :: between, e.2.Spares peerId := by
    intro e he
    rcases List.mem_cons.mp he with rfl | he
    · trivial
    · exact hspares e he
  obtain ⟨hlen, hdue | hprobed⟩ := due_or_probed_of_run hdue hall hlast
  · exact probed_of_due hlen hdemoted hdue hstep
  · exact hprobed.next hstep

/-- Two degraded outcomes of each of two peers. -/
def twoStrikes : List (ℕ × Event) :=
  [(1, .degraded [97] 0), (2, .degraded [97] 0), (3, .degraded [98] 5), (4, .degraded [98] 5)]

/-- Two nodes are demoted and with them the network; one of them is dialed, and ten minutes later it
is dialed again, quic-first. -/
theorem verdict_follows_evidence_sample :
    ∃ s first, run (fun _ => true) {} (twoStrikes ++
        ([(5, .dial [97])] ++ [(5 + demotionProbeInterval, .dial [97])])) = some s ∧
      run (fun _ => true) {} twoStrikes = some first ∧ s.GlobalInForce s.now ∧
      ∃ d ∈ s.dials.drop first.dials.length, d.peerId = [97] ∧ d.yamuxFirst = false := by
  obtain ⟨s, hs⟩ := Option.isSome_iff_exists.mp (show (run (fun _ => true) {} (twoStrikes ++
    ([(5, .dial [97])] ++ [(5 + demotionProbeInterval, .dial [97])]))).isSome by decide +kernel)
  obtain ⟨first, hfirst⟩ := Option.isSome_iff_exists.mp
    (show (run (fun _ => true) {} twoStrikes).isSome by decide +kernel)
  obtain ⟨last, hlast⟩ := Option.isSome_iff_exists.mp
    (show (run (fun _ => true) {} (twoStrikes ++ [(5, .dial [97])])).isSome by decide +kernel)
  have hrest : run (fun _ => true) first [(5, .dial [97])] = some last := by
    rw [run, List.foldlM_append] at hlast
    obtain ⟨m, hm, hlast⟩ := Option.bind_eq_some_iff.mp hlast
    rwa [show m = first from Option.some.inj (hm.symm.trans hfirst)] at hlast
  have hdemoted : (run (fun _ => true) {} (twoStrikes ++ [(5, .dial [97])])).any
      (fun s => decide (deadline s.penalties.peers [97] > 5 + demotionProbeInterval)) := by
    decide +kernel
  rw [hlast] at hdemoted
  have hforce : (run (fun _ => true) {} (twoStrikes ++
      ([(5, .dial [97])] ++ [(5 + demotionProbeInterval, .dial [97])]))).any
      (fun s => decide (deadline s.penalties.peers [97] > s.now ∧
        deadline s.penalties.peers [98] > s.now)) := by
    decide +kernel
  rw [hs] at hforce
  obtain ⟨hglobal, hprobes⟩ := verdict_follows_evidence hs
  refine ⟨s, first, hs, hfirst, (hglobal s.now le_rfl).mpr ⟨[97], [98], by decide, rfl, rfl, ?_⟩,
    ?_⟩
  · simpa [DemotedAfter] using hforce
  · exact hprobes [97] twoStrikes [] 5 (5 + demotionProbeInterval) first last rfl hfirst hrest
      (by simp) le_rfl (by simpa [DemotedAfter] using hdemoted)

/-! ## Demotions end -/

/-- Up to `now` the peer had a degraded outcome whose demotion, were it the longest, is not over at
`t`. -/
def Evidence (events : List (ℕ × Event)) (peerId : GoString) (now t : ℕ) : Prop :=
  ∃ te extra, (te, .degraded peerId extra) ∈ events ∧ te ≤ now ∧ t < te + demotionMaxTTL + extra

variable {events : List (ℕ × Event)}

/-- What a dial yamux-first rests on: evidence about its peer, or about two network nodes. -/
def Grounded (isNodePeer : GoString → Bool) (events : List (ℕ × Event)) (d : Dial) : Prop :=
  Evidence events d.peerId d.time d.time ∨ ∃ p q, p ≠ q ∧ isNodePeer p ∧ isNodePeer q ∧
    Evidence events p d.time d.time ∧ Evidence events q d.time d.time

/-- Every deadline that is to come has evidence behind it. -/
def Backed (events : List (ℕ × Event)) (now : ℕ) (peers : Peers) : Prop :=
  ∀ p t, now ≤ t → t < deadline peers p → Evidence events p now t

theorem Backed.wait {peers : Peers} (h : Backed events bound peers) (hle : bound ≤ now) :
    Backed events now peers := by
  intro p t ht hlt
  obtain ⟨te, extra, hmem, hte, hend⟩ := h p t (hle.trans ht) hlt
  exact ⟨te, extra, hmem, hte.trans hle, hend⟩

theorem Backed.prune {peers : Peers} (h : Backed events now peers) :
    Backed events now (prune peers now) :=
  fun p t ht hlt => h p t ht ((lt_deadline_prune_iff ht).mp hlt)

/-- A new penalty needs its evidence. -/
theorem Backed.insert {peers : Peers} {p : PeerPenalty} (h : Backed events now peers)
    (hp : ∀ t, now ≤ t → t < p.demotedUntil → Evidence events peerId now t) :
    Backed events now (peers.insert peerId p) := by
  intro q t ht hlt
  unfold deadline at hlt
  rw [GoMap.lookup_insert_eq] at hlt
  split at hlt
  · next heq => exact heq ▸ hp t ht hlt
  · exact h q t ht hlt

theorem Backed.registerHealthy {q : Penalties} (h : Backed events now q.peers) :
    Backed events now (q.registerHealthy isNodePeer peerId now).peers := by
  unfold Penalties.registerHealthy
  split
  · exact h
  intro p t ht hlt
  obtain ⟨pen, hpen, hlt⟩ := lt_deadline_iff.mp hlt
  rw [Penalties.peers_recomputeGlobal, GoMap.lookup_erase_eq] at hpen
  split at hpen
  · cases hpen
  · exact h p t ht (lt_deadline_iff.mpr ⟨pen, hpen, hlt⟩)

theorem Backed.demoteDial {q : Penalties} (h : Backed events now q.peers) :
    Backed events now (q.demoteDial peerId now).2.peers := by
  obtain ⟨p, hp, heq⟩ | ⟨hsame | hpruned, -⟩ := q.demoteDial_cases peerId now
  · -- a probe changes the clock, not the deadline
    rw [heq]
    exact h.prune.insert fun t ht hlt =>
      h.prune peerId t ht (lt_deadline_iff.mpr ⟨p, hp.lookup, hlt⟩)
  · rwa [hsame]
  · rw [hpruned]
    exact h.prune

/-- A strike sets no deadline later than the longest demotion from now. -/
theorem lt_strike {p : PeerPenalty} {extra t : ℕ} (h : t < (p.strike extra now).demotedUntil) :
    t < now + demotionMaxTTL + extra ∨ t < p.demotedUntil := by
  unfold PeerPenalty.strike at h
  extract_lets stale backoffLevel consecutiveDegraded at h
  split at h
  · left
    have hle : t < now + (min (doubled backoffLevel demotionBaseTTL) demotionMaxTTL + extra) := h
    omega
  · exact .inr h

/-- A dial is yamux-first for a penalty of the peer or of the network. -/
theorem demoteDial_eq_true {p : Penalties} (h : (p.demoteDial peerId now).1 = true) :
    now < deadline p.peers peerId ∨ now < p.globalUntil := by
  unfold Penalties.demoteDial at h
  dsimp only at h
  split_ifs at h with _ hdemoted _ hglobal
  · exact .inl ((lt_deadline_prune_iff le_rfl).mp hdemoted)
  · exact .inr hglobal

/-- What holds of the evidence after every event. -/
structure Justified (isNodePeer : GoString → Bool) (events : List (ℕ × Event)) (s : State) :
    Prop where
  ok : Ok isNodePeer s
  peers : Backed events s.now s.penalties.peers
  snapshots : ∀ snap ∈ s.snapshots, Backed events s.now snap.peers
  dials : ∀ d ∈ s.dials, d.yamuxFirst = true → Grounded isNodePeer events d

/-- Every event keeps it. -/
theorem Justified.next (h : Justified isNodePeer events s) (he : e ∈ events)
    (hnext : s.next isNodePeer e = some s') : Justified isNodePeer events s' := by
  have hok := h.ok.next hnext
  obtain ⟨now, e⟩ := e
  unfold State.next at hnext
  split at hnext
  · cases hnext
  next hle =>
  have hpeers := h.peers.wait (not_lt.mp hle)
  have hsnaps : ∀ snap ∈ s.snapshots, Backed events now snap.peers :=
    fun snap hsnap => (h.snapshots snap hsnap).wait (not_lt.mp hle)
  cases e with
  | degraded peerId extra =>
    cases hnext
    refine ⟨hok, hpeers.insert fun t ht hlt => ?_, hsnaps, h.dials⟩
    obtain hnew | hold := lt_strike hlt
    · exact ⟨now, extra, he, le_rfl, hnew⟩
    · exact hpeers peerId t ht hold
  | healthy peerId =>
    cases hnext
    exact ⟨hok, hpeers.registerHealthy, hsnaps, h.dials⟩
  | fallback peerId ok =>
    cases hnext
    refine ⟨hok, ?_, hsnaps, h.dials⟩
    show Backed events now (s.penalties.recordFallback isNodePeer peerId ok now).peers
    rwa [Penalties.peers_recordFallback]
  | dial peerId =>
    cases hnext
    refine ⟨hok, hpeers.demoteDial, hsnaps, fun d hd hfirst => ?_⟩
    rcases List.mem_append.mp hd with hd | hd
    · exact h.dials d hd hfirst
    · obtain rfl := List.mem_singleton.mp hd
      obtain hown | hglobal := demoteDial_eq_true hfirst
      · exact .inl (hpeers peerId now le_rfl hown)
      · -- the cached deadline stands for two nodes
        obtain ⟨p, q, hne, hp, hq, hlt, hlt'⟩ := (h.ok.global now (not_lt.mp hle)).mp hglobal
        exact .inr ⟨p, q, hne, hp, hq, hpeers p now le_rfl hlt, hpeers q now le_rfl hlt'⟩
  | query peerId =>
    cases hnext
    exact ⟨hok, hpeers.prune, hsnaps, h.dials⟩
  | snapshot =>
    cases hnext
    refine ⟨hok, hpeers.prune, fun snap hsnap => ?_, h.dials⟩
    rcases List.mem_append.mp hsnap with hsnap | hsnap
    · exact hsnaps snap hsnap
    · rw [List.mem_singleton.mp hsnap]
      exact hpeers.prune
  | seed i =>
    obtain ⟨snap, hsnap, hseed⟩ := Option.bind_eq_some_iff.mp hnext
    cases hseed
    refine ⟨hok, ?_, hsnaps, h.dials⟩
    show Backed events now (s.penalties.seed isNodePeer snap now).peers
    unfold Penalties.seed
    split
    · exact hpeers
    · exact hsnaps snap (List.mem_of_getElem? hsnap)
  | reset =>
    cases hnext
    exact ⟨hok, fun _ t _ hlt => absurd hlt t.not_lt_zero, hsnaps, h.dials⟩

/-- In every run a dial is made yamux-first only on degraded outcomes that are not older than the
longest demotion with its jitter, whatever was seeded, probed or cleared meanwhile. -/
theorem yamuxFirst_grounded (h : run isNodePeer {} events = some s) :
    ∀ d ∈ s.dials, d.yamuxFirst = true → Grounded isNodePeer events d := by
  have hinit : Justified isNodePeer events {} :=
    { ok := ok_init
      peers := fun _ t _ hlt => absurd hlt t.not_lt_zero
      snapshots := fun _ hsnap => by cases hsnap
      dials := fun _ hd => by cases hd }
  exact (foldlM_some_invariant (Justified isNodePeer events)
    (fun _ _ he _ hs hnext => hs.next he hnext) hinit h).dials

/-- After two strikes a peer is dialed yamux-first. -/
theorem yamuxFirst_grounded_sample :
    Grounded (fun _ => true) (twoStrikes ++ [(5, .dial [97])]) ⟨[97], 5, true⟩ := by
  have hcheck : (run (fun _ => true) {} (twoStrikes ++ [(5, .dial [97])])).any
      (fun s => decide (⟨[97], 5, true⟩ ∈ s.dials)) = true := by
    decide +kernel
  cases hrun : run (fun _ => true) {} (twoStrikes ++ [(5, .dial [97])]) with
  | none =>
    rw [hrun] at hcheck
    cases hcheck
  | some s =>
    rw [hrun] at hcheck
    exact yamuxFirst_grounded hrun _ (of_decide_eq_true hcheck) rfl

end State

end Node

end QuicDemotion
