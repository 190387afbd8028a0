import AnySync.Go.Run
import AnySync.Go.Sum
import AnySync.Pubsub.Trie
import Mathlib.Data.List.Induction

/-!
# Local subscriptions

`Subscribe`, the functions it returns, and the client side of `CloseSpace` in
`commonspace/pubsub/service.go`. All of them run under `localMu`, so a run is a sequence of calls.

The handlers themselves are not called here, so a subscription is its id.
-/

namespace Pubsub

open AList (lookup_insert lookup_erase lookup_insert_ne lookup_erase_ne keys)
open Option (getD_some getD_none map_some bind_none)
open PatternTrie (len)

/-- What the functions read of the configuration and the dependencies. -/
structure LocalConfig where
  /-- `MaxPatternsPerSpace`, which is positive after `withDefaults`. -/
  maxPatternsPerSpace : ℕ
  /-- Whether `deps.Peers` is set. -/
  peers : Bool

/-- The function that `Subscribe` returns, as the arguments of `unsubscribe`. -/
structure Unsubscriber where
  spaceId : GoString
  pattern : GoString
  id : ℕ
deriving DecidableEq

/-- The message of `sendInterest`. -/
structure Interest where
  spaceId : GoString
  patterns : List GoString
  subscribe : Bool
deriving DecidableEq

/-- The errors of `Subscribe`. -/
inductive SubscribeError
  | invalidTopic
  | tooManyTopics
deriving DecidableEq

/-- The fields of `service` for local subscriptions, the functions that were returned so far, and
which of them have been called. -/
structure Local where
  localTrie : GoMap GoString PatternTrie
  localSubs : GoMap GoString (GoMap GoString (List ℕ))
  nextSubId : ℕ
  localTopic : GoMap GoString ℤ
  returned : List Unsubscriber
  called : List ℕ

namespace Local

def init : Local where
  localTrie := ∅
  localSubs := ∅
  nextSubId := 0
  localTopic := ∅
  returned := []
  called := []

/-- `localSubs[spaceId][pattern]`. -/
def handlers (s : Local) (spaceId pattern : GoString) : List ℕ :=
  ((s.localSubs.lookup spaceId).bind (·.lookup pattern)).getD []

/-- `localTopic[spaceId]`. -/
def topic (s : Local) (spaceId : GoString) : ℤ := (s.localTopic.lookup spaceId).getD 0

/-- `sendInterest`, without the transport. -/
def sendInterest (cfg : LocalConfig) (spaceId : GoString) (patterns : List GoString)
    (subscribe : Bool) : List Interest :=
  if cfg.peers then [{ spaceId, patterns, subscribe }] else []

/-- The trie and the handlers of a space, which `Subscribe` makes if they are missing. -/
def ofSpace (s : Local) (spaceId : GoString) : PatternTrie × GoMap GoString (List ℕ) :=
  match s.localTrie.lookup spaceId with
  | some trie => (trie, (s.localSubs.lookup spaceId).getD ∅)
  | none => (.new, ∅)

/-- `Subscribe`. -/
def subscribe (cfg : LocalConfig) (s : Local) (spaceId pattern : GoString) :
    Except SubscribeError (Local × List Interest) :=
  if validatePattern pattern = false then .error .invalidTopic
  else if (cfg.maxPatternsPerSpace : ℤ) ≤ s.topic spaceId then .error .tooManyTopics
  else
    let (trie, subs) := s.ofSpace spaceId
    let id := (s.nextSubId + 1) % 2 ^ 64
    let old := (subs.lookup pattern).getD []
    -- `firstForPattern` is `old = []`
    .ok ({ s with
      localTrie := s.localTrie.insert spaceId (if old = [] then (trie.add pattern).1 else trie)
      localSubs := s.localSubs.insert spaceId (subs.insert pattern (old ++ [id]))
      nextSubId := id
      localTopic :=
        if old = [] then s.localTopic.insert spaceId (s.topic spaceId + 1) else s.localTopic
      returned := s.returned ++ [⟨spaceId, pattern, id⟩] },
      if old = [] then sendInterest cfg spaceId [pattern] true else [])

/-- `unsubscribe`. -/
def unsubscribe (cfg : LocalConfig) (s : Local) (f : Unsubscriber) : Local × List Interest :=
  let subs := (s.handlers f.spaceId f.pattern).erase f.id
  if subs = [] then
    let localSubs := match s.localSubs.lookup f.spaceId with
      | some m => s.localSubs.insert f.spaceId (m.erase f.pattern)
      | none => s.localSubs
    let sent := sendInterest cfg f.spaceId [f.pattern] false
    match s.localTrie.lookup f.spaceId with
    | none => ({ s with localSubs := localSubs }, sent)
    | some trie =>
      let trie := (trie.remove f.pattern).1
      if trie.len = 0 then
        ({ s with
          localTrie := s.localTrie.erase f.spaceId
          localSubs := localSubs.erase f.spaceId
          localTopic := s.localTopic.erase f.spaceId }, sent)
      else
        ({ s with
          localTrie := s.localTrie.insert f.spaceId trie
          localSubs := localSubs
          localTopic := s.localTopic.insert f.spaceId (s.topic f.spaceId - 1) }, sent)
  else
    ({ s with
      localSubs := s.localSubs.insert f.spaceId
        (((s.localSubs.lookup f.spaceId).getD ∅).insert f.pattern subs) }, [])

/-- The client side of `CloseSpace`. -/
def closeSpace (cfg : LocalConfig) (s : Local) (spaceId : GoString) : Local × List Interest :=
  let patterns := ((s.localSubs.lookup spaceId).map keys).getD []
  ({ s with
    localTrie := s.localTrie.erase spaceId
    localSubs := s.localSubs.erase spaceId
    localTopic := s.localTopic.erase spaceId },
    if patterns = [] then [] else sendInterest cfg spaceId patterns false)

end Local

/-- A call. The functions that were returned are counted from 0. -/
inductive LocalCall
  | subscribe (spaceId pattern : GoString)
  | unsubscribe (k : ℕ)
  | closeSpace (spaceId : GoString)
deriving DecidableEq

/-- Whether a call is one of `Subscribe`. -/
def LocalCall.isSubscribe : LocalCall → Bool
  | .subscribe _ _ => true
  | _ => false

namespace Local

variable {spaceId pattern : GoString} {cap k : ℕ} {t : PatternTrie} {m : GoMap GoString (List ℕ)}
  {l : List ℕ} {r : Local × List Interest} {f : Unsubscriber} {s' : Local}
  {g : GoString → List ℕ → List ℕ} {call : LocalCall}

/-- The function `k` is called. -/
def markCalled (s : Local) (k : ℕ) : Local := { s with called := k :: s.called }

/-- A call: the state after it and what it sends. -/
def step (cfg : LocalConfig) (s : Local) : LocalCall → Local × List Interest
  | .subscribe spaceId pattern =>
    match s.subscribe cfg spaceId pattern with
    | .ok r => r
    | .error _ => (s, [])
  | .unsubscribe k =>
    match s.returned[k]? with
    | some f => unsubscribe cfg (s.markCalled k) f
    | none => (s, [])
  | .closeSpace spaceId => s.closeSpace cfg spaceId

/-- The state after some calls. -/
def run (cfg : LocalConfig) (calls : List LocalCall) : Local :=
  calls.foldl (fun s call => (s.step cfg call).1) init

/-! ## What is counted -/

/-- The patterns of a space with a handler. -/
def patterns (s : Local) (spaceId : GoString) : List GoString :=
  ((s.localSubs.lookup spaceId).map keys).getD [] |>.filter
    fun pattern => s.handlers spaceId pattern ≠ []

/-- The size of the local trie of a space. -/
def trieLen (s : Local) (spaceId : GoString) : ℕ :=
  ((s.localTrie.lookup spaceId).map len).getD 0

/-- The counter of every space is the number of its patterns and the size of its trie, and within
the cap. -/
def Counted (cfg : LocalConfig) (s : Local) : Prop :=
  ∀ spaceId, s.topic spaceId = (s.patterns spaceId).length ∧
    s.trieLen spaceId = (s.patterns spaceId).length ∧
    (s.patterns spaceId).length ≤ cfg.maxPatternsPerSpace

/-- The maps have the same entries. -/
def Same (s s' : Local) : Prop :=
  s'.nextSubId = s.nextSubId ∧ s'.localTrie = s.localTrie ∧ s'.localTopic = s.localTopic ∧
    ∀ spaceId pattern, (s'.localSubs.lookup spaceId).map (·.lookup pattern) =
      (s.localSubs.lookup spaceId).map (·.lookup pattern)

/-- What a call should do: the counters are right after it, and a function that is called again
changes nothing and sends nothing. -/
def Correct (cfg : LocalConfig) (s : Local) (call : LocalCall) : Prop :=
  (s.step cfg call).1.Counted cfg ∧
    ∀ k, call = .unsubscribe k → k ∈ s.called →
      Same s (s.step cfg call).1 ∧ (s.step cfg call).2 = []

/-- When a call does that: a function is called while its pattern has a handler; or its space has
no subscriptions, and it is the first call or there are no peers. -/
def Meets (cfg : LocalConfig) (s : Local) : LocalCall → Prop
  | .subscribe _ _ => True
  | .unsubscribe k =>
    ∀ f, s.returned[k]? = some f → s.handlers f.spaceId f.pattern ≠ [] ∨
      s.localTrie.lookup f.spaceId = none ∧ (k ∉ s.called ∨ cfg.peers = false)
  | .closeSpace _ => True

/-! ## The spaces -/

/-- The trie and the handlers of a space with subscriptions. -/
structure Opened (cap : ℕ) (t : PatternTrie) (m : GoMap GoString (List ℕ)) : Prop where
  represents : t.Represents (m.keys : Multiset GoString)
  ne_nil : m.keys ≠ []
  subs : ∀ pattern, m.lookup pattern ≠ some []
  cap : m.keys.length ≤ cap

/-- What the three maps have for a space. -/
def SpaceInv (cap : ℕ) (t : Option PatternTrie) (m : Option (GoMap GoString (List ℕ)))
    (n : Option ℤ) : Prop :=
  (t = none ∧ m = none ∧ n = none) ∨
    ∃ t' m', t = some t' ∧ m = some m' ∧ n = some (m'.keys.length : ℤ) ∧ Opened cap t' m'

/-- The invariant: every space is right, and ids are not used twice. -/
structure Inv (cfg : LocalConfig) (s : Local) : Prop where
  space : ∀ spaceId, SpaceInv cfg.maxPatternsPerSpace (s.localTrie.lookup spaceId)
    (s.localSubs.lookup spaceId) (s.localTopic.lookup spaceId)
  nodup : ∀ spaceId pattern, (s.handlers spaceId pattern).Nodup
  bound : ∀ spaceId pattern, ∀ id ∈ s.handlers spaceId pattern, id ≤ s.nextSubId
  returned : ∀ f ∈ s.returned, f.id ≤ s.nextSubId
  called : ∀ k ∈ s.called, ∃ f, s.returned[k]? = some f ∧ f.id ∉ s.handlers f.spaceId f.pattern

variable {cfg : LocalConfig} {s : Local}

theorem SpaceInv.patterns
    (h : SpaceInv cap (s.localTrie.lookup spaceId) (s.localSubs.lookup spaceId)
      (s.localTopic.lookup spaceId)) :
    s.patterns spaceId = ((s.localSubs.lookup spaceId).map keys).getD [] := by
  rw [Local.patterns, List.filter_eq_self]
  intro pattern hmem
  rcases h with ⟨-, hm, -⟩ | ⟨t, m, -, hm, -, hopen⟩
  · simp [hm] at hmem
  · have hmem : pattern ∈ m := AList.mem_keys.mpr (by simpa [hm] using hmem)
    obtain ⟨l, hl⟩ := Option.isSome_iff_exists.mp (AList.lookup_isSome.mpr hmem)
    have hne : l ≠ [] := fun h => hopen.subs pattern (h ▸ hl)
    simpa [handlers, hm, hl] using hne

/-- The counters follow from the invariant. -/
theorem Inv.counted (h : s.Inv cfg) : s.Counted cfg := by
  intro spaceId
  have hspace := h.space spaceId
  rw [hspace.patterns, topic, trieLen]
  rcases hspace with ⟨ht, hm, hn⟩ | ⟨t, m, ht, hm, hn, hopen⟩
  · simp [ht, hm, hn]
  · have hlen : t.len = m.keys.length := by
      rw [len, hopen.represents.size]
      exact List.toFinset_card_of_nodup m.nodupKeys
    simp [ht, hm, hn, hlen, hopen.cap]

/-! ## The calls -/

/-- The handlers of a pattern are replaced. -/
theorem Opened.insert (h : Opened cap t m) (hmem : pattern ∈ m) (hl : l ≠ []) :
    Opened cap t (m.insert pattern l) ∧ (m.insert pattern l).keys.length = m.keys.length := by
  have hperm := GoMap.keys_insert_of_mem (v := l) hmem
  refine ⟨⟨?_, ?_, ?_, ?_⟩, hperm.length_eq⟩
  · rw [Multiset.coe_eq_coe.mpr hperm]
    exact h.represents
  · intro hnil
    exact h.ne_nil (List.perm_nil.mp (hnil ▸ hperm.symm))
  · intro pattern'
    rw [GoMap.lookup_insert_eq]
    split
    · simpa using hl
    · exact h.subs pattern'
  · rw [hperm.length_eq]
    exact h.cap

/-- A pattern gets its first handler. -/
theorem opened_add (hrep : t.Represents (m.keys : Multiset GoString))
    (hsubs : ∀ pattern, m.lookup pattern ≠ some []) (hcap : m.keys.length < cap)
    (hmem : pattern ∉ m) (hl : l ≠ []) : Opened cap (t.add pattern).1 (m.insert pattern l) := by
  have hkeys := GoMap.keys_insert_of_notMem (v := l) hmem
  refine ⟨?_, ?_, ?_, ?_⟩
  · rw [hkeys]
    exact hrep.add pattern
  · simp [hkeys]
  · intro pattern'
    rw [GoMap.lookup_insert_eq]
    split
    · simpa using hl
    · exact hsubs pattern'
  · simp [hkeys]
    omega

/-- A pattern loses its last handler. -/
theorem Opened.remove (h : Opened cap t m) (hmem : pattern ∈ m) :
    ((t.remove pattern).1.len = 0 ↔ (m.erase pattern).keys = []) ∧
      ((m.erase pattern).keys.length : ℤ) = m.keys.length - 1 ∧
      ((m.erase pattern).keys ≠ [] → Opened cap (t.remove pattern).1 (m.erase pattern)) := by
  have hlen := GoMap.length_keys_erase hmem
  have hrep := h.represents.remove pattern
  rw [Multiset.coe_erase, ← AList.keys_erase] at hrep
  refine ⟨?_, ?_, fun hne => ⟨hrep, hne, ?_, ?_⟩⟩
  · rw [len, hrep.size, Finset.card_eq_zero, Multiset.toFinset_eq_empty, Multiset.coe_eq_zero]
  · omega
  · intro pattern'
    rw [GoMap.lookup_erase_eq]
    split
    · simp
    · exact h.subs pattern'
  · have hcap := h.cap
    omega

/-- A call changes the maps of one space, and its handlers as `g` says. -/
structure Changes (cfg : LocalConfig) (s s' : Local) (spaceId : GoString)
    (g : GoString → List ℕ → List ℕ) : Prop where
  space : SpaceInv cfg.maxPatternsPerSpace (s'.localTrie.lookup spaceId)
    (s'.localSubs.lookup spaceId) (s'.localTopic.lookup spaceId)
  handlers : ∀ pattern, s'.handlers spaceId pattern = g pattern (s.handlers spaceId pattern)
  other : ∀ spaceId', spaceId' ≠ spaceId →
    s'.localTrie.lookup spaceId' = s.localTrie.lookup spaceId' ∧
    s'.localSubs.lookup spaceId' = s.localSubs.lookup spaceId' ∧
    s'.localTopic.lookup spaceId' = s.localTopic.lookup spaceId'

theorem handlers_eq (hm : s.localSubs.lookup spaceId = some m) (pattern : GoString) :
    s.handlers spaceId pattern = (m.lookup pattern).getD [] := by
  rw [handlers, hm, Option.bind_some]

/-- What `Subscribe` finds or makes for a space. -/
theorem Inv.ofSpace (h : s.Inv cfg) (spaceId : GoString) :
    ∃ t m, s.ofSpace spaceId = (t, m) ∧ t.Represents (m.keys : Multiset GoString) ∧
      (∀ pattern, m.lookup pattern ≠ some []) ∧ s.topic spaceId = m.keys.length ∧
      (∀ pattern, s.handlers spaceId pattern = (m.lookup pattern).getD []) ∧
      (m.keys ≠ [] → Opened cfg.maxPatternsPerSpace t m ∧
        s.localTopic.lookup spaceId = some (m.keys.length : ℤ)) := by
  rcases h.space spaceId with ⟨ht, hm, hn⟩ | ⟨t, m, ht, hm, hn, hopen⟩
  · refine ⟨.new, ∅, by rw [Local.ofSpace, ht], PatternTrie.represents_new, ?_, ?_, ?_, ?_⟩
    · simp
    · simp [topic, hn]
    · simp [handlers, hm]
    · exact fun hne => absurd rfl hne
  · refine ⟨t, m, ?_, hopen.represents, hopen.subs, ?_, handlers_eq hm, fun _ => ⟨hopen, hn⟩⟩
    · rw [Local.ofSpace, ht, hm, getD_some]
    · rw [topic, hn, getD_some]

theorem Inv.changes_subscribe (h : s.Inv cfg) (hr : s.subscribe cfg spaceId pattern = .ok r) :
    Changes cfg s r.1 spaceId
      (fun pattern' l => if pattern' = pattern then l ++ [(s.nextSubId + 1) % 2 ^ 64] else l) ∧
      r.1.nextSubId = (s.nextSubId + 1) % 2 ^ 64 ∧
      r.1.returned = s.returned ++ [⟨spaceId, pattern, (s.nextSubId + 1) % 2 ^ 64⟩] ∧
      r.1.called = s.called := by
  obtain ⟨t, m, hof, hrep, hsubs, htopic, hhandlers, hopened⟩ := h.ofSpace spaceId
  rw [subscribe] at hr
  split at hr
  · cases hr
  split at hr
  · cases hr
  next hcap =>
  rw [htopic] at hcap hr
  simp only [hof] at hr
  cases hr
  have hl : ∀ l : List ℕ, l ++ [(s.nextSubId + 1) % 2 ^ 64] ≠ [] := by simp
  refine ⟨⟨?_, ?_, ?_⟩, rfl, rfl, rfl⟩
  · right
    refine ⟨_, _, lookup_insert _, lookup_insert _, ?_⟩
    by_cases hold : (m.lookup pattern).getD [] = []
    · -- the pattern is new
      have hnot : pattern ∉ m := by
        intro hmem
        obtain ⟨l, hlookup⟩ := Option.isSome_iff_exists.mp (AList.lookup_isSome.mpr hmem)
        rw [hlookup, getD_some] at hold
        exact hsubs pattern (hold ▸ hlookup)
      simp only [if_pos hold, lookup_insert]
      refine ⟨?_, opened_add hrep hsubs (by omega) hnot (hl _)⟩
      rw [GoMap.keys_insert_of_notMem hnot]
      simp
    · have hmem : pattern ∈ m := by
        by_contra hnot
        exact hold (by rw [AList.lookup_eq_none.mpr hnot, getD_none])
      obtain ⟨hopen, hn⟩ := hopened (List.ne_nil_of_mem (AList.mem_keys.mp hmem))
      obtain ⟨hopen', hlen⟩ := hopen.insert hmem (hl ((m.lookup pattern).getD []))
      simp only [if_neg hold]
      exact ⟨by rw [hn, hlen], hopen'⟩
  · intro pattern'
    rw [handlers_eq (lookup_insert _), hhandlers, GoMap.lookup_insert_eq]
    split
    · next heq => rw [heq, getD_some]
    · rfl
  · intro spaceId' hne
    refine ⟨lookup_insert_ne hne, lookup_insert_ne hne, ?_⟩
    dsimp only
    split
    · exact lookup_insert_ne hne
    · rfl

/-- The call of a function whose space has no subscriptions. -/
theorem unsubscribe_of_closed (ht : s.localTrie.lookup f.spaceId = none)
    (hm : s.localSubs.lookup f.spaceId = none) :
    s.unsubscribe cfg f = (s, sendInterest cfg f.spaceId [f.pattern] false) := by
  simp [unsubscribe, handlers, ht, hm]

theorem unsubscribe_frame (cfg : LocalConfig) (s : Local) (f : Unsubscriber) :
    (s.unsubscribe cfg f).1.nextSubId = s.nextSubId ∧
      (s.unsubscribe cfg f).1.returned = s.returned ∧
      (s.unsubscribe cfg f).1.called = s.called := by
  unfold unsubscribe
  dsimp only
  split
  · split
    · exact ⟨rfl, rfl, rfl⟩
    · split <;> exact ⟨rfl, rfl, rfl⟩
  · exact ⟨rfl, rfl, rfl⟩

/-- The call of a function whose pattern has a handler: its own is removed. -/
theorem changes_unsubscribe
    (hspace : SpaceInv cfg.maxPatternsPerSpace (s.localTrie.lookup f.spaceId)
      (s.localSubs.lookup f.spaceId) (s.localTopic.lookup f.spaceId))
    (hne : s.handlers f.spaceId f.pattern ≠ []) :
    Changes cfg s (s.unsubscribe cfg f).1 f.spaceId
      (fun pattern l => if pattern = f.pattern then l.erase f.id else l) := by
  rcases hspace with ⟨-, hm, -⟩ | ⟨t, m, ht, hm, hn, hopen⟩
  · simp [handlers, hm] at hne
  have hhandlers := handlers_eq hm
  have hmem : f.pattern ∈ m := by
    by_contra hnot
    exact hne (by rw [hhandlers, AList.lookup_eq_none.mpr hnot, getD_none])
  by_cases hlast : (s.handlers f.spaceId f.pattern).erase f.id = []
  · obtain ⟨hlen, hcount, hopen'⟩ := hopen.remove hmem
    simp only [unsubscribe, hlast, if_true, hm, ht, hlen]
    by_cases hempty : (m.erase f.pattern).keys = []
    · -- the last pattern of the space
      simp only [hempty, if_true]
      refine ⟨.inl ⟨lookup_erase .., lookup_erase .., lookup_erase ..⟩, ?_, ?_⟩
      · intro pattern
        rw [handlers, lookup_erase, bind_none, getD_none]
        split
        · next heq => rw [heq, hlast]
        · next hne' =>
          have hnot : pattern ∉ m := by
            intro hin
            have hkey : pattern ∈ m.erase f.pattern := AList.mem_erase.mpr ⟨hne', hin⟩
            rw [AList.mem_keys, hempty] at hkey
            cases hkey
          rw [hhandlers, AList.lookup_eq_none.mpr hnot, getD_none]
      · intro spaceId' hne'
        refine ⟨lookup_erase_ne hne', ?_, lookup_erase_ne hne'⟩
        rw [lookup_erase_ne hne', lookup_insert_ne hne']
    · simp only [hempty, if_false]
      refine ⟨.inr ⟨_, _, lookup_insert _, lookup_insert _, ?_, hopen' hempty⟩, ?_, ?_⟩
      · rw [lookup_insert, topic, hn, getD_some, hcount]
      · intro pattern
        rw [handlers_eq (lookup_insert _), GoMap.lookup_erase_eq]
        split
        · next heq => rw [heq, hlast, getD_none]
        · rw [hhandlers]
      · intro spaceId' hne'
        exact ⟨lookup_insert_ne hne', lookup_insert_ne hne', lookup_insert_ne hne'⟩
  · simp only [unsubscribe, hlast, if_false, hm, getD_some]
    obtain ⟨hopen', hlen⟩ := hopen.insert hmem hlast
    refine ⟨.inr ⟨_, _, ht, lookup_insert _, by rw [hn, hlen], hopen'⟩, ?_, ?_⟩
    · intro pattern
      rw [handlers_eq (lookup_insert _), GoMap.lookup_insert_eq]
      split
      · next heq => rw [heq, getD_some]
      · rw [hhandlers]
    · intro spaceId' hne'
      exact ⟨rfl, lookup_insert_ne hne', rfl⟩

theorem changes_closeSpace (cfg : LocalConfig) (s : Local) (spaceId : GoString) :
    Changes cfg s (s.closeSpace cfg spaceId).1 spaceId (fun _ _ => []) where
  space := .inl ⟨lookup_erase .., lookup_erase .., lookup_erase ..⟩
  handlers pattern := by
    rw [Local.handlers, closeSpace, lookup_erase, bind_none, getD_none]
  other spaceId' hne :=
    ⟨lookup_erase_ne hne, lookup_erase_ne hne, lookup_erase_ne hne⟩

theorem Changes.handlers_of_ne {spaceId' : GoString} (h : Changes cfg s s' spaceId g)
    (hne : spaceId' ≠ spaceId) (pattern : GoString) :
    s'.handlers spaceId' pattern = s.handlers spaceId' pattern := by
  rw [Local.handlers, (h.other spaceId' hne).2.1, Local.handlers]

/-- A call that adds no handler keeps the invariant. -/
theorem Inv.of_changes (h : s.Inv cfg) (hchanges : Changes cfg s s' spaceId g)
    (hg : ∀ pattern l, (g pattern l).Sublist l) (hnext : s'.nextSubId = s.nextSubId)
    (hreturned : s'.returned = s.returned)
    (hcalled : ∀ k ∈ s'.called, ∃ f, s.returned[k]? = some f ∧
      f.id ∉ s'.handlers f.spaceId f.pattern) : s'.Inv cfg where
  space spaceId' := by
    by_cases heq : spaceId' = spaceId
    · rw [heq]
      exact hchanges.space
    · obtain ⟨ht, hm, hn⟩ := hchanges.other spaceId' heq
      rw [ht, hm, hn]
      exact h.space spaceId'
  nodup spaceId' pattern := by
    by_cases heq : spaceId' = spaceId
    · rw [heq, hchanges.handlers]
      exact (h.nodup spaceId pattern).sublist (hg _ _)
    · rw [hchanges.handlers_of_ne heq]
      exact h.nodup spaceId' pattern
  bound spaceId' pattern id hid := by
    rw [hnext]
    by_cases heq : spaceId' = spaceId
    · rw [heq, hchanges.handlers] at hid
      exact h.bound spaceId pattern id ((hg _ _).subset hid)
    · rw [hchanges.handlers_of_ne heq] at hid
      exact h.bound spaceId' pattern id hid
  returned f hf := by
    rw [hnext]
    exact h.returned f (hreturned ▸ hf)
  called k hk := by
    rw [hreturned]
    exact hcalled k hk

theorem inv_init (cfg : LocalConfig) : init.Inv cfg where
  space _ := .inl ⟨rfl, rfl, rfl⟩
  nodup _ _ := List.nodup_nil
  bound _ _ _ hid := absurd hid List.not_mem_nil
  returned _ hf := absurd hf List.not_mem_nil
  called _ hk := absurd hk List.not_mem_nil

section

variable (h : s.Inv cfg)

include h

theorem Inv.subs_of_trie (ht : s.localTrie.lookup spaceId = none) :
    s.localSubs.lookup spaceId = none := by
  rcases h.space spaceId with ⟨-, hm, -⟩ | ⟨t, m, ht', -⟩
  · exact hm
  · rw [ht] at ht'
    cases ht'

/-! ## Runs -/

/-- `Subscribe` keeps the invariant, as long as the ids do not start again. -/
theorem Inv.subscribe (hr : s.subscribe cfg spaceId pattern = .ok r)
    (hwrap : s.nextSubId + 1 < 2 ^ 64) : r.1.Inv cfg := by
  obtain ⟨hchanges, hnext, hreturned, hcalled⟩ := h.changes_subscribe hr
  rw [Nat.mod_eq_of_lt hwrap] at hchanges hnext hreturned
  -- a new id, or one that was there before
  have hmem : ∀ spaceId' pattern' id, id ∈ r.1.handlers spaceId' pattern' →
      id = s.nextSubId + 1 ∨ id ∈ s.handlers spaceId' pattern' := by
    intro spaceId' pattern' id hid
    by_cases heq : spaceId' = spaceId
    · subst heq
      rw [hchanges.handlers] at hid
      split at hid
      · simpa [or_comm] using hid
      · exact .inr hid
    · rw [hchanges.handlers_of_ne heq] at hid
      exact .inr hid
  refine ⟨?_, ?_, ?_, ?_, ?_⟩
  · intro spaceId'
    by_cases heq : spaceId' = spaceId
    · rw [heq]
      exact hchanges.space
    · obtain ⟨ht, hm, hn⟩ := hchanges.other spaceId' heq
      rw [ht, hm, hn]
      exact h.space spaceId'
  · intro spaceId' pattern'
    by_cases heq : spaceId' = spaceId
    · subst heq
      rw [hchanges.handlers]
      split
      · refine (h.nodup _ _).append (List.nodup_singleton _) ?_
        intro id hid hid'
        have hle := h.bound _ _ id hid
        simp only [List.mem_singleton] at hid'
        omega
      · exact h.nodup _ _
    · rw [hchanges.handlers_of_ne heq]
      exact h.nodup _ _
  · intro spaceId' pattern' id hid
    rw [hnext]
    rcases hmem _ _ _ hid with rfl | hid
    · exact le_rfl
    · exact (h.bound _ _ _ hid).trans (Nat.le_succ _)
  · intro f hf
    rw [hreturned, List.mem_append, List.mem_singleton] at hf
    rw [hnext]
    rcases hf with hf | rfl
    · exact (h.returned f hf).trans (Nat.le_succ _)
    · exact le_rfl
  · intro k hk
    rw [hcalled] at hk
    obtain ⟨f, hf, hnot⟩ := h.called k hk
    refine ⟨f, ?_, fun hin => ?_⟩
    · rw [hreturned, List.getElem?_append_left (List.getElem?_eq_some_iff.mp hf).1]
      exact hf
    · have hle := h.returned f (List.mem_of_getElem? hf)
      rcases hmem _ _ _ hin with heq | hin
      · omega
      · exact hnot hin

/-- A call of a function that meets the condition keeps the invariant. -/
theorem Inv.unsubscribe (hf : s.returned[k]? = some f)
    (hok : s.handlers f.spaceId f.pattern ≠ [] ∨ s.localTrie.lookup f.spaceId = none) :
    (Local.unsubscribe cfg (s.markCalled k) f).1.Inv cfg := by
  by_cases hne : s.handlers f.spaceId f.pattern = []
  · -- nothing changes
    have ht := hok.resolve_left (not_not.mpr hne)
    have hm := h.subs_of_trie ht
    rw [unsubscribe_of_closed (s := s.markCalled k) ht hm]
    refine ⟨h.space, h.nodup, h.bound, h.returned, ?_⟩
    intro k' hk'
    rcases List.mem_cons.mp hk' with rfl | hk'
    · refine ⟨f, hf, fun hin => ?_⟩
      have hin : f.id ∈ s.handlers f.spaceId f.pattern := hin
      rw [hne] at hin
      cases hin
    · exact h.called k' hk'
  · obtain ⟨hnext, hreturned, hcalled⟩ :=
      unsubscribe_frame cfg (s.markCalled k) f
    have hc := changes_unsubscribe (s := s.markCalled k) (h.space f.spaceId) hne
    have hchanges : Changes cfg s (Local.unsubscribe cfg (s.markCalled k) f).1 f.spaceId
        (fun pattern l => if pattern = f.pattern then l.erase f.id else l) :=
      ⟨hc.space, hc.handlers, hc.other⟩
    have hsublist : ∀ pattern (l : List ℕ),
        (if pattern = f.pattern then l.erase f.id else l).Sublist l := by
      intro pattern l
      split
      · exact List.erase_sublist
      · exact List.Sublist.refl l
    refine h.of_changes hchanges hsublist hnext hreturned ?_
    intro k' hk'
    rw [hcalled] at hk'
    rcases List.mem_cons.mp hk' with rfl | hk'
    · refine ⟨f, hf, ?_⟩
      rw [hchanges.handlers, if_pos rfl]
      exact (h.nodup _ _).not_mem_erase
    · obtain ⟨f', hf', hnot⟩ := h.called k' hk'
      refine ⟨f', hf', fun hin => hnot ?_⟩
      by_cases heq : f'.spaceId = f.spaceId
      · rw [heq, hchanges.handlers] at hin
        rw [heq]
        exact (hsublist _ _).subset hin
      · rwa [hchanges.handlers_of_ne heq] at hin

/-- A call that meets the condition keeps the invariant. -/
theorem Inv.step (hok : s.Meets cfg call)
    (hwrap : ∀ spaceId pattern, call = .subscribe spaceId pattern → s.nextSubId + 1 < 2 ^ 64) :
    (s.step cfg call).1.Inv cfg := by
  cases call with
  | subscribe spaceId pattern =>
    rw [Local.step]
    split
    · next r hr => exact h.subscribe hr (hwrap _ _ rfl)
    · exact h
  | unsubscribe k =>
    rw [Local.step]
    split
    · next f hf => exact h.unsubscribe hf ((hok f hf).imp_right And.left)
    · exact h
  | closeSpace spaceId =>
    refine h.of_changes (changes_closeSpace cfg s spaceId) (fun _ l => l.nil_sublist) rfl rfl ?_
    intro k hk
    obtain ⟨f, hf, hnot⟩ := h.called k hk
    refine ⟨f, hf, fun hin => hnot ?_⟩
    by_cases heq : f.spaceId = spaceId
    · rw [heq] at hin
      have hhandlers := (changes_closeSpace cfg s spaceId).handlers f.pattern
      rw [Local.step, hhandlers] at hin
      cases hin
    · rwa [Local.step, (changes_closeSpace cfg s spaceId).handlers_of_ne heq] at hin

/-- A function that is called again while its pattern has a handler. -/
theorem Inv.unsubscribe_again (hf : s.returned[k]? = some f) (hk : k ∈ s.called)
    (hne : s.handlers f.spaceId f.pattern ≠ []) :
    Same s (Local.unsubscribe cfg (s.markCalled k) f).1 ∧
      (Local.unsubscribe cfg (s.markCalled k) f).2 = [] := by
  -- its id is not among the handlers any more
  have hnot : f.id ∉ s.handlers f.spaceId f.pattern := by
    obtain ⟨f', hf', hnot⟩ := h.called k hk
    rw [hf] at hf'
    cases hf'
    exact hnot
  have hsubs : ((s.markCalled k).handlers f.spaceId f.pattern).erase f.id =
      s.handlers f.spaceId f.pattern := List.erase_of_not_mem hnot
  simp only [Local.unsubscribe, hsubs, hne, if_false]
  refine ⟨⟨rfl, rfl, rfl, ?_⟩, trivial⟩
  intro spaceId pattern
  rcases h.space f.spaceId with ⟨-, hm, -⟩ | ⟨t, m, -, hm, -⟩
  · simp [handlers, hm] at hne
  · rw [GoMap.lookup_insert_eq]
    by_cases hspace : spaceId = f.spaceId
    · have hm' : (s.markCalled k).localSubs.lookup f.spaceId = some m := hm
      rw [if_pos hspace, hspace, hm, hm', map_some, map_some, getD_some, GoMap.lookup_insert_eq]
      split
      · next hpattern =>
        rw [handlers_eq hm] at hne ⊢
        rw [hpattern]
        cases hl : m.lookup f.pattern with
        | none => simp [hl] at hne
        | some l => rfl
      · rfl
    · rw [if_neg hspace]
      rfl

/-- A function that is called while its pattern has no handler but its space has others: the
counter goes down although the trie keeps its size. -/
theorem Inv.not_counted_unsubscribe (hnil : s.handlers f.spaceId f.pattern = [])
    (ht : s.localTrie.lookup f.spaceId ≠ none) :
    ¬ (Local.unsubscribe cfg (s.markCalled k) f).1.Counted cfg := by
  intro hcounted
  rcases h.space f.spaceId with ⟨ht', -⟩ | ⟨t, m, ht', hm, hn, hopen⟩
  · exact ht ht'
  have hnot : f.pattern ∉ m := by
    intro hmem
    obtain ⟨l, hl⟩ := Option.isSome_iff_exists.mp (AList.lookup_isSome.mpr hmem)
    rw [handlers_eq hm, hl, getD_some] at hnil
    exact hopen.subs f.pattern (hnil ▸ hl)
  have hlen : (t.remove f.pattern).1.len = m.keys.length := by
    have hrep := hopen.represents.remove f.pattern
    rw [Multiset.erase_of_notMem (mt AList.mem_keys.mpr hnot)] at hrep
    rw [len, hrep.size]
    exact List.toFinset_card_of_nodup m.nodupKeys
  have hpos : m.keys.length ≠ 0 := mt List.length_eq_zero_iff.mp hopen.ne_nil
  obtain ⟨htopic, htrie, -⟩ := hcounted f.spaceId
  have hsubs : ((s.markCalled k).handlers f.spaceId f.pattern).erase f.id = [] := by
    change (s.handlers f.spaceId f.pattern).erase f.id = []
    rw [hnil]
    rfl
  have ht'' : (s.markCalled k).localTrie.lookup f.spaceId = some t := ht'
  have hn' : (s.markCalled k).topic f.spaceId = m.keys.length := by
    change s.topic f.spaceId = _
    rw [topic, hn, getD_some]
  rw [← htrie] at htopic
  simp only [Local.unsubscribe, hsubs, if_true, ht'', hlen, hpos, if_false, topic, trieLen,
    lookup_insert, getD_some, map_some] at htopic
  rw [topic] at hn'
  omega

/-- The condition is the right one. -/
theorem Inv.meets_iff_correct
    (hwrap : ∀ spaceId pattern, call = .subscribe spaceId pattern → s.nextSubId + 1 < 2 ^ 64) :
    s.Meets cfg call ↔ s.Correct cfg call := by
  constructor
  · intro hok
    refine ⟨(h.step hok hwrap).counted, ?_⟩
    rintro k rfl hk
    obtain ⟨f, hf, -⟩ := h.called k hk
    simp only [Local.step, hf]
    rcases hok f hf with hne | ⟨ht, hfirst⟩
    · exact h.unsubscribe_again hf hk hne
    · have hm := h.subs_of_trie ht
      rw [unsubscribe_of_closed (s := s.markCalled k) ht hm, sendInterest,
        hfirst.resolve_left (not_not.mpr hk)]
      exact ⟨⟨rfl, rfl, rfl, fun _ _ => rfl⟩, rfl⟩
  · rintro ⟨hcounted, hagain⟩
    cases call with
    | subscribe spaceId pattern => trivial
    | closeSpace spaceId => trivial
    | unsubscribe k =>
      intro f hf
      by_contra hnot
      rw [not_or, not_not] at hnot
      obtain ⟨hnil, hbad⟩ := hnot
      simp only [Local.step, hf] at hcounted hagain
      by_cases ht : s.localTrie.lookup f.spaceId = none
      · -- it is called again, and sends a message
        have hm := h.subs_of_trie ht
        simp only [ht, true_and, not_or, not_not, Bool.not_eq_false] at hbad
        have hsent := (hagain k rfl hbad.1).2
        rw [unsubscribe_of_closed (s := s.markCalled k) ht hm, sendInterest, if_pos hbad.2] at hsent
        cases hsent
      · exact h.not_counted_unsubscribe hnil ht hcounted

end

theorem nextSubId_run_le (cfg : LocalConfig) (calls : List LocalCall) :
    (run cfg calls).nextSubId ≤ calls.countP LocalCall.isSubscribe := by
  induction calls using List.reverseRecOn with
  | nil => exact le_rfl
  | append_singleton calls call ih =>
    rw [run, List.foldl_concat, List.countP_append, List.countP_singleton]
    change ((run cfg calls).step cfg call).1.nextSubId ≤ _
    cases call with
    | subscribe spaceId pattern =>
      rw [Local.step]
      split
      · next r hr =>
        rw [subscribe] at hr
        split at hr
        · cases hr
        split at hr
        · cases hr
        cases hr
        have hle := Nat.mod_le ((run cfg calls).nextSubId + 1) (2 ^ 64)
        simp only [LocalCall.isSubscribe, if_true]
        omega
      · exact ih.trans (Nat.le_add_right _ _)
    | unsubscribe k =>
      rw [Local.step]
      split
      · rw [(unsubscribe_frame cfg _ _).1]
        exact ih
      · exact ih
    | closeSpace spaceId => exact ih

/-- In a run whose calls meet the condition the invariant holds. -/
theorem inv_run {calls : List LocalCall} (hwrap : calls.countP LocalCall.isSubscribe < 2 ^ 64)
    (hok : ∀ before call after, calls = before ++ call :: after → (run cfg before).Meets cfg call) :
    (run cfg calls).Inv cfg := by
  induction calls using List.reverseRecOn with
  | nil => exact inv_init cfg
  | append_singleton calls call ih =>
    rw [List.countP_append, List.countP_singleton] at hwrap
    obtain ⟨hbefore, hlast⟩ := forall_split_concat.mp hok
    rw [run, List.foldl_concat]
    apply (ih (by omega) hbefore).step hlast
    rintro spaceId pattern rfl
    have hle := nextSubId_run_le cfg calls
    simp only [LocalCall.isSubscribe, if_true] at hwrap
    omega

/-- In a run with less than `2 ^ 64` calls of `Subscribe`, the calls do what they should (after
each the counter of a space is the number of its patterns with a handler, the size of its trie and
within the cap, and a function that is called again changes and sends nothing) exactly if each
call meets the condition. -/
theorem local_calls_correct_iff (cfg : LocalConfig) {calls : List LocalCall}
    (hwrap : calls.countP LocalCall.isSubscribe < 2 ^ 64) :
    (∀ before call after, calls = before ++ call :: after → (run cfg before).Correct cfg call) ↔
      ∀ before call after, calls = before ++ call :: after →
        (run cfg before).Meets cfg call := by
  induction calls using List.reverseRecOn with
  | nil => simp
  | append_singleton calls call ih =>
    rw [List.countP_append, List.countP_singleton] at hwrap
    rw [forall_split_concat, forall_split_concat, ih (by omega)]
    refine and_congr_right fun hok => ?_
    refine ((inv_run (by omega) hok).meets_iff_correct ?_).symm
    rintro spaceId pattern rfl
    have hle := nextSubId_run_le cfg calls
    simp only [LocalCall.isSubscribe, if_true] at hwrap
    omega

/-- A function is called twice while its pattern has another handler. -/
theorem local_calls_correct_sample :
    Correct { maxPatternsPerSpace := 2, peers := true }
      (run { maxPatternsPerSpace := 2, peers := true }
        ([] ++ [.subscribe [115] [97]] ++ [.subscribe [115] [97]] ++ [.unsubscribe 0]))
      (.unsubscribe 0) := by
  have hlast : ∀ {s : Local}, s.returned[0]? = some ⟨[115], [97], 1⟩ → s.handlers [115] [97] ≠ [] →
      s.Meets { maxPatternsPerSpace := 2, peers := true } (.unsubscribe 0) := by
    intro s hreturned hne f hf
    rw [hreturned] at hf
    cases hf
    exact .inl hne
  refine (@local_calls_correct_iff _ ([] ++ [.subscribe [115] [97]] ++ [.subscribe [115] [97]] ++
    [.unsubscribe 0] ++ [.unsubscribe 0]) (by decide)).mpr ?_ _ _ [] rfl
  simp only [forall_split_concat, List.nil_eq, List.append_eq_nil_iff, reduceCtorEq, and_false,
    false_implies, implies_true, true_and]
  exact ⟨⟨⟨trivial, trivial⟩, hlast (by decide +kernel) (by decide +kernel)⟩,
    hlast (by decide +kernel) (by decide +kernel)⟩

/-- The patterns `a` and `b` are subscribed and the function for `a` is called twice: the second
call sends a message, and the counter is 0 where one pattern is left. Then the cap of two does not
hold any more. -/
theorem unsubscribe_twice_miscounts :
    ∃ cfg : LocalConfig, cfg.maxPatternsPerSpace = 2 ∧
      ∃ s : Local,
        s = run cfg [.subscribe [115] [97], .subscribe [115] [98], .unsubscribe 0] ∧
        (s.step cfg (.unsubscribe 0)).2 = [⟨[115], [[97]], false⟩] ∧
        (s.step cfg (.unsubscribe 0)).1.topic [115] = 0 ∧
        (s.step cfg (.unsubscribe 0)).1.patterns [115] = [[98]] ∧
        (run cfg [.subscribe [115] [97], .subscribe [115] [98], .unsubscribe 0, .unsubscribe 0,
          .subscribe [115] [97], .subscribe [115] [99]]).trieLen [115] = 3 := by
  refine ⟨{ maxPatternsPerSpace := 2, peers := true }, rfl, _, rfl, ?_⟩
  decide +kernel

end Local

end Pubsub
