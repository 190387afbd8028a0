import AnySync.Go.Numbers
import AnySync.Pubsub.Dedup
import AnySync.Pubsub.Local
import AnySync.Pubsub.Match

/-!
# Messages that are delivered

The receive path of a client in `commonspace/pubsub/service.go`, with the signed bytes of `sign.go`:
publish frames of any peer are filtered, verified and put in a queue, from which the local handlers
are called. On a client `deps.Relay` is nil.

The keys and signatures are a parameter. What the membership check and the decryption answer may
change with time, so a frame comes with the answers of that time.

`Client.delivered_authentic` says what is known of every message that is delivered. The client's own
messages count among those that its cache of ids holds.
-/

namespace Pubsub

open List (append_assoc replicate mem_cons_self append_inj)
open Prod (fst)
open Or (inl inr)

/-! ## Owned topics -/

variable {rest : GoString} {n : ℕ}

/-- `accNamespace`, which is `"acc"`. -/
def accNamespace : GoString := [97, 99, 99]

/-- `TopicOwner`. -/
def topicOwner (topic : GoString) : GoString :=
  let segs := splitTopic topic
  if segs.length < 2 ∨ segs.head? ≠ some accNamespace then [] else segs.getLast?.getD []

/-- What follows the last slash. -/
def lastSegment (topic : GoString) : GoString := (topic.reverse.takeWhile (· ≠ slash)).reverse

theorem lastSegment_append {last : GoString} (h : slash ∉ last) :
    lastSegment (rest ++ slash :: last) = last := by
  have hall : ∀ b ∈ last.reverse, decide (b ≠ slash) = true := by
    intro b hb
    simp only [decide_eq_true_eq]
    rintro rfl
    exact h (List.mem_reverse.mp hb)
  rw [lastSegment, List.reverse_append, List.reverse_cons, append_assoc,
    List.takeWhile_append_of_pos hall]
  simp

/-- A topic that was split at every slash ends with its last segment. -/
theorem exists_eq_append_of_splitLoop (hlen : (splitLoop n rest).length ≤ n) :
    ∃ last, (splitLoop n rest).getLast? = some last ∧ slash ∉ last ∧
      (rest = last ∨ ∃ init, rest = init ++ slash :: last) := by
  induction n generalizing rest with
  | zero => simp [splitLoop] at hlen
  | succ n ih =>
    rw [splitLoop] at hlen ⊢
    split at hlen
    · next hidx =>
      refine ⟨rest, rfl, fun hmem => ?_, inl rfl⟩
      have hno := List.findIdx?_eq_none_iff.mp hidx slash hmem
      simp at hno
    · next idx hidx =>
      obtain ⟨last, hlast, hslash, hrest⟩ := ih (Nat.le_of_succ_le_succ hlen)
      obtain ⟨hlt, hat, -⟩ := List.findIdx?_eq_some_iff_getElem.mp hidx
      have hat : rest[idx] = slash := by simpa using hat
      have hsplit : rest = rest.take idx ++ slash :: rest.drop (idx + 1) := by
        rw [← hat, List.cons_getElem_drop_succ, List.take_append_drop]
      refine ⟨last, ?_, hslash, inr ?_⟩
      · rw [List.getLast?_cons_of_ne_nil (splitLoop_ne_nil _ _), hlast]
      · rcases hrest with hrest | ⟨init, hinit⟩
        · exact ⟨rest.take idx, by rw [← hrest]; exact hsplit⟩
        · refine ⟨rest.take idx ++ slash :: init, ?_⟩
          rw [append_assoc, List.cons_append, ← hinit]
          exact hsplit

/-- A topic under `acc/` is owned by the account after its last slash. -/
theorem topicOwner_eq {topic : GoString} (hvalid : validateTopic topic = true)
    (hacc : accNamespace ++ [slash] <+: topic) :
    topicOwner topic = lastSegment topic ∧ topicOwner topic ≠ [] := by
  obtain ⟨rest, rfl⟩ := hacc
  simp only [validateTopic, validateSegments, Bool.and_eq_true, decide_eq_true_eq,
    List.all_eq_true] at hvalid
  obtain ⟨⟨⟨-, -, hlen⟩, hne⟩, -⟩ := hvalid
  have hsegs : splitTopic (accNamespace ++ [slash] ++ rest) =
      accNamespace :: splitLoop 15 rest := by
    simp [splitTopic, maxSegments, splitLoop, accNamespace, slash, List.findIdx?_cons]
  rw [hsegs] at hlen hne
  obtain ⟨last, hlast, hslash, hrest⟩ := exists_eq_append_of_splitLoop (Nat.le_of_succ_le_succ hlen)
  have howner : topicOwner (accNamespace ++ [slash] ++ rest) = last := by
    have hpos := List.length_pos_of_ne_nil (splitLoop_ne_nil 15 rest)
    rw [topicOwner, hsegs]
    rw [if_neg, List.getLast?_cons_of_ne_nil (splitLoop_ne_nil _ _), hlast, Option.getD_some]
    rintro (hshort | hhead)
    · rw [List.length_cons] at hshort
      omega
    · exact hhead rfl
  rw [howner]
  refine ⟨?_, hne last (List.mem_cons_of_mem _ (List.mem_of_getLast? hlast))⟩
  rcases hrest with rfl | ⟨init, rfl⟩
  · rw [append_assoc, List.singleton_append, lastSegment_append hslash]
  · rw [← append_assoc, lastSegment_append hslash]

/-! ## The signed bytes -/

/-- `Publish`, as it comes over the wire. -/
structure Publish where
  spaceId : GoString
  topic : GoString
  msgId : Bytes
  keyId : GoString
  payload : Bytes
  identity : Bytes
  signature : Bytes
  timestampMilli : Int64
  relayed : Bool
deriving DecidableEq

/-- The fields that are signed. -/
structure Fields where
  spaceId : GoString
  topic : GoString
  msgId : Bytes
  keyId : GoString
  timestampMilli : Int64
  payload : Bytes
deriving DecidableEq

def Publish.fields (p : Publish) : Fields where
  spaceId := p.spaceId
  topic := p.topic
  msgId := p.msgId
  keyId := p.keyId
  timestampMilli := p.timestampMilli
  payload := p.payload

/-- `signPrefix`, which is `"anysync:pubsub:v1"`. -/
def signHead : Bytes :=
  [97, 110, 121, 115, 121, 110, 99, 58, 112, 117, 98, 115, 117, 98, 58, 118, 49]

/-- `binary.LittleEndian.AppendUint32` and `AppendUint64`, on nothing. -/
def littleEndian (len n : ℕ) : Bytes := (bytesOfNat len n).reverse

/-- A field with its length before it. -/
def lengthed (f : Bytes) : Bytes := littleEndian 4 f.length ++ f

/-- `publishSignData`. -/
def publishSignData (f : Fields) : Bytes :=
  signHead ++ lengthed f.spaceId ++ lengthed f.topic ++ lengthed f.msgId ++ lengthed f.keyId ++
    littleEndian 8 f.timestampMilli.toUInt64.toNat ++ f.payload

@[simp]
theorem length_littleEndian (len n : ℕ) : (littleEndian len n).length = len := by
  simp [littleEndian, bytesOfNat]

theorem littleEndian_inj {len m : ℕ} (hm : m < 256 ^ len) (hn : n < 256 ^ len)
    (h : littleEndian len m = littleEndian len n) : m = n := by
  have hbytes : bytesOfNat len m = bytesOfNat len n := List.reverse_injective h
  rcases lt_trichotomy m n with hlt | heq | hlt
  · exact absurd ((bytesOfNat_lt_iff hm hn).mpr hlt) (hbytes ▸ lt_irrefl _)
  · exact heq
  · exact absurd ((bytesOfNat_lt_iff hn hm).mpr hlt) (hbytes ▸ lt_irrefl _)

/-- A field can be read off, if its length fits. -/
theorem lengthed_append_inj {a b x y : Bytes} (ha : a.length < 2 ^ 32) (hb : b.length < 2 ^ 32)
    (h : lengthed a ++ x = lengthed b ++ y) : a = b ∧ x = y := by
  rw [lengthed, lengthed, append_assoc, append_assoc] at h
  obtain ⟨hlen, hrest⟩ := append_inj h (by simp)
  have hlen' : a.length = b.length := littleEndian_inj (by norm_num; omega)
      (by norm_num; omega) hlen
  exact append_inj hrest hlen'

/-- The fields that have a length are shorter than the signed bytes. -/
theorem length_publishSignData (f : Fields) :
    (publishSignData f).length = 41 + f.spaceId.length + f.topic.length + f.msgId.length +
      f.keyId.length + f.payload.length := by
  simp only [publishSignData, lengthed, signHead, List.length_append, length_littleEndian,
    List.length_cons, List.length_nil]
  omega

/-- Different fields have different signed bytes, unless the bytes do not fit in 4 GiB. -/
theorem publishSignData_injective {f f' : Fields} (hlen : (publishSignData f).length < 2 ^ 32)
    (h : publishSignData f = publishSignData f') : f = f' := by
  have hlen' : (publishSignData f').length < 2 ^ 32 := h ▸ hlen
  rw [length_publishSignData] at hlen hlen'
  simp only [publishSignData, append_assoc] at h
  have h := List.append_cancel_left h
  obtain ⟨hspace, h⟩ := lengthed_append_inj (by omega) (by omega) h
  obtain ⟨htopic, h⟩ := lengthed_append_inj (by omega) (by omega) h
  obtain ⟨hmsg, h⟩ := lengthed_append_inj (by omega) (by omega) h
  obtain ⟨hkey, h⟩ := lengthed_append_inj (by omega) (by omega) h
  obtain ⟨htime, hpayload⟩ := append_inj h (by simp)
  have htime' := littleEndian_inj (UInt64.toNat_lt _) (UInt64.toNat_lt _) htime
  obtain ⟨s, t, m, k, ⟨ts⟩, p⟩ := f
  obtain ⟨s', t', m', k', ⟨ts'⟩, p'⟩ := f'
  obtain rfl : ts = ts' := UInt64.toNat_inj.mp htime'
  simp_all

/-! ## The receive path of a client -/

/-- Public keys and signatures. -/
structure Keys (K : Type) where
  /-- `UnmarshalEd25519PublicKeyProto`. -/
  unmarshal : Bytes → Option K
  verify : K → Bytes → Bytes → Bool
  /-- `Account`. -/
  account : K → GoString

/-- What the receive path reads of the configuration and the dependencies. -/
structure ClientConfig where
  loc : LocalConfig
  maxPayloadSize : ℕ
  dispatchQueueSize : ℕ
  dedupSize : ℕ
  /-- `withDefaults` makes it positive. -/
  dedupSize_pos : 0 < dedupSize
  /-- `MaxTimestampSkew`, in milliseconds. -/
  maxTimestampSkew : Int64
  /-- Whether `deps.Membership` is set. -/
  membership : Bool
  /-- Whether `deps.Crypto` is set. -/
  crypto : Bool

/-- A frame, with what the dependencies answer and the clock shows when it is handled. -/
structure Received (K : Type) where
  p : Publish
  checkMember : GoString → K → Bool
  decrypt : GoString → GoString → Bytes → Option Bytes
  now : Int64

/-- `dispatchItem`. For a message that was received, also the frame and its number among the
messages whose ids were recorded. -/
structure Item (K : Type) where
  patterns : List GoString
  spaceId : GoString
  topic : GoString
  identity : K
  payload : Bytes
  source : Option (ℕ × Received K)

/-- The state, and the ids that were recorded and the items that were delivered so far, these with
the handlers that were called. -/
structure Client (K : Type) where
  loc : Local
  dedup : MsgIdDedup
  dispatch : List (Item K)
  recorded : List Bytes
  delivered : List (Item K × List ℕ)

inductive ClientAct (K : Type)
  | localCall (call : LocalCall)
  | handlePublish (r : Received K)
  /-- `Publish`, once the message has an id and is signed. -/
  | publish (identity : K) (spaceId topic : GoString) (payload msgId : Bytes)
  /-- A round of `dispatchLoop`. -/
  | dispatchOne

/-- The `ErrCodes` that `handlePublish` sends. -/
inductive ErrCode
  | invalidMessage
  | invalidTopic
deriving DecidableEq, Repr

namespace Client

variable {K : Type} (keys : Keys K) (cfg : ClientConfig)

def init : Client K where
  loc := Local.init
  dedup := MsgIdDedup.new cfg.dedupSize
  dispatch := []
  recorded := []
  delivered := []

/-- `isStale`, where the subtraction wraps around. -/
def isStale (timestampMilli now : Int64) : Bool :=
  if timestampMilli = 0 then false
  else
    let delta := now - timestampMilli
    decide (delta > cfg.maxTimestampSkew) || decide (delta < -cfg.maxTimestampSkew)

/-- The patterns of local subscriptions that match. -/
def matched (c : Client K) (spaceId topic : GoString) : List GoString :=
  match c.loc.localTrie.lookup spaceId with
  | some trie => trie.matchTopic topic []
  | none => []

/-- `enqueueLocalMatched`. -/
def enqueueLocalMatched (c : Client K) (item : Item K) : Client K :=
  if c.dispatch.length < cfg.dispatchQueueSize then { c with dispatch := c.dispatch ++ [item] }
  else c

/-- `dedup.seen`. -/
def seen (c : Client K) (msgId : Bytes) : Bool × Client K :=
  let r := c.dedup.seen msgId
  (r.1, { c with dedup := r.2, recorded := if r.1 then c.recorded else c.recorded ++ [msgId] })

/-- The payload that is delivered. -/
def plain (r : Received K) : Option Bytes :=
  if r.p.keyId = [] then some r.p.payload
  else if cfg.crypto then r.decrypt r.p.spaceId r.p.keyId r.p.payload
  else none

/-- `receivePublish`. -/
def receivePublish (c : Client K) (r : Received K) : Client K :=
  let patterns := c.matched r.p.spaceId r.p.topic
  if patterns = [] then c
  else
    match keys.unmarshal r.p.identity with
    | none => c
    | some identity =>
      let owner := topicOwner r.p.topic
      if cfg.membership ∧ r.checkMember r.p.spaceId identity = false then c
      else if owner ≠ [] ∧ keys.account identity ≠ owner then c
      else if isStale cfg r.p.timestampMilli r.now then c
      else if keys.verify identity (publishSignData r.p.fields) r.p.signature = false then c
      else
        let number := c.recorded.length
        let s := c.seen r.p.msgId
        if s.1 then s.2
        else
          match plain cfg r with
          | none => s.2
          | some payload =>
            s.2.enqueueLocalMatched cfg
              { patterns := patterns
                spaceId := r.p.spaceId
                topic := r.p.topic
                identity := identity
                payload := payload
                source := some (number, r) }

/-- `handlePublish` on a client: the state after it, and the status that is sent. -/
def handlePublish (c : Client K) (r : Received K) : Client K × Option ErrCode :=
  if r.p.msgId.length ≠ msgIdLen ∨ r.p.payload.length > cfg.maxPayloadSize then
    (c, some .invalidMessage)
  else if validateTopic r.p.topic = false then (c, some .invalidTopic)
  else (c.receivePublish keys cfg r, none)

/-- The end of `Publish`: the id is recorded, whether it was there or not, and the message is put in
the queue for the local handlers. -/
def publish (c : Client K) (identity : K) (spaceId topic : GoString) (payload msgId : Bytes) :
    Client K :=
  let c := (c.seen msgId).2
  let patterns := c.matched spaceId topic
  if patterns = [] then c
  else
    c.enqueueLocalMatched cfg
      { patterns := patterns
        spaceId := spaceId
        topic := topic
        identity := identity
        payload := payload
        source := none }

/-- A round of `dispatchLoop`, if there is something in the queue. -/
def dispatchOne (c : Client K) : Client K :=
  match c.dispatch with
  | [] => c
  | item :: rest =>
    { c with
      dispatch := rest
      delivered := c.delivered ++
        [(item, item.patterns.flatMap fun pattern => c.loc.handlers item.spaceId pattern)] }

/-- A frame, a message of the client's own, a call of the local api, or a round of the dispatch
loop. -/
def step (c : Client K) : ClientAct K → Client K
  | .localCall call => { c with loc := (c.loc.step cfg.loc call).1 }
  | .handlePublish r => (c.handlePublish keys cfg r).1
  | .publish identity spaceId topic payload msgId =>
    if msgId.length = msgIdLen then c.publish cfg identity spaceId topic payload msgId else c
  | .dispatchOne => c.dispatchOne

def run (acts : List (ClientAct K)) : Client K := acts.foldl (step keys cfg) (init cfg)

/-! ## What is delivered -/

/-- What is in the queue or delivered for a frame. -/
structure Authentic (signedBy : K → Set Bytes) (r : Received K) (item : Item K) : Prop where
  spaceId : item.spaceId = r.p.spaceId
  topic : item.topic = r.p.topic
  identity : keys.unmarshal r.p.identity = some item.identity
  payload : plain cfg r = some item.payload
  /-- The owner of the identity signed the fields of the frame. -/
  signed : publishSignData r.p.fields ∈ signedBy item.identity
  member : cfg.membership = true → r.checkMember item.spaceId item.identity = true
  owner : accNamespace ++ [slash] <+: item.topic →
    keys.account item.identity = lastSegment item.topic

variable {keys cfg} {signedBy : K → Set Bytes} {c : Client K} {acts : List (ClientAct K)}

/-- A frame that is put in the queue has passed every check. -/
theorem handlePublish_cases
    (hverify : ∀ k data sig, keys.verify k data sig = true → data ∈ signedBy k) (c : Client K)
    (r : Received K) :
    (c.handlePublish keys cfg r).1 = c ∨
      r.p.msgId.length = msgIdLen ∧
        ((c.handlePublish keys cfg r).1 = (c.seen r.p.msgId).2 ∨
          (c.seen r.p.msgId).1 = false ∧
            ∃ item : Item K, item.source = some (c.recorded.length, r) ∧
              Authentic keys cfg signedBy r item ∧
              (c.handlePublish keys cfg r).1 =
                (c.seen r.p.msgId).2.enqueueLocalMatched cfg item) := by
  -- the checks in the order of the source, each with an early return
  unfold handlePublish
  split
  · exact inl rfl
  next hlen =>
  rw [not_or, not_not] at hlen
  split
  · exact inl rfl
  next hvalid =>
  rw [Bool.not_eq_false] at hvalid
  unfold receivePublish
  dsimp only
  split
  · exact inl rfl
  split
  · exact inl rfl
  next identity hidentity =>
  split
  · exact inl rfl
  next hmember =>
  split
  · exact inl rfl
  next howner =>
  split
  · exact inl rfl
  split
  · exact inl rfl
  next hsig =>
  -- from here on the id is recorded
  refine inr ⟨hlen.1, ?_⟩
  split
  · exact inl rfl
  next hseen =>
  split
  · exact inl rfl
  next payload hpayload =>
  refine inr ⟨by simpa using hseen, _, rfl, ⟨rfl, rfl, hidentity, hpayload, ?_, ?_, ?_⟩, rfl⟩
  · exact hverify _ _ _ (by simpa using hsig)
  · intro hset
    simpa [hset] using hmember
  · intro hacc
    obtain ⟨heq, hne⟩ := topicOwner_eq hvalid hacc
    rw [← heq]
    by_contra haccount
    exact howner ⟨hne, haccount⟩

variable (keys cfg signedBy) in
/-- What holds after every step. -/
structure Ok (acts : List (ClientAct K)) (c : Client K) : Prop where
  recent : c.dedup.Recent cfg.dedupSize c.recorded
  /-- What is delivered and then what is in the queue, where it was received. -/
  authentic : ∀ item ∈ c.delivered.map fst ++ c.dispatch, ∀ n r, item.source = some (n, r) →
    .handlePublish r ∈ acts ∧ c.recorded[n]? = some r.p.msgId ∧ Authentic keys cfg signedBy r item
  /-- The numbers go up. -/
  sorted : ((c.delivered.map fst ++ c.dispatch).filterMap fun item =>
    item.source.map fst).Pairwise (· < ·)
  bounded : ∀ n ∈ (c.delivered.map fst ++ c.dispatch).filterMap fun item =>
    item.source.map fst, n < c.recorded.length

theorem Ok.localCall (h : Ok keys cfg signedBy acts c) (loc : Local) :
    Ok keys cfg signedBy acts { c with loc := loc } :=
  { h with }

theorem recorded_seen (c : Client K) (msgId : Bytes) :
    (c.seen msgId).2.recorded =
      if (c.seen msgId).1 then c.recorded else c.recorded ++ [msgId] := rfl

/-- An id is recorded, or it was there. -/
theorem Ok.seen (h : Ok keys cfg signedBy acts c) {msgId : Bytes} (hlen : msgId.length = msgIdLen) :
    Ok keys cfg signedBy acts (c.seen msgId).2 := by
  have hlog : ∃ l, (c.seen msgId).2.recorded = c.recorded ++ l := by
    rw [recorded_seen]
    split
    · exact ⟨[], (List.append_nil _).symm⟩
    · exact ⟨[msgId], rfl⟩
  obtain ⟨l, hl⟩ := hlog
  refine ⟨?_, fun item hitem n r hr => ?_, h.sorted, fun n hn => ?_⟩
  · rcases h.recent.seen cfg.dedupSize_pos hlen with ⟨hseen, hsame⟩ | ⟨hseen, hrecent⟩
    · change (c.seen msgId).1 = true at hseen
      rw [recorded_seen, if_pos hseen]
      change (c.dedup.seen msgId).2.Recent _ _
      rw [hsame]
      exact h.recent
    · change (c.seen msgId).1 = false at hseen
      rw [recorded_seen, if_neg (by simpa using hseen)]
      exact hrecent
  · obtain ⟨hmem, hget, hauth⟩ := h.authentic item hitem n r hr
    refine ⟨hmem, ?_, hauth⟩
    rw [hl, List.getElem?_append_left (List.getElem?_eq_some_iff.mp hget).1, hget]
  · rw [hl, List.length_append]
    exact Nat.lt_add_right _ (h.bounded n hn)

theorem Ok.enqueue (h : Ok keys cfg signedBy acts c) {item : Item K}
    (hsource : ∀ n r, item.source = some (n, r) → .handlePublish r ∈ acts ∧
      c.recorded[n]? = some r.p.msgId ∧ Authentic keys cfg signedBy r item ∧
      ∀ m ∈ (c.delivered.map fst ++ c.dispatch).filterMap fun item => item.source.map fst,
        m < n) : Ok keys cfg signedBy acts (c.enqueueLocalMatched cfg item) := by
  unfold enqueueLocalMatched
  split
  · refine ⟨h.recent, fun i hi n r hr => ?_, ?_, fun n hn => ?_⟩
    · rw [← append_assoc, List.mem_append, List.mem_singleton] at hi
      rcases hi with hi | rfl
      · exact h.authentic i hi n r hr
      · exact ⟨(hsource n r hr).1, (hsource n r hr).2.1, (hsource n r hr).2.2.1⟩
    · rw [← append_assoc, List.filterMap_append, List.pairwise_append]
      refine ⟨h.sorted, ?_, fun m hm n hn => ?_⟩
      · cases hitem : item.source <;> simp [hitem]
      · obtain ⟨i, hi, hn⟩ := List.mem_filterMap.mp hn
        rw [List.mem_singleton.mp hi, Option.map_eq_some_iff] at hn
        obtain ⟨⟨n', r⟩, hr, rfl⟩ := hn
        exact (hsource n' r hr).2.2.2 m hm
    · rw [← append_assoc, List.filterMap_append, List.mem_append] at hn
      rcases hn with hn | hn
      · exact h.bounded n hn
      · obtain ⟨i, hi, hn⟩ := List.mem_filterMap.mp hn
        rw [List.mem_singleton.mp hi, Option.map_eq_some_iff] at hn
        obtain ⟨⟨n', r⟩, hr, rfl⟩ := hn
        exact (List.getElem?_eq_some_iff.mp (hsource n' r hr).2.1).1
  · exact h

/-- A round of the dispatch loop moves the first message. -/
theorem Ok.dispatchOne (h : Ok keys cfg signedBy acts c) :
    Ok keys cfg signedBy acts c.dispatchOne := by
  unfold Client.dispatchOne
  split
  · exact h
  next item rest hdispatch =>
  -- the two lists together stay the same
  have hsame : (c.delivered ++ [(item, item.patterns.flatMap fun pattern =>
      c.loc.handlers item.spaceId pattern)]).map fst ++ rest =
      c.delivered.map fst ++ c.dispatch := by
    rw [hdispatch, List.map_append, append_assoc]
    rfl
  refine ⟨h.recent, ?_, ?_, ?_⟩
  · intro i hi
    rw [hsame] at hi
    exact h.authentic i hi
  · rw [hsame]
    exact h.sorted
  · rw [hsame]
    exact h.bounded

theorem Ok.step (hverify : ∀ k data sig, keys.verify k data sig = true → data ∈ signedBy k)
    (h : Ok keys cfg signedBy acts c) {a : ClientAct K} (ha : a ∈ acts) :
    Ok keys cfg signedBy acts (c.step keys cfg a) := by
  cases a with
  | localCall call => exact h.localCall _
  | handlePublish r =>
    change Ok keys cfg signedBy acts (c.handlePublish keys cfg r).1
    rcases handlePublish_cases hverify c r with heq | ⟨hlen, heq | ⟨hseen, item, hitem, hauth, heq⟩⟩
    · rw [heq]
      exact h
    · rw [heq]
      exact h.seen hlen
    · rw [heq]
      refine (h.seen hlen).enqueue fun n r' hr => ?_
      rw [hitem] at hr
      cases hr
      refine ⟨ha, ?_, hauth, h.bounded⟩
      rw [recorded_seen, if_neg (by simpa using hseen), List.getElem?_concat_length]
  | publish identity spaceId topic payload msgId =>
    change Ok keys cfg signedBy acts
      (if msgId.length = msgIdLen then c.publish cfg identity spaceId topic payload msgId else c)
    split
    · next hlen =>
      unfold Client.publish
      dsimp only
      split
      · exact h.seen hlen
      · exact (h.seen hlen).enqueue fun n r hr => by cases hr
    · exact h
  | dispatchOne => exact h.dispatchOne

/-- Two deliveries of one id are more than the size of the cache apart. -/
theorem Ok.pairwise (h : Ok keys cfg signedBy acts c) :
    c.delivered.Pairwise fun d d' => ∀ x ∈ d.1.source, ∀ x' ∈ d'.1.source,
      x.2.p.msgId = x'.2.p.msgId → x.1 + cfg.dedupSize < x'.1 := by
  have hsorted := h.sorted
  rw [List.pairwise_filterMap, List.pairwise_append, List.pairwise_map] at hsorted
  refine hsorted.1.imp_of_mem fun {d d'} hd hd' hlt x hx x' hx' heq => ?_
  have hnumber : x.1 < x'.1 :=
    hlt x.1 (Option.map_eq_some_iff.mpr ⟨x, hx, rfl⟩) x'.1
      (Option.map_eq_some_iff.mpr ⟨x', hx', rfl⟩)
  have hget := (h.authentic d.1 (List.mem_append_left _ (List.mem_map_of_mem hd)) x.1 x.2 hx).2.1
  have hget' :=
    (h.authentic d'.1 (List.mem_append_left _ (List.mem_map_of_mem hd')) x'.1 x'.2 hx').2.1
  by_contra hnear
  refine h.recent.apart x.1 x'.1 hnumber (List.getElem?_eq_some_iff.mp hget').1 (by omega) ?_
  rw [hget, hget', heq]

theorem ok_run (hverify : ∀ k data sig, keys.verify k data sig = true → data ∈ signedBy k) :
    Ok keys cfg signedBy acts (run keys cfg acts) := by
  -- the acts so far are a part of all the acts
  have hrun : ∀ done c, done ⊆ acts → Ok keys cfg signedBy acts c →
      Ok keys cfg signedBy acts (done.foldl (Client.step keys cfg) c) := by
    intro done
    induction done with
    | nil => exact fun c _ h => h
    | cons a done ih =>
      intro c hsub h
      exact ih _ (fun x hx => hsub (List.mem_cons_of_mem _ hx))
        (h.step hverify (hsub mem_cons_self))
  refine hrun acts _ (fun _ h => h) ⟨MsgIdDedup.recent_new cfg.dedupSize_pos, ?_, ?_, ?_⟩
  all_goals simp [init]

/-- In every run of a client, with signatures that cannot be forged: what is delivered for a frame
is authentic. The signed bytes determine the fields, as long as they fit in 4 GiB. And among so many
consecutive recorded messages as the cache holds, an id is delivered at most once. -/
theorem delivered_authentic (keys : Keys K) (cfg : ClientConfig) (signedBy : K → Set Bytes)
    (hverify : ∀ k data sig, keys.verify k data sig = true → data ∈ signedBy k)
    (acts : List (ClientAct K)) :
    (∀ d ∈ (run keys cfg acts).delivered, ∀ n r, d.1.source = some (n, r) →
      .handlePublish r ∈ acts ∧ (run keys cfg acts).recorded[n]? = some r.p.msgId ∧
        Authentic keys cfg signedBy r d.1) ∧
    (∀ f f' : Fields, (publishSignData f).length < 2 ^ 32 → publishSignData f = publishSignData f' →
      f = f') ∧
    ∀ (msgId : Bytes) (a : ℕ),
      ((run keys cfg acts).delivered.filter fun d => d.1.source.any fun x =>
        decide (x.2.p.msgId = msgId ∧ a ≤ x.1 ∧ x.1 < a + cfg.dedupSize)).length ≤ 1 := by
  have hok : Ok keys cfg signedBy acts (run keys cfg acts) := ok_run hverify
  refine ⟨fun d hd => hok.authentic d.1 (List.mem_append_left _ (List.mem_map_of_mem hd)),
    fun f f' hlen heq => publishSignData_injective hlen heq, fun msgId a => ?_⟩
  have hpairs := hok.pairwise.filter fun d => d.1.source.any fun x =>
    decide (x.2.p.msgId = msgId ∧ a ≤ x.1 ∧ x.1 < a + cfg.dedupSize)
  have hall : ∀ d ∈ (run keys cfg acts).delivered.filter fun d => d.1.source.any fun x =>
      decide (x.2.p.msgId = msgId ∧ a ≤ x.1 ∧ x.1 < a + cfg.dedupSize),
      ∃ x ∈ d.1.source, x.2.p.msgId = msgId ∧ a ≤ x.1 ∧ x.1 < a + cfg.dedupSize := by
    intro d hd
    have hany := (List.mem_filter.mp hd).2
    rw [Option.any_eq_true] at hany
    obtain ⟨x, hx, hin⟩ := hany
    exact ⟨x, hx, by simpa using hin⟩
  generalize (run keys cfg acts).delivered.filter _ = l at hpairs hall
  match l with
  | [] => exact Nat.zero_le _
  | [_] => exact le_rfl
  | d :: d' :: rest =>
    -- two of them would be within the window
    obtain ⟨x, hx, hid, hge, -⟩ := hall d mem_cons_self
    obtain ⟨x', hx', hid', -, hlt⟩ := hall d' (List.mem_cons_of_mem _ mem_cons_self)
    have hfar := (List.pairwise_cons.mp hpairs).1 d' mem_cons_self x hx x' hx'
        (hid.trans hid'.symm)
    omega

/-- One key, and one message that it signed. -/
def sampleKeys : Keys Unit where
  unmarshal _ := some ()
  verify _ data _ := data = publishSignData ⟨[115], [116], replicate 16 1, [], 0, [9]⟩
  account _ := [65]

def sampleClient : ClientConfig where
  loc := { maxPatternsPerSpace := 10, peers := false }
  maxPayloadSize := 10
  dispatchQueueSize := 10
  dedupSize := 2
  dedupSize_pos := by decide
  maxTimestampSkew := 300000
  membership := true
  crypto := false

/-- The frame of the message. -/
def sampleFrame : Received Unit where
  p := ⟨[115], [116], replicate 16 1, [], [9], [], [], 0, true⟩
  checkMember _ _ := true
  decrypt _ _ _ := none
  now := 0

/-- The frame comes twice, and is delivered once. -/
def sampleActs : List (ClientAct Unit) :=
  [.localCall (.subscribe [115] [116]), .handlePublish sampleFrame, .handlePublish sampleFrame,
    .dispatchOne, .dispatchOne]

theorem delivered_authentic_sample :
    ∃ d, (run sampleKeys sampleClient sampleActs).delivered = [d] ∧ d.2 = [1] ∧
      ∃ r, d.1.source = some (0, r) ∧ Authentic sampleKeys sampleClient
        (fun _ => {publishSignData ⟨[115], [116], replicate 16 1, [], 0, [9]⟩}) r d.1 := by
  have hauth := (delivered_authentic sampleKeys sampleClient
    (fun _ => {publishSignData ⟨[115], [116], replicate 16 1, [], 0, [9]⟩})
    (fun _ _ _ h => by simpa [sampleKeys] using h) sampleActs).1
  have hlen : (run sampleKeys sampleClient sampleActs).delivered.map
      (fun d => (d.1.source.map fst, d.2)) = [(some 0, [1])] := by decide +kernel
  obtain ⟨d, hd, hsource⟩ := List.map_eq_singleton_iff.mp hlen
  rw [Prod.mk.injEq, Option.map_eq_some_iff] at hsource
  obtain ⟨⟨⟨n, r⟩, hr, rfl⟩, hhandlers⟩ := hsource
  have hmem : d ∈ _ := hd ▸ List.mem_singleton.mpr rfl
  exact ⟨d, hd, hhandlers, r, hr, (hauth d hmem _ r hr).2.2⟩

/-- The frame of an act that receives one. -/
def received : ClientAct K → Option (Received K)
  | .handlePublish r => some r
  | _ => none

/-- The frame, two messages of the client's own on another topic, and the frame again. -/
def evictingActs : List (ClientAct Unit) :=
  [.localCall (.subscribe [115] [116]), .handlePublish sampleFrame,
    .publish () [115] [117] [] (replicate 16 2),
    .publish () [115] [117] [] (replicate 16 3), .handlePublish sampleFrame,
    .dispatchOne, .dispatchOne]

/-- The ids of the client's own messages push the id of the frame out of the cache: of no more
frames than the cache holds ids, two with one id are delivered. And without a membership check the
frame of an identity that is not a member is delivered. -/
theorem redelivered_after_own_publishes :
    ((evictingActs.filterMap received).length = sampleClient.dedupSize ∧
      (run sampleKeys sampleClient evictingActs).delivered.map
        (fun d => d.1.source.map fun x => x.2.p.msgId) =
        [some (replicate 16 1), some (replicate 16 1)]) ∧
    (run sampleKeys { sampleClient with membership := false }
      [.localCall (.subscribe [115] [116]),
        .handlePublish { sampleFrame with checkMember := fun _ _ => false },
        .dispatchOne]).delivered.map (fun d => d.2) = [[1]] := by
  decide +kernel

end Client

end Pubsub
