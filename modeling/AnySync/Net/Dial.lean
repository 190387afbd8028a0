import Mathlib.Data.List.Sort
import AnySync.Go.Basic

/-!
# Dialing a peer

`Dial` of `net/peerservice/peerservice.go`: the addresses of a peer are tried one after the other,
in the order of their schemes, until one gives a connection; the observer hears how the dial began
and ended, and the demotion service hears its outcome.

What the dial finds (when its context ends, how each attempt ends, which hosts are local) is a
`World`. The context is read before and after each attempt, so moment `2 * k` is just before attempt
`k` and moment `2 * k + 1` just after it. What the dial does is a list of `Action`s. Durations and
logging are left out.

The main result is `PeerService.dial_truthful_iff`.
-/

namespace Dialing

open List (length_take append_nil filterMap_append nil_append getElem_take)

/-! ## Errors, connections, events -/

/-- What `errors.Is` and `errors.As` can find in an error. -/
inductive Sentinel
  -- of `context`
  | canceled
  | deadlineExceeded
  -- of quic-go
  | handshakeTimeout
  | idleTimeout
  | addrsNotFound
  | peerIdMismatched
  | peerIdNotFoundInContext
  | transportNotAvailable (scheme : GoString)
  | other (n : ℕ)
deriving DecidableEq, Repr

/-- An error, as what can be found in it. -/
abbrev Err := List Sentinel

/-- `errors.Is`. -/
def Err.is (err : Err) (target : Sentinel) : Bool := decide (target ∈ err)

/-- `IsDialDegraded`. -/
def isDialDegraded (err : Err) : Bool := err.is .handshakeTimeout || err.is .idleTimeout

/-- How an attempt fails: with an error, and whether the transport gave up because the context had
ended. The code sees the error only. -/
structure Failure where
  err : Err
  cutShort : Bool
deriving DecidableEq, Repr

/-- A connection, with what its context holds: the peer id that the handshake proved, and the
version of the protocol. -/
structure Conn where
  id : ℕ
  peerId : Option GoString
  protoVersion : Option ℕ
deriving DecidableEq, Repr

/-- `CtxPeerId`. -/
def Conn.ctxPeerId (mc : Conn) : Except Err GoString :=
  match mc.peerId with
  | some id => .ok id
  | none => .error [.peerIdNotFoundInContext]

structure Peer where
  id : GoString
  conn : Conn
deriving DecidableEq, Repr

/-- `NewPeer`. -/
def newPeer (mc : Conn) : Except Err Peer :=
  match mc.ctxPeerId with
  | .ok id => .ok ⟨id, mc⟩
  | .error err => .error err

/-- `DialOutcome`. -/
structure DialOutcome where
  peerId : GoString
  quicTimedOut : Bool := false
  succeededScheme : GoString := []
  fallbackFailed : Bool := false
deriving DecidableEq, Repr

/-- The two shapes of the error that the observer gets. -/
inductive Reported
  | bare (err : Err)
  | joined (errs : List Err)
deriving DecidableEq, Repr

/-- `Event`, for the kinds that a dial emits. -/
inductive Event
  | dialStarted (peerId : GoString) (addrCount : ℕ)
  | connected (peerId addr scheme : GoString) (protoVersion : ℕ)
  | dialFailed (peerId : GoString) (err : Reported)
deriving DecidableEq, Repr

/-- What a dial does, as far as others can see it. -/
inductive Action
  | notify (ev : Event)
  | attempt (k : ℕ) (addr : GoString) (res : Except Failure Conn)
  | close (mc : Conn)
  | observeDial (outcome : DialOutcome)

/-! ## Addresses -/

/-- `transport.Quic`. -/
def quic : GoString := [113, 117, 105, 99]

/-- `transport.Yamux`. -/
def yamux : GoString := [121, 97, 109, 117, 120]

/-- `transport.WebTransport`. -/
def webtransport : GoString := [119, 101, 98, 116, 114, 97, 110, 115, 112, 111, 114, 116]

/-- `transport.Iroh`. -/
def iroh : GoString := [105, 114, 111, 104]

/-- `://`. -/
def separator : GoString := [58, 47, 47]

/-- The parts of an address before and after the first separator. -/
def splitScheme : GoString → Option (GoString × GoString)
  | [] => none
  | c :: rest =>
    if (c :: rest).take 3 = separator then some ([], (c :: rest).drop 3)
    else (splitScheme rest).map fun parts => (c :: parts.1, parts.2)

/-- `scheme`. -/
def scheme (addr : GoString) : GoString :=
  match splitScheme addr with
  | some parts => parts.1
  | none => yamux

/-- `stripScheme`. -/
def stripScheme (addr : GoString) : GoString :=
  match splitScheme addr with
  | some parts => parts.2
  | none => addr

/-- `…`. -/
def ellipsis : GoString := [226, 128, 166]

/-- `logAddr`. -/
def logAddr (addr : GoString) : GoString :=
  if scheme addr ≠ iroh then addr
  else if (stripScheme addr).length > 12 then
    iroh ++ separator ++ (stripScheme addr).take 12 ++ ellipsis
  else addr

/-! ## The service and the world -/

/-- `peerService`: which transports are registered, the preference, the known addresses, and what
the demotion service, where there is one, says to `DemoteDial`. -/
structure PeerService where
  yamux : Bool
  quic : Bool
  webtransport : Bool
  iroh : Bool
  preferQuic : Bool
  nodeConf : GoString → Option (List GoString)
  peerAddrs : GoMap GoString (List GoString)
  demotion : Option (GoString → Bool)

/-- What one dial finds. -/
structure World where
  globalDial : Bool
  /-- The moment at which the context ends, and its error from then on. -/
  done : Option (ℕ × Sentinel)
  /-- What `isLocal` says of the host of the address at an index. -/
  isLocal : ℕ → GoString → Bool
  /-- How the transport of a scheme ends an attempt, given its number and its host. -/
  dial : ℕ → GoString → GoString → Except Failure Conn

/-- `ctx.Err()`. -/
def World.ctxErr (w : World) (moment : ℕ) : Option Sentinel :=
  match w.done with
  | some (since, err) => if since ≤ moment then some err else none
  | none => none

/-- A usable address. -/
structure Candidate where
  addr : GoString
  rank : ℕ
deriving DecidableEq, Repr

namespace PeerService

variable (p : PeerService) (w : World)

/-- `preferredSchemes`. -/
def preferredSchemes (preferQuic : Bool) : List GoString :=
  (if preferQuic then
    (if p.quic then [Dialing.quic] else []) ++ (if p.yamux then [Dialing.yamux] else [])
  else
    (if p.yamux then [Dialing.yamux] else []) ++ (if p.quic then [Dialing.quic] else [])) ++
  (if p.webtransport then [Dialing.webtransport] else []) ++
  (if p.iroh then [Dialing.iroh] else [])

/-- The schemes in order of preference, for the address at index `i`. -/
def schemes (preferQuic : Bool) (addr : GoString) (i : ℕ) : List GoString :=
  if scheme addr = Dialing.iroh then
    -- tickets skip the local check, and count only in a global dial
    if w.globalDial then p.preferredSchemes preferQuic else []
  else p.preferredSchemes (preferQuic && !w.isLocal i (stripScheme addr))

/-- The body of the loop of `orderAddrs`. -/
def candidate (preferQuic : Bool) (addr : GoString) (i : ℕ) : Option Candidate :=
  if scheme addr ∈ p.schemes w preferQuic addr i then
    some ⟨addr, (p.schemes w preferQuic addr i).idxOf (scheme addr)⟩
  else none

def candidates (addrs : List GoString) (preferQuic : Bool) : List Candidate :=
  addrs.zipIdx.filterMap fun e => p.candidate w preferQuic e.1 e.2

/-- `orderAddrs`. The sort is stable. -/
def orderAddrs (addrs : List GoString) (preferQuic : Bool) : List GoString :=
  ((p.candidates w addrs preferQuic).insertionSort fun a b => a.rank ≤ b.rank).map
    Candidate.addr

/-- `transport`: whether there is one for a scheme. -/
def transport (sch : GoString) : Bool :=
  if sch = Dialing.quic then p.quic
  else if sch = Dialing.yamux then p.yamux
  else if sch = Dialing.webtransport then p.webtransport
  else if sch = Dialing.iroh then p.iroh
  else false

/-- `dialAddr`, as attempt `k`. -/
def dialAddr (k : ℕ) (addr : GoString) : Except Failure Conn :=
  if p.transport (scheme addr) then w.dial k (scheme addr) (stripScheme addr)
  else .error ⟨[.transportNotAvailable (scheme addr)], false⟩

/-- `getPeerAddrs`. -/
def getPeerAddrs (peerId : GoString) : Except Err (List GoString) :=
  match p.nodeConf peerId with
  | some addrs => .ok addrs
  | none =>
    match p.peerAddrs.lookup peerId with
    | some addrs => if addrs.length = 0 then .error [.addrsNotFound] else .ok addrs
    | none => .error [.addrsNotFound]

/-- The order that a dial goes by: the preference, unless the demotion service is against it. -/
def dialPreferQuic (peerId : GoString) : Bool :=
  match p.demotion with
  | some demoteDial => if p.preferQuic && demoteDial peerId then false else p.preferQuic
  | none => p.preferQuic

end PeerService

/-! ## The dial -/

/-- The variables of `Dial` that the loop changes. `res` is `mc` with `connAddr`, or `err`. -/
structure Vars where
  trace : List Action := []
  addrErrs : List Err := []
  outcome : DialOutcome
  cancelled : Bool := false
  res : Except Err (Conn × GoString) := .error [.addrsNotFound]

/-- What a failed attempt tells of quic, and of the fallback. -/
def DialOutcome.classify (outcome : DialOutcome) (sch : GoString) (err : Err) : DialOutcome :=
  if sch = quic ∧ isDialDegraded err = true then { outcome with quicTimedOut := true }
  else if sch = yamux then { outcome with fallbackFailed := true }
  else outcome

/-- Whether an attempt counts as cut short, by its error and that of the context. -/
def seenCut (cerr : Option Sentinel) (err : Err) : Bool :=
  match cerr with
  | some cerr => err.is cerr
  | none => false

/-- The rest of an iteration whose attempt failed. -/
def Vars.fail (v : Vars) (w : World) (k : ℕ) (addr : GoString) (f : Failure) : Vars where
  trace := v.trace ++ [.attempt k addr (.error f)]
  addrErrs := v.addrErrs ++ [f.err]
  outcome := v.outcome.classify (scheme addr) f.err
  cancelled := v.cancelled || seenCut (w.ctxErr (2 * k + 1)) f.err
  res := .error f.err

/-- The iteration that breaks off because the context has ended. -/
def Vars.cancel (v : Vars) (cerr : Sentinel) : Vars :=
  { v with res := .error [cerr], cancelled := true }

/-- The iteration that breaks off with a connection. -/
def Vars.connect (v : Vars) (k : ℕ) (addr : GoString) (mc : Conn) : Vars :=
  { v with
    trace := v.trace ++ [.attempt k addr (.ok mc)]
    outcome := { v.outcome with succeededScheme := scheme addr }
    res := .ok (mc, addr) }

/-- A dial that is over: what it returns, and what it did. -/
structure Run where
  result : Except Err Peer
  trace : List Action

namespace PeerService

variable (p : PeerService) (w : World)

/-- The loop over the addresses, from attempt `k` on. -/
def tryAddrs : ℕ → Vars → List GoString → Vars
  | _, v, [] => v
  | k, v, addr :: rest =>
    match w.ctxErr (2 * k) with
    | some cerr => v.cancel cerr
    | none =>
      match p.dialAddr w k addr with
      | .ok mc => v.connect k addr mc
      | .error f => tryAddrs (k + 1) (v.fail w k addr f) rest

/-- `Dial` after its loop, without the deferred report. -/
def accept (peerId : GoString) (v : Vars) : Run :=
  match v.res with
  | .error err =>
    let reported := if v.addrErrs = [] then .bare err else .joined v.addrErrs
    ⟨.error err, [.notify (.dialFailed peerId reported)]⟩
  | .ok (mc, connAddr) =>
    match mc.ctxPeerId with
    | .error err => ⟨.error err, [.close mc, .notify (.dialFailed peerId (.bare err))]⟩
    | .ok connPeerId =>
      if connPeerId ≠ peerId then
        ⟨.error [.peerIdMismatched],
          [.close mc, .notify (.dialFailed peerId (.bare [.peerIdMismatched]))]⟩
      else
        match newPeer mc with
        | .error err => ⟨.error err, [.close mc, .notify (.dialFailed peerId (.bare err))]⟩
        | .ok pr =>
          ⟨.ok pr, [.notify (.connected peerId (stripScheme (logAddr connAddr)) (scheme connAddr)
            (mc.protoVersion.getD 0))]⟩

/-- The deferred report. -/
def report (dialAccepted : Bool) (v : Vars) : List Action :=
  if p.demotion.isNone || (!dialAccepted && v.cancelled) then []
  else if dialAccepted then [.observeDial v.outcome]
  else [.observeDial { v.outcome with succeededScheme := [] }]

/-- `Dial`. -/
def dial (peerId : GoString) : Run :=
  match p.getPeerAddrs peerId with
  | .error err =>
    ⟨.error err, [.notify (.dialStarted peerId 0), .notify (.dialFailed peerId (.bare err))]⟩
  | .ok addrs =>
    let ordered := p.orderAddrs w addrs (p.dialPreferQuic peerId)
    let v := p.tryAddrs w 0 ⟨[], [], { peerId := peerId }, false, .error [.addrsNotFound]⟩ ordered
    let accepted := accept peerId v
    ⟨accepted.result, .notify (.dialStarted peerId ordered.length) ::
      (v.trace ++ accepted.trace ++ p.report accepted.result.isOk v)⟩

end PeerService

/-! ## What the actions of a dial should be -/

/-- The addresses of the attempts. -/
def attempts (trace : List Action) : List GoString :=
  trace.filterMap fun
    | .attempt _ addr _ => some addr
    | _ => none

/-- The connections that the attempts gave. -/
def opened (trace : List Action) : List Conn :=
  trace.filterMap fun
    | .attempt _ _ (.ok mc) => some mc
    | _ => none

def closed (trace : List Action) : List Conn :=
  trace.filterMap fun
    | .close mc => some mc
    | _ => none

def events (trace : List Action) : List Event :=
  trace.filterMap fun
    | .notify ev => some ev
    | _ => none

def reports (trace : List Action) : List DialOutcome :=
  trace.filterMap fun
    | .observeDial outcome => some outcome
    | _ => none

/-- The connection of the peer that a dial returns. -/
def Run.returned (r : Run) : List Conn :=
  match r.result with
  | .ok pr => [pr.conn]
  | .error _ => []

/-- Some attempt was cut short by the end of the context. -/
def CutShort (w : World) (trace : List Action) : Prop :=
  ∃ k addr f, .attempt k addr (.error f) ∈ trace ∧ f.cutShort = true ∧
    (w.ctxErr (2 * k + 1)).isSome = true

namespace PeerService

variable (p : PeerService) (w : World)

/-- The addresses that are known for a peer. -/
def known (peerId : GoString) : List GoString :=
  match p.getPeerAddrs peerId with
  | .ok addrs => addrs
  | .error _ => []

/-- The addresses that a dial goes through. -/
def ordered (peerId : GoString) : List GoString :=
  p.orderAddrs w (p.known peerId) (p.dialPreferQuic peerId)

end PeerService

/-- What holds of every dial. -/
structure Sound (p : PeerService) (w : World) (peerId : GoString) (r : Run) : Prop where
  /-- The usable entries of the list are gone through by rank, each of them once. -/
  order : ∃ cs : List Candidate,
    cs.Perm (p.candidates w (p.known peerId) (p.dialPreferQuic peerId)) ∧
      cs.Pairwise (fun a b => a.rank ≤ b.rank) ∧ attempts r.trace <+: cs.map Candidate.addr
  usable : ∀ addr ∈ attempts r.trace, addr ∈ p.known peerId ∧ p.transport (scheme addr) = true ∧
    (scheme addr = iroh → w.globalDial = true)
  proved : ∀ pr, r.result = .ok pr → pr.conn.peerId = some peerId
  /-- What is opened is closed or returned, and not both. -/
  closes : opened r.trace = closed r.trace ++ r.returned
  events : ∃ n, (∃ pr addr sch version, r.result = .ok pr ∧
      events r.trace = [.dialStarted peerId n, .connected peerId addr sch version]) ∨
    ∃ err reported, r.result = .error err ∧
      events r.trace = [.dialStarted peerId n, .dialFailed peerId reported]
  atMostOnce : (reports r.trace).length ≤ 1
  reported : ∀ outcome ∈ reports r.trace, outcome.peerId = peerId ∧
    (outcome.succeededScheme ≠ [] ↔ r.result.isOk = true) ∧
    (outcome.quicTimedOut = true → ∃ k addr f, .attempt k addr (.error f) ∈ r.trace ∧
      scheme addr = quic ∧ isDialDegraded f.err = true)
  /-- Nothing is reported where addresses are left and there is no connection. -/
  brokenOff : opened r.trace = [] →
    (attempts r.trace).length < (p.ordered w peerId).length → reports r.trace = []

/-- Each address is tried once, and nothing is reported of a dial that was cut short. -/
structure Truthful (p : PeerService) (w : World) (peerId : GoString) (r : Run) : Prop
    extends Sound p w peerId r where
  once : (attempts r.trace).Nodup
  quiet : r.result.isOk = false → CutShort w r.trace → reports r.trace = []

namespace PeerService

variable (p : PeerService) (w : World)

/-- The first `k` attempts find the context alive and fail. -/
def Comes (as : List GoString) (k : ℕ) : Prop :=
  ∀ j < k, w.ctxErr (2 * j) = none ∧ ∃ addr f, as[j]? = some addr ∧ p.dialAddr w j addr = .error f

/-- No address comes up again before the dial is over. -/
def NoRepeat (as : List GoString) : Prop :=
  ∀ k < as.length, p.Comes w as k → w.ctxErr (2 * k) = none → ∀ j < k, as[j]? ≠ as[k]?

/-- If the last address is reached and its attempt is cut short, its error is that of the context.
(An attempt that is cut short before the last address is noticed in the next iteration.) -/
def LastSeen (as : List GoString) : Prop :=
  ∀ n addr f cerr, as.length = n + 1 → p.Comes w as n → w.ctxErr (2 * n) = none →
    as[n]? = some addr → p.dialAddr w n addr = .error f → f.cutShort = true →
      w.ctxErr (2 * n + 1) = some cerr → f.err.is cerr = true

end PeerService

/-! ## Traces -/

section Traces

variable (s t : List Action)

@[simp]
theorem attempts_append : attempts (s ++ t) = attempts s ++ attempts t := filterMap_append

@[simp]
theorem opened_append : opened (s ++ t) = opened s ++ opened t := filterMap_append

@[simp]
theorem closed_append : closed (s ++ t) = closed s ++ closed t := filterMap_append

@[simp]
theorem events_append : events (s ++ t) = events s ++ events t := filterMap_append

@[simp]
theorem reports_append : reports (s ++ t) = reports s ++ reports t := filterMap_append

end Traces

/-- A context that has ended stays so. -/
theorem World.ctxErr_mono {w : World} {t t' : ℕ} (h : t ≤ t') (hw : w.ctxErr t' = none) :
    w.ctxErr t = none := by
  unfold World.ctxErr at hw ⊢
  split at hw
  · rename_i since err hdone
    split at hw
    · cases hw
    · rename_i hlt
      exact if_neg (fun hle => hlt (hle.trans h))
  · rfl

namespace PeerService

variable (p : PeerService) (w : World) {as : List GoString} {peerId : GoString}

/-! ## The order of the addresses -/

variable {preferQuic : Bool} {addr : GoString} {k j : ℕ} {f : Failure} {v : Vars}

/-- A scheme is preferred only if it has a transport. -/
theorem transport_of_mem_preferredSchemes {sch : GoString}
    (h : sch ∈ p.preferredSchemes preferQuic) : p.transport sch = true ∧ sch ≠ [] := by
  have hone : ∀ {registered : Bool} {x : GoString}, sch ∈ (if registered then [x] else []) →
      sch = x ∧ registered = true := by
    intro registered x hx
    cases registered
    · cases hx
    · exact ⟨List.mem_singleton.mp hx, rfl⟩
  have hcases : (sch = Dialing.quic ∧ p.quic = true) ∨ (sch = Dialing.yamux ∧ p.yamux = true) ∨
      (sch = Dialing.webtransport ∧ p.webtransport = true) ∨
      (sch = Dialing.iroh ∧ p.iroh = true) := by
    rw [preferredSchemes, List.mem_append, List.mem_append] at h
    obtain (h | h) | h := h
    · split at h
      · exact (List.mem_append.mp h).elim (fun h => .inl (hone h)) (fun h => .inr (.inl (hone h)))
      · exact (List.mem_append.mp h).elim (fun h => .inr (.inl (hone h))) (fun h => .inl (hone h))
    · exact .inr (.inr (.inl (hone h)))
    · exact .inr (.inr (.inr (hone h)))
  obtain ⟨rfl, hreg⟩ | ⟨rfl, hreg⟩ | ⟨rfl, hreg⟩ | ⟨rfl, hreg⟩ := hcases
  all_goals exact ⟨hreg, by decide⟩

/-- A usable address is one of a scheme with a transport, and an iroh ticket only in a global
dial. -/
theorem candidate_eq_some {i : ℕ} {c : Candidate} (h : p.candidate w preferQuic addr i = some c) :
    c.addr = addr ∧ p.transport (scheme addr) = true ∧ scheme addr ≠ [] ∧
      (scheme addr = Dialing.iroh → w.globalDial = true) := by
  obtain ⟨hmem, hc⟩ := Option.ite_none_right_eq_some.mp h
  cases hc
  refine ⟨rfl, ?_⟩
  unfold schemes at hmem
  split at hmem
  · split at hmem
    · rename_i hglobal
      have hreg := p.transport_of_mem_preferredSchemes hmem
      exact ⟨hreg.1, hreg.2, fun _ => hglobal⟩
    · cases hmem
  · rename_i hiroh
    have hreg := p.transport_of_mem_preferredSchemes hmem
    exact ⟨hreg.1, hreg.2, fun h => absurd h hiroh⟩

theorem mem_orderAddrs {addrs : List GoString} (h : addr ∈ p.orderAddrs w addrs preferQuic) :
    addr ∈ addrs ∧ p.transport (scheme addr) = true ∧ scheme addr ≠ [] ∧
      (scheme addr = Dialing.iroh → w.globalDial = true) := by
  obtain ⟨c, hc, rfl⟩ := List.mem_map.mp h
  rw [List.mem_insertionSort, candidates, List.mem_filterMap] at hc
  obtain ⟨⟨a, i⟩, ha, hcand⟩ := hc
  obtain ⟨haddr, hrest⟩ := p.candidate_eq_some w hcand
  rw [haddr]
  exact ⟨(List.mem_zipIdx' ha).2 ▸ List.getElem_mem _, hrest⟩

/-- The addresses in order are the usable ones, by rank. -/
theorem orderAddrs_sorted (addrs : List GoString) (preferQuic : Bool) :
    ∃ cs : List Candidate, cs.Perm (p.candidates w addrs preferQuic) ∧
      cs.Pairwise (fun a b => a.rank ≤ b.rank) ∧
        p.orderAddrs w addrs preferQuic = cs.map Candidate.addr := by
  have : Std.Total fun a b : Candidate => a.rank ≤ b.rank := ⟨fun a b => le_total a.rank b.rank⟩
  have : IsTrans Candidate fun a b => a.rank ≤ b.rank := ⟨fun _ _ _ => le_trans⟩
  exact ⟨_, List.perm_insertionSort _ _, List.pairwise_insertionSort _ _, rfl⟩

/-! ## The loop -/

/-- The first `k` attempts. -/
def tried (as : List GoString) (k : ℕ) : List Action :=
  (as.take k).mapIdx fun j addr => .attempt j addr (p.dialAddr w j addr)

theorem tried_succ (h : as[k]? = some addr) :
    p.tried w as (k + 1) = p.tried w as k ++ [.attempt k addr (p.dialAddr w k addr)] := by
  have hk : k < as.length := (List.getElem?_eq_some_iff.mp h).1
  unfold tried
  rw [List.take_add_one, h, Option.toList_some, List.mapIdx_append, List.mapIdx_singleton,
    length_take, Nat.min_eq_left hk.le, Nat.zero_add]

theorem mem_tried {res : Except Failure Conn} :
    .attempt j addr res ∈ p.tried w as k ↔
      j < k ∧ as[j]? = some addr ∧ p.dialAddr w j addr = res := by
  unfold tried
  rw [List.mem_mapIdx]
  constructor
  · rintro ⟨i, hi, heq⟩
    rw [getElem_take] at heq
    cases heq
    rw [length_take] at hi
    exact ⟨by omega, List.getElem?_eq_getElem (by omega), rfl⟩
  · rintro ⟨hj, haddr, rfl⟩
    obtain ⟨hlt, rfl⟩ := List.getElem?_eq_some_iff.mp haddr
    exact ⟨j, by rw [length_take]; omega, by rw [getElem_take]⟩

@[simp]
theorem attempts_tried (k : ℕ) : attempts (p.tried w as k) = as.take k := by
  unfold attempts tried
  rw [List.mapIdx_eq_zipIdx_map, List.filterMap_map]
  show List.filterMap (fun e : GoString × ℕ => some e.1) _ = _
  rw [List.filterMap_eq_map', List.zipIdx_map_fst]

/-- What picks no attempt finds nothing in the attempts. -/
theorem filterMap_tried {α : Type} (g : Action → Option α)
    (hg : ∀ j addr res, g (.attempt j addr res) = none) (k : ℕ) :
    (p.tried w as k).filterMap g = [] := by
  apply List.filterMap_eq_nil_iff.mpr
  intro a ha
  obtain ⟨j, hj, rfl⟩ := List.mem_mapIdx.mp ha
  exact hg _ _ _

@[simp]
theorem closed_tried (k : ℕ) : closed (p.tried w as k) = [] :=
  p.filterMap_tried w _ (fun _ _ _ => rfl) k

@[simp]
theorem events_tried (k : ℕ) : events (p.tried w as k) = [] :=
  p.filterMap_tried w _ (fun _ _ _ => rfl) k

@[simp]
theorem reports_tried (k : ℕ) : reports (p.tried w as k) = [] :=
  p.filterMap_tried w _ (fun _ _ _ => rfl) k

variable {p w}

theorem Comes.of_le (h : p.Comes w as k) (hjk : j ≤ k) : p.Comes w as j :=
  fun i hi => h i (hi.trans_le hjk)

theorem Comes.succ (h : p.Comes w as k) (halive : w.ctxErr (2 * k) = none)
    (haddr : as[k]? = some addr) (hfail : p.dialAddr w k addr = .error f) :
    p.Comes w as (k + 1) := by
  intro j hj
  obtain hj | rfl := Nat.lt_succ_iff_lt_or_eq.mp hj
  · exact h j hj
  · exact ⟨halive, addr, f, haddr, hfail⟩

theorem Comes.le_length (h : p.Comes w as k) : k ≤ as.length := by
  cases k with
  | zero => exact Nat.zero_le _
  | succ k =>
    obtain ⟨-, addr, -, haddr, -⟩ := h k k.lt_succ_self
    exact (List.getElem?_eq_some_iff.mp haddr).1

/-- Of attempts that all fail, only the last can end after the context. -/
theorem Comes.eq_of_ended (h : p.Comes w as k) (hj : j < k) (hended : w.ctxErr (2 * j + 1) ≠ none) :
    j + 1 = k := by
  by_contra hne
  exact hended (World.ctxErr_mono (by omega) (h (j + 1) (by omega)).1)

theorem Comes.opened_tried (h : p.Comes w as k) : opened (p.tried w as k) = [] := by
  apply List.filterMap_eq_nil_iff.mpr
  intro a ha
  obtain ⟨j, hj, rfl⟩ := List.mem_mapIdx.mp ha
  rw [length_take] at hj
  obtain ⟨-, addr, f, haddr, hfail⟩ := h j (by omega)
  obtain ⟨hlt, rfl⟩ := List.getElem?_eq_some_iff.mp haddr
  rw [getElem_take, hfail]

/-- Attempt `j` is made, fails, and counts as cut short. -/
def Seen (p : PeerService) (w : World) (as : List GoString) (j : ℕ) : Prop :=
  ∃ addr f, as[j]? = some addr ∧ p.dialAddr w j addr = .error f ∧
    seenCut (w.ctxErr (2 * j + 1)) f.err = true

theorem Seen.ended (h : p.Seen w as j) : w.ctxErr (2 * j + 1) ≠ none := by
  obtain ⟨addr, f, -, -, hseen⟩ := h
  intro hnone
  rw [hnone] at hseen
  cases hseen

/-- The variables before iteration `k`: the attempts up to it have failed. -/
structure Failing (p : PeerService) (w : World) (peerId : GoString) (as : List GoString) (k : ℕ)
    (v : Vars) : Prop where
  comes : p.Comes w as k
  trace : v.trace = p.tried w as k
  peerId : v.outcome.peerId = peerId
  timedOut : v.outcome.quicTimedOut = true → ∃ j addr f,
    .attempt j addr (.error f) ∈ p.tried w as k ∧ scheme addr = Dialing.quic ∧
      isDialDegraded f.err = true
  cancelled : v.cancelled = true ↔ ∃ j < k, p.Seen w as j
  res : ∃ err, v.res = .error err

/-- A failed attempt leads to the next iteration. -/
theorem Failing.fail (h : Failing p w peerId as k v) (halive : w.ctxErr (2 * k) = none)
    (haddr : as[k]? = some addr) (hfail : p.dialAddr w k addr = .error f) :
    Failing p w peerId as (k + 1) (v.fail w k addr f) where
  comes := h.comes.succ halive haddr hfail
  trace := by
    rw [p.tried_succ w haddr, hfail, ← h.trace]
    rfl
  peerId := by
    show (v.outcome.classify _ _).peerId = peerId
    rw [← h.peerId]
    unfold DialOutcome.classify
    split_ifs
    all_goals rfl
  timedOut := by
    rw [p.tried_succ w haddr, hfail]
    intro htimed
    -- only a quic address that degraded sets the flag
    have hor : v.outcome.quicTimedOut = true ∨
        scheme addr = Dialing.quic ∧ isDialDegraded f.err = true := by
      change (v.outcome.classify _ _).quicTimedOut = true at htimed
      unfold DialOutcome.classify at htimed
      split_ifs at htimed with hquic hyamux
      · exact .inr hquic
      · exact .inl htimed
      · exact .inl htimed
    obtain hold | hnew := hor
    · obtain ⟨j, addr', f', hmem, hrest⟩ := h.timedOut hold
      exact ⟨j, addr', f', List.mem_append_left _ hmem, hrest⟩
    · exact ⟨k, addr, f, List.mem_append_right _ (List.mem_singleton.mpr rfl), hnew⟩
  cancelled := by
    show (v.cancelled || seenCut (w.ctxErr (2 * k + 1)) f.err) = true ↔ _
    rw [Bool.or_eq_true, h.cancelled]
    constructor
    · rintro (⟨j, hj, hseen⟩ | hseen)
      · exact ⟨j, by omega, hseen⟩
      · exact ⟨k, by omega, addr, f, haddr, hfail, hseen⟩
    · rintro ⟨j, hj, hseen⟩
      obtain hj | rfl := Nat.lt_succ_iff_lt_or_eq.mp hj
      · exact .inl ⟨j, hj, hseen⟩
      · obtain ⟨addr', f', haddr', hfail', hcut⟩ := hseen
        cases haddr.symm.trans haddr'
        cases hfail.symm.trans hfail'
        exact .inr hcut
  res := ⟨f.err, rfl⟩

/-- The ways out of the loop, after `k` failed attempts. -/
inductive Exit (p : PeerService) (w : World) (as : List GoString) (k : ℕ) (v : Vars) :
    Vars → Prop
  | exhausted : k = as.length → Exit p w as k v v
  | cancelled {cerr : Sentinel} : k < as.length → w.ctxErr (2 * k) = some cerr →
      Exit p w as k v (v.cancel cerr)
  | connected {addr : GoString} {mc : Conn} : w.ctxErr (2 * k) = none → as[k]? = some addr →
      p.dialAddr w k addr = .ok mc → Exit p w as k v (v.connect k addr mc)

/-- The loop leaves in one of these ways. -/
theorem tryAddrs_exit {rest : List GoString} (h : Failing p w peerId as k v)
    (hrest : as.drop k = rest) : ∃ k' v', Failing p w peerId as k' v' ∧
      Exit p w as k' v' (p.tryAddrs w k v rest) := by
  -- by induction on the addresses that are left
  induction rest generalizing k v with
  | nil =>
    refine ⟨k, v, h, .exhausted (le_antisymm h.comes.le_length ?_)⟩
    exact List.drop_eq_nil_iff.mp hrest
  | cons addr rest ih =>
    have haddr : as[k]? = some addr := by rw [← List.head?_drop, hrest, List.head?_cons]
    have hnext : as.drop (k + 1) = rest := by rw [← List.tail_drop, hrest, List.tail_cons]
    unfold tryAddrs
    split
    · rename_i cerr hcerr
      exact ⟨k, v, h, .cancelled (List.getElem?_eq_some_iff.mp haddr).1 hcerr⟩
    · rename_i halive
      split
      · rename_i mc hok
        exact ⟨k, v, h, .connected halive haddr hok⟩
      · rename_i f hfail
        exact ih (h.fail halive haddr hfail) hnext

end PeerService

/-- The connection that the loop ends with. -/
def Vars.conn (v : Vars) : List Conn :=
  match v.res with
  | .ok (mc, _) => [mc]
  | .error _ => []

namespace PeerService

variable {p : PeerService} {w : World} {as : List GoString} {peerId : GoString}
variable {m k : ℕ} {v : Vars} {mc : Conn} {r : Run}

/-- The variables after the loop, which has made `m` attempts. -/
structure Ended (p : PeerService) (w : World) (peerId : GoString) (as : List GoString) (m : ℕ)
    (v : Vars) : Prop where
  made : ∀ j < as.length, p.Comes w as j ∧ w.ctxErr (2 * j) = none ↔ j < m
  trace : v.trace = p.tried w as m
  peerId : v.outcome.peerId = peerId
  timedOut : v.outcome.quicTimedOut = true → ∃ j addr f,
    .attempt j addr (.error f) ∈ p.tried w as m ∧ scheme addr = Dialing.quic ∧
      isDialDegraded f.err = true
  opened : opened (p.tried w as m) = v.conn
  succeeded : v.conn ≠ [] → ∃ addr ∈ as, v.outcome.succeededScheme = scheme addr
  left : v.conn = [] → m < as.length → v.cancelled = true
  uncut : v.conn ≠ [] → ¬ CutShort w (p.tried w as m)
  seen : (CutShort w (p.tried w as m) → v.cancelled = true) ↔ p.LastSeen w as

theorem cutShort_tried_iff : CutShort w (p.tried w as m) ↔ ∃ j < m, ∃ addr f,
    as[j]? = some addr ∧ p.dialAddr w j addr = .error f ∧ f.cutShort = true ∧
      (w.ctxErr (2 * j + 1)).isSome = true := by
  constructor
  · rintro ⟨j, addr, f, hmem, hcut, hended⟩
    obtain ⟨hj, haddr, hfail⟩ := (p.mem_tried w).mp hmem
    exact ⟨j, hj, addr, f, haddr, hfail, hcut, hended⟩
  · rintro ⟨j, hj, addr, f, haddr, hfail, hcut, hended⟩
    exact ⟨j, addr, f, (p.mem_tried w).mpr ⟨hj, haddr, hfail⟩, hcut, hended⟩

theorem Failing.conn (h : Failing p w peerId as k v) : v.conn = [] := by
  obtain ⟨err, hres⟩ := h.res
  rw [Vars.conn, hres]

/-- All addresses were tried: only the last attempt can have been cut short. -/
theorem Failing.exhausted (h : Failing p w peerId as as.length v) :
    Ended p w peerId as as.length v where
  made j hj := iff_of_true ⟨h.comes.of_le hj.le, (h.comes j hj).1⟩ hj
  trace := h.trace
  peerId := h.peerId
  timedOut := h.timedOut
  opened := h.comes.opened_tried.trans h.conn.symm
  succeeded hconn := absurd h.conn hconn
  left _ hlt := absurd hlt (lt_irrefl _)
  uncut hconn := absurd h.conn hconn
  seen := by
    rw [h.cancelled, cutShort_tried_iff]
    constructor
    · intro hseen n addr f cerr hlen _ _ haddr hfail hcut hcerr
      obtain ⟨j, hj, hseen⟩ := hseen
        ⟨n, by omega, addr, f, haddr, hfail, hcut, by rw [hcerr, Option.isSome_some]⟩
      have hlast := h.comes.eq_of_ended hj hseen.ended
      obtain rfl : j = n := by omega
      obtain ⟨addr', f', haddr', hfail', hcut'⟩ := hseen
      cases haddr.symm.trans haddr'
      cases hfail.symm.trans hfail'
      rwa [hcerr] at hcut'
    · rintro hlast ⟨j, hj, addr, f, haddr, hfail, hcut, hended⟩
      obtain ⟨cerr, hcerr⟩ := Option.isSome_iff_exists.mp hended
      have hlen := h.comes.eq_of_ended hj (by rw [hcerr]; exact Option.some_ne_none _)
      refine ⟨j, hj, addr, f, haddr, hfail, ?_⟩
      rw [hcerr]
      exact hlast j addr f cerr hlen.symm (h.comes.of_le hj.le) (h.comes j hj).1 haddr hfail hcut
        hcerr

/-- The context ended before the addresses did: the last of them is never reached. -/
theorem Failing.cancel {cerr : Sentinel} (h : Failing p w peerId as k v) (hk : k < as.length)
    (hcerr : w.ctxErr (2 * k) = some cerr) :
    Ended p w peerId as k (v.cancel cerr) where
  made j hj := by
    refine ⟨fun ⟨_, halive⟩ => ?_, fun hlt => ⟨h.comes.of_le hlt.le, (h.comes j hlt).1⟩⟩
    by_contra hle
    have halive' := World.ctxErr_mono (show 2 * k ≤ 2 * j by omega) halive
    rw [hcerr] at halive'
    cases halive'
  trace := h.trace
  peerId := h.peerId
  timedOut := h.timedOut
  opened := h.comes.opened_tried
  succeeded hconn := absurd rfl hconn
  left _ _ := rfl
  uncut hconn := absurd rfl hconn
  seen := by
    refine iff_of_true (fun _ => rfl) ?_
    intro n addr f _ hlen _ halive
    have halive' := World.ctxErr_mono (show 2 * k ≤ 2 * n by omega) halive
    rw [hcerr] at halive'
    cases halive'

/-- An attempt succeeded, so none before it was cut short. -/
theorem Failing.connect {addr : GoString} (h : Failing p w peerId as k v)
    (halive : w.ctxErr (2 * k) = none) (haddr : as[k]? = some addr)
    (hok : p.dialAddr w k addr = .ok mc) : Ended p w peerId as (k + 1) (v.connect k addr mc) := by
  -- an iteration after the successful one would have found it failed
  have hstop : ∀ {j}, p.Comes w as j → j ≤ k := by
    intro j hcomes
    by_contra hlt
    obtain ⟨-, addr', f, haddr', hfail⟩ := hcomes k (by omega)
    cases haddr.symm.trans haddr'
    cases hok.symm.trans hfail
  have huncut : ¬ CutShort w (p.tried w as (k + 1)) := by
    rw [cutShort_tried_iff]
    rintro ⟨j, hj, addr', f, haddr', hfail, -, hended⟩
    obtain hj | rfl := Nat.lt_succ_iff_lt_or_eq.mp hj
    · rw [World.ctxErr_mono (show 2 * j + 1 ≤ 2 * k by omega) halive] at hended
      cases hended
    · cases haddr.symm.trans haddr'
      cases hok.symm.trans hfail
  refine
    { made := fun j hj => ⟨fun hj' => Nat.lt_succ_of_le (hstop hj'.1), fun hlt => ?_⟩
      trace := ?_
      peerId := h.peerId
      timedOut := fun htimed => ?_
      opened := ?_
      succeeded := fun _ => ⟨addr, List.mem_of_getElem? haddr, rfl⟩
      left := fun hconn => absurd hconn (List.cons_ne_nil _ _)
      uncut := fun _ => huncut
      seen := iff_of_true (fun hcut => absurd hcut huncut) ?_ }
  · have hle := Nat.le_of_lt_succ hlt
    exact ⟨h.comes.of_le hle, World.ctxErr_mono (by omega) halive⟩
  · rw [p.tried_succ w haddr, hok, ← h.trace]
    rfl
  · obtain ⟨j, addr', f, hmem, hrest⟩ := h.timedOut htimed
    rw [p.tried_succ w haddr]
    exact ⟨j, addr', f, List.mem_append_left _ hmem, hrest⟩
  · rw [p.tried_succ w haddr, hok, opened_append, h.comes.opened_tried]
    rfl
  · intro n addr' f _ hlen hcomes _ haddr' hfail
    have hk := (List.getElem?_eq_some_iff.mp haddr).1
    have hn := hstop hcomes
    obtain rfl : n = k := by omega
    cases haddr.symm.trans haddr'
    cases hok.symm.trans hfail

/-- The loop as a whole. -/
theorem tryAddrs_ended (p : PeerService) (w : World) (peerId : GoString) (as : List GoString) :
    ∃ m, Ended p w peerId as m
      (p.tryAddrs w 0 ⟨[], [], { peerId := peerId }, false, .error [.addrsNotFound]⟩ as) := by
  have hstart : Failing p w peerId as 0
      ⟨[], [], { peerId := peerId }, false, .error [.addrsNotFound]⟩ :=
    { comes := fun j hj => absurd hj j.not_lt_zero
      trace := rfl
      peerId := rfl
      timedOut := fun htimed => nomatch htimed
      cancelled := iff_of_false Bool.false_ne_true fun ⟨j, hj, _⟩ => j.not_lt_zero hj
      res := ⟨_, rfl⟩ }
  obtain ⟨k, v, hfailing, hexit⟩ := tryAddrs_exit hstart (show as.drop 0 = as from rfl)
  generalize p.tryAddrs w 0 _ as = v' at hexit
  cases hexit with
  | exhausted hk =>
    subst hk
    exact ⟨_, hfailing.exhausted⟩
  | cancelled hk hcerr => exact ⟨_, hfailing.cancel hk hcerr⟩
  | connected halive haddr hok => exact ⟨_, hfailing.connect halive haddr hok⟩

/-- The condition on repeated addresses, read off the attempts. -/
theorem Ended.noRepeat_iff (h : Ended p w peerId as m v) : p.NoRepeat w as ↔ (as.take m).Nodup := by
  have hget : ∀ {j}, j < m → (as.take m)[j]? = as[j]? := fun hj => List.getElem?_take_of_lt hj
  rw [List.nodup_iff_getElem?_ne_getElem?]
  constructor
  · intro hno i j hij hj
    rw [length_take] at hj
    obtain ⟨hcomes, halive⟩ := (h.made j (by omega)).mpr (by omega)
    rw [hget (by omega), hget (by omega)]
    exact hno j (by omega) hcomes halive i hij
  · intro hnodup k hk hcomes halive j hj
    have hkm := (h.made k hk).mp ⟨hcomes, halive⟩
    have hne := hnodup j k hj (by rw [length_take]; omega)
    rwa [hget (by omega), hget hkm] at hne

/-! ## After the loop -/

/-- What `accept` does with the connection that it is given. -/
structure Accepted (peerId : GoString) (v : Vars) (r : Run) : Prop where
  noAttempt : ∀ j addr res, .attempt j addr res ∉ r.trace
  attempts : attempts r.trace = []
  opened : opened r.trace = []
  reports : reports r.trace = []
  closes : v.conn = closed r.trace ++ r.returned
  events : (∃ pr addr sch version, r.result = .ok pr ∧
      events r.trace = [.connected peerId addr sch version]) ∨
    ∃ err reported, r.result = .error err ∧ events r.trace = [.dialFailed peerId reported]
  proved : ∀ pr, r.result = .ok pr → pr.conn.peerId = some peerId

/-- A connection that is rejected is closed. -/
theorem Accepted.reject (hconn : v.conn = [mc]) (err err' : Err) :
    Accepted peerId v ⟨.error err, [.close mc, .notify (.dialFailed peerId (.bare err'))]⟩ where
  noAttempt := by simp
  attempts := rfl
  opened := rfl
  reports := rfl
  closes := hconn
  events := .inr ⟨err, .bare err', rfl, rfl⟩
  proved _ h := nomatch h

theorem accept_accepted (peerId : GoString) (v : Vars) : Accepted peerId v (accept peerId v) := by
  unfold accept
  split
  · rename_i err hres
    exact
      { noAttempt := by simp
        attempts := rfl
        opened := rfl
        reports := rfl
        closes := by rw [Vars.conn, hres]; rfl
        events := .inr ⟨err, _, rfl, rfl⟩
        proved := fun _ h => nomatch h }
  · rename_i mc connAddr hres
    have hconn : v.conn = [mc] := by rw [Vars.conn, hres]
    split
    · exact .reject hconn _ _
    · rename_i connPeerId hctx
      -- the identity that the handshake proved is compared with the one asked for
      split_ifs with hne
      · exact .reject hconn _ _
      · have hid : mc.peerId = some peerId := by
          unfold Conn.ctxPeerId at hctx
          split at hctx
          · rename_i id hid
            cases hctx
            rw [hid, not_not.mp hne]
          · cases hctx
        split
        · exact .reject hconn _ _
        · rename_i pr hpr
          have hmc : pr.conn = mc := by
            rw [newPeer, hctx] at hpr
            cases hpr
            rfl
          exact
            { noAttempt := by simp
              attempts := rfl
              opened := rfl
              reports := rfl
              closes := by rw [hconn, ← hmc]; rfl
              events := .inl ⟨pr, _, _, _, rfl, rfl⟩
              proved := fun pr' h => by cases h; rw [hmc, hid] }

/-- The report is left out, or it is the outcome of the loop. -/
theorem report_cases (p : PeerService) (dialAccepted : Bool) (v : Vars) :
    (p.report dialAccepted v = [] ∧
        (p.demotion.isSome = true → dialAccepted = false ∧ v.cancelled = true)) ∨
      ∃ outcome : DialOutcome, p.report dialAccepted v = [.observeDial outcome] ∧
        p.demotion.isSome = true ∧ (dialAccepted = false → v.cancelled = false) ∧
        outcome.peerId = v.outcome.peerId ∧
        outcome.quicTimedOut = v.outcome.quicTimedOut ∧
        outcome.succeededScheme = if dialAccepted then v.outcome.succeededScheme else [] := by
  unfold report
  cases p.demotion <;> cases dialAccepted <;> cases v.cancelled <;> simp

/-! ## The dial -/

/-- A peer comes from a connection. -/
theorem Accepted.conn_ne_nil (h : Accepted peerId v r) (hok : r.result.isOk = true) :
    v.conn ≠ [] := by
  rw [h.closes, Run.returned]
  cases hres : r.result with
  | error err =>
    rw [hres] at hok
    cases hok
  | ok pr => exact List.append_ne_nil_of_right_ne_nil _ (List.cons_ne_nil _ _)

/-- What the demotion service hears, if there is one. -/
theorem Ended.reports_spec (h : Ended p w peerId as m v) (hr : Accepted peerId v r)
    (hschemes : ∀ addr ∈ as, scheme addr ≠ []) :
    (reports (p.report r.result.isOk v)).length ≤ 1 ∧
    (∀ outcome ∈ reports (p.report r.result.isOk v), outcome.peerId = peerId ∧
      (outcome.succeededScheme ≠ [] ↔ r.result.isOk = true) ∧
      (outcome.quicTimedOut = true → ∃ k addr f, .attempt k addr (.error f) ∈ p.tried w as m ∧
        scheme addr = Dialing.quic ∧ isDialDegraded f.err = true)) ∧
    (v.conn = [] → m < as.length → reports (p.report r.result.isOk v) = []) := by
  obtain ⟨heq, -⟩ | ⟨outcome, heq, -, hcancelled, hid, hquic, hsucceeded⟩ :=
    p.report_cases r.result.isOk v
  · rw [heq]
    refine ⟨Nat.zero_le _, ?_, fun _ _ => rfl⟩
    intro outcome ho
    cases ho
  · rw [heq]
    refine ⟨le_rfl, ?_, ?_⟩
    · intro outcome' ho
      obtain rfl : outcome' = outcome := List.mem_singleton.mp ho
      refine ⟨hid.trans h.peerId, ?_, fun htimed => h.timedOut (hquic ▸ htimed)⟩
      rw [hsucceeded]
      split_ifs with hok
      · obtain ⟨addr, haddr, hscheme⟩ := h.succeeded (hr.conn_ne_nil hok)
        refine iff_of_true ?_ hok
        rw [hscheme]
        exact hschemes addr haddr
      · exact iff_of_false (fun hne => hne rfl) hok
    · -- a dial without a connection that leaves addresses untried was cancelled
      intro hconn hlt
      have hnot : r.result.isOk = false :=
        Bool.eq_false_iff.mpr fun hok => hr.conn_ne_nil hok hconn
      rw [h.left hconn hlt] at hcancelled
      exact nomatch hcancelled hnot

/-- Whether a dial that was cut short stays unreported. -/
theorem Ended.quiet_iff (h : Ended p w peerId as m v) (hr : Accepted peerId v r) :
    (r.result.isOk = false → CutShort w (p.tried w as m) →
      reports (p.report r.result.isOk v) = []) ↔
    (p.demotion.isSome = true → p.LastSeen w as) := by
  rw [← h.seen]
  obtain ⟨heq, hwhy⟩ | ⟨outcome, heq, hsome, hcancelled, -⟩ := p.report_cases r.result.isOk v
  · rw [heq]
    exact iff_of_true (fun _ _ => rfl) fun hsome _ => (hwhy hsome).2
  · rw [heq]
    constructor
    · intro hquiet _ hcut
      -- a dial that was cut short has no connection, so it returns no peer
      have hnot : r.result.isOk = false :=
        Bool.eq_false_iff.mpr fun hok => h.uncut (hr.conn_ne_nil hok) hcut
      cases hquiet hnot hcut
    · intro hseen hnot hcut
      have hcancel := hseen hsome hcut
      rw [hcancelled hnot] at hcancel
      cases hcancel

/-- A dial, given how its loop and what comes after it end. -/
theorem Ended.truthful_iff (has : as = p.ordered w peerId) (h : Ended p w peerId as m v)
    (hr : Accepted peerId v r) :
    let run : Run := ⟨r.result, .notify (.dialStarted peerId as.length) ::
      (v.trace ++ r.trace ++ p.report r.result.isOk v)⟩
    Sound p w peerId run ∧ (Truthful p w peerId run ↔
      p.NoRepeat w as ∧ (p.demotion.isSome = true → p.LastSeen w as)) := by
  have husable : ∀ addr ∈ as, addr ∈ p.known peerId ∧ p.transport (scheme addr) = true ∧
      scheme addr ≠ [] ∧ (scheme addr = Dialing.iroh → w.globalDial = true) := by
    intro addr haddr
    rw [has] at haddr
    exact p.mem_orderAddrs w haddr
  obtain ⟨honce, hreported, hleft⟩ := h.reports_spec hr fun addr haddr => (husable addr haddr).2.2.1
  -- the report holds nothing but a report
  have hsilent : attempts (p.report r.result.isOk v) = [] ∧
      Dialing.opened (p.report r.result.isOk v) = [] ∧ closed (p.report r.result.isOk v) = [] ∧
      events (p.report r.result.isOk v) = [] := by
    obtain ⟨heq, -⟩ | ⟨outcome, heq, -⟩ := p.report_cases r.result.isOk v
    all_goals rw [heq]; exact ⟨rfl, rfl, rfl, rfl⟩
  have hmem : ∀ j addr res, .attempt j addr res ∈
      (.notify (.dialStarted peerId as.length) ::
        (v.trace ++ r.trace ++ p.report r.result.isOk v) : List Action) ↔
      .attempt j addr res ∈ p.tried w as m := by
    intro j addr res
    have hreport : .attempt j addr res ∉ p.report r.result.isOk v := by
      obtain ⟨heq, -⟩ | ⟨outcome, heq, -⟩ := p.report_cases r.result.isOk v
      all_goals rw [heq]; simp
    simp [h.trace, hr.noAttempt, hreport]
  intro run
  have hattempts : attempts run.trace = as.take m := by
    show attempts (v.trace ++ r.trace ++ _) = _
    rw [attempts_append, attempts_append, h.trace, hr.attempts, hsilent.1, p.attempts_tried,
      append_nil, append_nil]
  have hopened : Dialing.opened run.trace = v.conn := by
    show Dialing.opened (v.trace ++ r.trace ++ _) = _
    rw [opened_append, opened_append, h.trace, hr.opened, hsilent.2.1, h.opened, append_nil,
      append_nil]
  have hreports : reports run.trace = reports (p.report r.result.isOk v) := by
    show reports (v.trace ++ r.trace ++ _) = _
    rw [reports_append, reports_append, h.trace, hr.reports, p.reports_tried, nil_append]
    rfl
  have hevents : events run.trace = .dialStarted peerId as.length :: events r.trace := by
    show _ :: events (v.trace ++ r.trace ++ _) = _
    rw [events_append, events_append, h.trace, hsilent.2.2.2, p.events_tried, append_nil,
      nil_append]
  have hsound : Sound p w peerId run :=
    { order := by
        obtain ⟨cs, hperm, hsorted, hcs⟩ :=
          p.orderAddrs_sorted w (p.known peerId) (p.dialPreferQuic peerId)
        refine ⟨cs, hperm, hsorted, ?_⟩
        rw [hattempts, ← hcs, has]
        exact List.take_prefix _ _
      usable := by
        rw [hattempts]
        intro addr haddr
        obtain ⟨hknown, htransport, -, hiroh⟩ := husable addr (List.mem_of_mem_take haddr)
        exact ⟨hknown, htransport, hiroh⟩
      proved := hr.proved
      closes := by
        rw [hopened, hr.closes]
        show _ = closed (v.trace ++ r.trace ++ _) ++ _
        rw [closed_append, closed_append, h.trace, hsilent.2.2.1, p.closed_tried, append_nil,
          nil_append]
        rfl
      events := by
        refine ⟨as.length, ?_⟩
        obtain ⟨pr, addr, sch, version, hok, hev⟩ | ⟨err, reported, herr, hev⟩ := hr.events
        · exact .inl ⟨pr, addr, sch, version, hok, by rw [hevents, hev]⟩
        · exact .inr ⟨err, reported, herr, by rw [hevents, hev]⟩
      atMostOnce := by rwa [hreports]
      reported := by
        rw [hreports]
        intro outcome ho
        obtain ⟨hid, hsucceeded, hquic⟩ := hreported outcome ho
        refine ⟨hid, hsucceeded, fun htimed => ?_⟩
        obtain ⟨k, addr, f, htried, hrest⟩ := hquic htimed
        exact ⟨k, addr, f, (hmem k addr _).mpr htried, hrest⟩
      brokenOff := by
        rw [hopened, hattempts, hreports, ← has, length_take]
        exact fun hconn hlt => hleft hconn (by omega) }
  have hcut : CutShort w run.trace ↔ CutShort w (p.tried w as m) :=
    exists_congr fun j => exists_congr fun addr => exists_congr fun f =>
      and_congr_left' (hmem j addr _)
  refine ⟨hsound, ?_⟩
  rw [h.noRepeat_iff, ← h.quiet_iff hr, ← hattempts, ← hreports, ← hcut]
  exact ⟨fun ht => ⟨ht.once, ht.quiet⟩, fun hc => { hsound with once := hc.1, quiet := hc.2 }⟩

/-- The dial is sound, and exactly under two conditions it is truthful. The first is that no address
of its list comes up twice; the second, that a transport whose last attempt is cut short says so
with the error of the context. -/
theorem dial_truthful_iff (p : PeerService) (w : World) (peerId : GoString) :
    Sound p w peerId (p.dial w peerId) ∧ (Truthful p w peerId (p.dial w peerId) ↔
      p.NoRepeat w (p.ordered w peerId) ∧
        (p.demotion.isSome = true → p.LastSeen w (p.ordered w peerId))) := by
  cases haddrs : p.getPeerAddrs peerId with
  | error err =>
    -- without addresses there is nothing to try, and nothing to report
    have hknown : p.known peerId = [] := by rw [known, haddrs]
    have hordered : p.ordered w peerId = [] := by rw [ordered, hknown]; rfl
    have hdial : p.dial w peerId = ⟨.error err, [.notify (.dialStarted peerId 0),
        .notify (.dialFailed peerId (.bare err))]⟩ := by
      rw [dial, haddrs]
    have hsound : Sound p w peerId (p.dial w peerId) := by
      rw [hdial]
      exact
        { order := ⟨[], by rw [hknown]; rfl, List.Pairwise.nil, List.nil_prefix⟩
          usable := fun _ h => nomatch h
          proved := fun _ h => nomatch h
          closes := rfl
          events := ⟨0, .inr ⟨err, .bare err, rfl, rfl⟩⟩
          atMostOnce := Nat.zero_le _
          reported := fun _ h => nomatch h
          brokenOff := fun _ _ => rfl }
    refine ⟨hsound, iff_of_true ?_ ⟨?_, ?_⟩⟩
    · refine { hsound with once := ?_, quiet := ?_ }
      · rw [hdial]
        exact List.nodup_nil
      · rw [hdial]
        exact fun _ _ => rfl
    · rw [hordered]
      exact fun k hk => absurd hk k.not_lt_zero
    · rw [hordered]
      intro _ n addr f cerr hlen
      cases hlen
  | ok addrs =>
    have hordered : p.orderAddrs w addrs (p.dialPreferQuic peerId) = p.ordered w peerId := by
      rw [ordered, known, haddrs]
    obtain ⟨m, hended⟩ := p.tryAddrs_ended w peerId (p.ordered w peerId)
    simp only [dial, haddrs, hordered]
    exact hended.truthful_iff rfl (accept_accepted peerId _)

end PeerService

/-! ## Two dials that are not truthful -/

/-- A client with quic and the demotion service, which knows some addresses of every peer. -/
def sampleService (addrs : List GoString) : PeerService where
  yamux := false
  quic := true
  webtransport := false
  iroh := false
  preferQuic := true
  nodeConf _ := some addrs
  peerAddrs := ∅
  demotion := some fun _ => false

/-- The address `quic://h`. -/
def sampleAddr : GoString := quic ++ separator ++ [104]

/-- A context that is cancelled with a cause in the first attempt. The transport returns the cause,
as quic-go does. -/
def cancelledWithCause : World where
  globalDial := false
  done := some (1, .canceled)
  isLocal _ _ := false
  dial _ _ _ := .error ⟨[.other 0], true⟩

/-- A host that does not answer. -/
def unanswered : World where
  globalDial := false
  done := none
  isLocal _ _ := false
  dial _ _ _ := .error ⟨[.idleTimeout], false⟩

/-- A dial that the caller cancels with a cause is reported, and an address that is listed twice is
tried twice. -/
theorem dial_not_truthful :
    ¬ Truthful (sampleService [sampleAddr]) cancelledWithCause []
      ((sampleService [sampleAddr]).dial cancelledWithCause []) ∧
    ¬ Truthful (sampleService [sampleAddr, sampleAddr]) unanswered []
      ((sampleService [sampleAddr, sampleAddr]).dial unanswered []) := by
  refine ⟨fun h => ?_, fun h => ?_⟩
  · have hquiet := h.quiet (by decide)
      ⟨0, sampleAddr, ⟨[.other 0], true⟩, List.mem_cons_of_mem _ (List.mem_cons_self ..), rfl, rfl⟩
    revert hquiet
    decide
  · have honce := h.once
    revert honce
    decide

end Dialing
