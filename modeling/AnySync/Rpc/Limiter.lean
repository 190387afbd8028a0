import AnySync.Go.Basic
import AnySync.Go.Run
import AnySync.Go.TokenBucket

/-!
# The limiter of rpcs

`net/rpc/limiter/limiter.go`: a token bucket for each peer and rpc. A loop drops the buckets that
were not used for a while, and a new one is full.

A call takes its bucket and the token at one time, and calls and rounds of the loop come one after
the other, at times that do not go back.

The main result is `State.bounded_iff`.
-/

namespace Limiter

open Bucket
open List (replicate countP_append)

/-- The bytes of `-`. -/
def dash : UInt8 := 45

/-- The id of a peer, which is in base58 and has no dash. -/
structure PeerId where
  id : GoString
  noDash : dash ∉ id
deriving DecidableEq

/-- `Config`. -/
structure Config where
  defaultTokens : Limits
  responseTokens : GoMap GoString Limits

/-- `getLimits`. -/
def Config.getLimits (cfg : Config) (rpc : GoString) : Limits :=
  (cfg.responseTokens.lookup rpc).getD cfg.defaultTokens

/-- `peerCheckInterval`, 10 seconds. -/
def peerCheckInterval : ℤ := 10 * nano

/-- `peerLimiter`, with the limits it was made with. -/
structure PeerLimiter where
  limits : Limits
  bucket : Bucket
  lastUsage : ℤ
deriving DecidableEq, Repr

/-- A call that was let through. -/
structure Passed where
  peer : PeerId
  rpc : GoString
  time : ℤ
deriving DecidableEq

structure State where
  limiters : GoString → Option PeerLimiter
  now : ℤ
  /-- The calls that were let through. -/
  passed : List Passed

inductive Act
  /-- `HandleRPC` of a stream, whose context may have no peer id. -/
  | handleRPC (peer : Option PeerId) (rpc : GoString) (now : ℤ)
  | peerLoop (now : ℤ)

namespace State

variable (cfg : Config)

def init (now : ℤ) : State where
  limiters _ := none
  now := now
  passed := []

/-- `strings.Join([]string{peerId, rpc}, "-")`. -/
def rpcPeer (peer : PeerId) (rpc : GoString) : GoString := peer.id ++ dash :: rpc

/-- `getPeerLimiter`. -/
def getPeerLimiter (s : State) (peer : PeerId) (rpc : GoString) (now : ℤ) : PeerLimiter :=
  match s.limiters (rpcPeer peer rpc) with
  | some lim => { lim with lastUsage := now }
  | none =>
    let limits := cfg.getLimits rpc
    { limits := limits, bucket := Bucket.full limits now, lastUsage := now }

/-- `HandleRPC` up to the handler, with a peer. -/
def handleRPC (s : State) (peer : PeerId) (rpc : GoString) (now : ℤ) : State :=
  let lim := s.getPeerLimiter cfg peer rpc now
  let r := lim.bucket.allow lim.limits now
  { limiters := fun k => if k = rpcPeer peer rpc then some { lim with bucket := r.2 }
      else s.limiters k
    now := now
    passed := if r.1 then s.passed ++ [{ peer := peer, rpc := rpc, time := now }] else s.passed }

/-- `peerLoop`. -/
def peerLoop (s : State) (now : ℤ) : State where
  limiters k := (s.limiters k).filter fun lim => ¬ now - lim.lastUsage > peerCheckInterval
  now := now
  passed := s.passed

/-- A step, at a time that is not before the last one. -/
def next (s : State) : Act → Option State
  | .handleRPC peer rpc now =>
    if now < s.now then none
    else
      match peer with
      | none => some { s with now := now }
      | some peer => some (s.handleRPC cfg peer rpc now)
  | .peerLoop now => if now < s.now then none else some (s.peerLoop now)

def run (start : ℤ) (acts : List Act) : Option State := acts.foldlM (next cfg) (init start)

/-- The calls of one rpc by one peer that were let through from `a` to `b`. -/
def count (s : State) (peer : PeerId) (rpc : GoString) (a b : ℤ) : ℕ :=
  s.passed.countP fun p => p.peer = peer ∧ p.rpc = rpc ∧ a ≤ p.time ∧ p.time ≤ b

end State

/-- A bucket with these limits is full by the time it can be dropped. -/
structure Refills (l : Limits) : Prop where
  rate : 0 ≤ l.rate
  max : 0 ≤ l.max
  full : l.max * nano ≤ l.rate * (peerCheckInterval + 1)

namespace State

variable {cfg : Config} {s s' : State} {peer : PeerId} {rpc : GoString}
variable {peer' : PeerId} {rpc' : GoString} {a b now : ℤ}

/-- A key belongs to one peer and one rpc. -/
theorem rpcPeer_injective (h : rpcPeer peer rpc = rpcPeer peer' rpc') :
    peer = peer' ∧ rpc = rpc' := by
  obtain ⟨id, hid⟩ := peer
  obtain ⟨id', hid'⟩ := peer'
  simp only [rpcPeer] at h
  rcases List.append_eq_append_iff.mp h with ⟨l, hl, hrest⟩ | ⟨l, hl, hrest⟩
  · cases l with
    | nil => simp_all
    | cons c l =>
      rw [List.cons_append, List.cons.injEq] at hrest
      exact (hid' (by rw [hl, ← hrest.1]; simp)).elim
  · cases l with
    | nil => simp_all
    | cons c l =>
      rw [List.cons_append, List.cons.injEq] at hrest
      exact (hid (by rw [hl, ← hrest.1]; simp)).elim

/-- The tokens that a call of the rpc by the peer finds; a bucket that is not there is full. -/
def avail (s : State) (l : Limits) (k : GoString) (now : ℤ) : ℤ :=
  match s.limiters k with
  | some lim => lim.bucket.avail l now
  | none => l.max * nano

variable (cfg) in
/-- What holds for the bucket of a peer and an rpc. -/
structure Ok (s : State) (peer : PeerId) (rpc : GoString) : Prop where
  limits : ∀ lim, s.limiters (rpcPeer peer rpc) = some lim → lim.limits = cfg.getLimits rpc
  tokens : ∀ lim, s.limiters (rpcPeer peer rpc) = some lim → 0 ≤ lim.bucket.tokens
  last : ∀ lim, s.limiters (rpcPeer peer rpc) = some lim →
    lim.bucket.last = lim.lastUsage ∧ lim.lastUsage ≤ s.now
  times : ∀ p ∈ s.passed, p.time ≤ s.now
  /-- The calls since `a` have taken the tokens that are gone. -/
  taken : ∀ a ≤ s.now, s.count peer rpc a s.now * nano +
    s.avail (cfg.getLimits rpc) (rpcPeer peer rpc) s.now ≤
      (cfg.getLimits rpc).max * nano + (cfg.getLimits rpc).rate * (s.now - a)
  bound : ∀ a b, a ≤ b → s.count peer rpc a b * nano ≤
    (cfg.getLimits rpc).max * nano + (cfg.getLimits rpc).rate * (b - a)

/-! ## Steps -/

/-- Nothing is let through in the future. -/
theorem count_of_le (htimes : ∀ p ∈ s.passed, p.time ≤ s.now) (hb : s.now ≤ b) :
    s.count peer rpc a b = s.count peer rpc a s.now := by
  refine List.countP_congr fun p hp => ?_
  have := htimes p hp
  simp only [decide_eq_true_eq]
  constructor
  · rintro ⟨h₁, h₂, h₃, -⟩
    exact ⟨h₁, h₂, h₃, this⟩
  · rintro ⟨h₁, h₂, h₃, -⟩
    exact ⟨h₁, h₂, h₃, by omega⟩

theorem count_of_lt (htimes : ∀ p ∈ s.passed, p.time ≤ s.now) (ha : s.now < a) :
    s.count peer rpc a b = 0 := by
  refine List.countP_eq_zero.mpr fun p hp => ?_
  have := htimes p hp
  simp only [decide_eq_true_eq]
  rintro ⟨-, -, h, -⟩
  omega

theorem avail_le_max (l : Limits) (k : GoString) (now : ℤ) : s.avail l k now ≤ l.max * nano := by
  rw [State.avail]
  split
  · exact Bucket.avail_le_max
  · exact le_rfl

/-- Tokens come in at the rate of the bucket. -/
theorem avail_le_of_le {l : Limits} (hrate : 0 ≤ l.rate) {k : GoString} {later : ℤ}
    (h : now ≤ later) : s.avail l k later ≤ s.avail l k now + l.rate * (later - now) := by
  rw [State.avail, State.avail]
  split
  · next lim _ =>
    have hle : lim.bucket.avail l later ≤ _ := Bucket.avail_le_of_le h
    rw [max_eq_right hrate] at hle
    exact hle
  · have : 0 ≤ l.rate * (later - now) := mul_nonneg hrate (by omega)
    omega

/-- Time passes. -/
theorem Ok.advance (h : s.Ok cfg peer rpc) (hr : Refills (cfg.getLimits rpc)) (hnow : s.now ≤ now) :
    { s with now := now }.Ok cfg peer rpc where
  limits := h.limits
  tokens := h.tokens
  last lim hlim := ⟨(h.last lim hlim).1, (h.last lim hlim).2.trans hnow⟩
  times p hp := (h.times p hp).trans hnow
  taken a ha := by
    have hrate : 0 ≤ (cfg.getLimits rpc).rate * (now - a) :=
      mul_nonneg hr.rate (by dsimp only at ha; omega)
    have hmax := avail_le_max (s := s) (cfg.getLimits rpc) (rpcPeer peer rpc) now
    by_cases hlt : s.now < a
    · have hzero : s.count peer rpc a now = 0 := count_of_lt h.times hlt
      show (s.count peer rpc a now : ℤ) * nano + s.avail _ _ now ≤ _
      rw [hzero]
      push_cast
      omega
    · have hcount : s.count peer rpc a now = s.count peer rpc a s.now := count_of_le h.times hnow
      have htaken := h.taken a (by omega)
      have havail : s.avail (cfg.getLimits rpc) (rpcPeer peer rpc) now ≤
          s.avail (cfg.getLimits rpc) (rpcPeer peer rpc) s.now +
            (cfg.getLimits rpc).rate * (now - s.now) := avail_le_of_le hr.rate hnow
      have hsplit : (cfg.getLimits rpc).rate * (now - a) =
          (cfg.getLimits rpc).rate * (s.now - a) + (cfg.getLimits rpc).rate * (now - s.now) := by
        ring
      show (s.count peer rpc a now : ℤ) * nano + s.avail _ _ now ≤ _
      rw [hcount, hsplit]
      omega
  bound := h.bound

/-- The loop drops a bucket only if it is full. -/
theorem Ok.peerLoop (h : s.Ok cfg peer rpc) (hr : Refills (cfg.getLimits rpc)) :
    (s.peerLoop s.now).Ok cfg peer rpc := by
  have hsub : ∀ lim, (s.peerLoop s.now).limiters (rpcPeer peer rpc) = some lim →
      s.limiters (rpcPeer peer rpc) = some lim := by
    intro lim hlim
    exact (Option.filter_eq_some_iff.mp hlim).1
  -- a bucket that is dropped is full, like the new one in its place
  have havail : (s.peerLoop s.now).avail (cfg.getLimits rpc) (rpcPeer peer rpc) s.now =
      s.avail (cfg.getLimits rpc) (rpcPeer peer rpc) s.now := by
    simp only [State.avail, State.peerLoop]
    cases hlim : s.limiters (rpcPeer peer rpc) with
    | none => rfl
    | some lim =>
      by_cases hold : s.now - lim.lastUsage > peerCheckInterval
      · simp only [Option.filter, hold, not_true, decide_false, Bool.false_eq_true, if_false]
        have htokens := h.tokens lim hlim
        have hrefill : (cfg.getLimits rpc).rate * (peerCheckInterval + 1) ≤
            (cfg.getLimits rpc).rate * (s.now - lim.lastUsage) :=
          mul_le_mul_of_nonneg_left (by omega) hr.rate
        have hfull := hr.full
        rw [Bucket.avail, max_eq_right hr.rate, (h.last lim hlim).1]
        omega
      · simp [Option.filter, hold]
  exact
    { limits := fun lim hlim => h.limits lim (hsub lim hlim)
      tokens := fun lim hlim => h.tokens lim (hsub lim hlim)
      last := fun lim hlim => h.last lim (hsub lim hlim)
      times := h.times
      taken := fun a ha => by
        show (s.count peer rpc a s.now : ℤ) * nano + (s.peerLoop s.now).avail _ _ s.now ≤ _
        rw [havail]
        exact h.taken a ha
      bound := h.bound }

theorem times_handleRPC (h : ∀ p ∈ s.passed, p.time ≤ s.now) :
    ∀ p ∈ (s.handleRPC cfg peer rpc s.now).passed, p.time ≤ s.now := by
  intro p hp
  simp only [State.handleRPC] at hp
  split at hp
  · rcases List.mem_append.mp hp with hp | hp
    · exact h p hp
    · rw [List.mem_singleton] at hp
      simp [hp]
  · exact h p hp

/-- A call of another peer or of another rpc. -/
theorem Ok.handleRPC_other (h : s.Ok cfg peer rpc) (hne : ¬ (peer' = peer ∧ rpc' = rpc)) :
    (s.handleRPC cfg peer' rpc' s.now).Ok cfg peer rpc := by
  -- another call has another bucket
  have hkey : rpcPeer peer rpc ≠ rpcPeer peer' rpc' := by
    intro heq
    obtain ⟨rfl, rfl⟩ := rpcPeer_injective heq
    exact hne ⟨rfl, rfl⟩
  have hlim : (s.handleRPC cfg peer' rpc' s.now).limiters (rpcPeer peer rpc) =
      s.limiters (rpcPeer peer rpc) := by
    simp [State.handleRPC, hkey]
  have hcount : ∀ a b, (s.handleRPC cfg peer' rpc' s.now).count peer rpc a b =
      s.count peer rpc a b := by
    intro a b
    simp only [State.count, State.handleRPC]
    split
    · rw [countP_append]
      have : ¬ (peer' = peer ∧ rpc' = rpc ∧ a ≤ s.now ∧ s.now ≤ b) := fun h => hne ⟨h.1, h.2.1⟩
      simp [this]
    · rfl
  exact
    { limits := by
        rw [hlim]
        exact h.limits
      tokens := by
        rw [hlim]
        exact h.tokens
      last := by
        rw [hlim]
        exact h.last
      times := times_handleRPC h.times
      taken := fun a ha => by
        rw [hcount, State.avail, hlim]
        exact h.taken a ha
      bound := fun a b hab => by
        rw [hcount]
        exact h.bound a b hab }

section

variable (h : s.Ok cfg peer rpc) (hr : Refills (cfg.getLimits rpc))

include h hr

/-- The bucket that a call uses. -/
theorem Ok.getPeerLimiter {lim : PeerLimiter} (hlim : lim = s.getPeerLimiter cfg peer rpc s.now) :
    lim.limits = cfg.getLimits rpc ∧ lim.lastUsage = s.now ∧ 0 ≤ lim.bucket.tokens ∧
      lim.bucket.last ≤ s.now ∧
      lim.bucket.avail (cfg.getLimits rpc) s.now =
        s.avail (cfg.getLimits rpc) (rpcPeer peer rpc) s.now := by
  rw [State.getPeerLimiter] at hlim
  rw [State.avail]
  split at hlim
  · next lim' hlim' =>
    subst hlim
    obtain ⟨hlast, hle⟩ := h.last lim' hlim'
    exact ⟨h.limits lim' hlim', rfl, h.tokens lim' hlim', hlast ▸ hle, rfl⟩
  · next hnone =>
    subst hlim
    have hnano : 0 ≤ nano := by decide
    exact ⟨rfl, rfl, mul_nonneg hr.max hnano, le_rfl, Bucket.avail_full⟩

/-- A call of the peer. -/
theorem Ok.handleRPC :
    (s.handleRPC cfg peer rpc s.now).Ok cfg peer rpc := by
  obtain ⟨lim, hlim⟩ : ∃ lim, lim = s.getPeerLimiter cfg peer rpc s.now := ⟨_, rfl⟩
  obtain ⟨hlimits, husage, htokens, hlast, havail⟩ := h.getPeerLimiter hr hlim
  have hstate : s.handleRPC cfg peer rpc s.now =
      { limiters := fun k => if k = rpcPeer peer rpc then
          some { lim with bucket := (lim.bucket.allow (cfg.getLimits rpc) s.now).2 }
          else s.limiters k
        now := s.now
        passed := if (lim.bucket.allow (cfg.getLimits rpc) s.now).1 then
          s.passed ++ [{ peer := peer, rpc := rpc, time := s.now }] else s.passed } := by
    rw [State.handleRPC, ← hlim, hlimits]
  have hmine : ∀ lim', (s.handleRPC cfg peer rpc s.now).limiters (rpcPeer peer rpc) = some lim' →
      lim' = { lim with bucket := (lim.bucket.allow (cfg.getLimits rpc) s.now).2 } := by
    intro lim' hlim'
    rw [hstate] at hlim'
    simpa using hlim'.symm
  -- a call that is let through takes one token
  have hleft : (s.handleRPC cfg peer rpc s.now).avail (cfg.getLimits rpc) (rpcPeer peer rpc) s.now =
      s.avail (cfg.getLimits rpc) (rpcPeer peer rpc) s.now -
        if (lim.bucket.allow (cfg.getLimits rpc) s.now).1 then nano else 0 := by
    rw [← havail, ← Bucket.avail_allow, hstate]
    simp [State.avail]
  have hcount : ∀ a b, ((s.handleRPC cfg peer rpc s.now).count peer rpc a b : ℤ) =
      s.count peer rpc a b + if (lim.bucket.allow (cfg.getLimits rpc) s.now).1 ∧
        a ≤ s.now ∧ s.now ≤ b then 1 else 0 := by
    intro a b
    rw [hstate]
    simp only [State.count]
    by_cases hpass : (lim.bucket.allow (cfg.getLimits rpc) s.now).1 = true
    · rw [if_pos hpass, countP_append]
      by_cases hin : a ≤ s.now ∧ s.now ≤ b
      · simp [hpass, hin]
      · simp [hpass, hin]
    · simp [hpass]
  have hpass : (lim.bucket.allow (cfg.getLimits rpc) s.now).1 = true →
      nano ≤ s.avail (cfg.getLimits rpc) (rpcPeer peer rpc) s.now := by
    intro hpass
    rw [Bucket.allow_fst, havail] at hpass
    exact of_decide_eq_true hpass
  exact
    { limits := fun lim' hlim' => by
        rw [hmine lim' hlim']
        exact hlimits
      tokens := fun lim' hlim' => by
        rw [hmine lim' hlim']
        exact Bucket.allow_tokens_nonneg hr.max htokens hlast
      last := fun lim' hlim' => by
        rw [hmine lim' hlim']
        exact ⟨Bucket.allow_last.trans husage.symm, husage.le⟩
      times := times_handleRPC h.times
      taken := fun a ha => by
        have htaken := h.taken a ha
        have ha' : a ≤ s.now := ha
        show ((s.handleRPC cfg peer rpc s.now).count peer rpc a s.now : ℤ) * nano +
          (s.handleRPC cfg peer rpc s.now).avail _ _ s.now ≤
            (cfg.getLimits rpc).max * nano + (cfg.getLimits rpc).rate * (s.now - a)
        rw [hcount, hleft]
        -- what was let through and what is left add up to the same
        by_cases hp : (lim.bucket.allow (cfg.getLimits rpc) s.now).1 = true
        · simp only [hp, ha', le_refl, and_self, if_true]
          linarith
        · simpa [hp] using htaken
      bound := fun a b hab => by
        have hbound := h.bound a b hab
        rw [hcount]
        split
        · next hin =>
          -- one more call had a token, which came in between `a` and now
          have hle := hpass hin.1
          have htaken := h.taken a hin.2.1
          have hcnt : s.count peer rpc a b = s.count peer rpc a s.now :=
            count_of_le h.times hin.2.2
          have hrate : (cfg.getLimits rpc).rate * (s.now - a) ≤
              (cfg.getLimits rpc).rate * (b - a) :=
            mul_le_mul_of_nonneg_left (by omega) hr.rate
          rw [hcnt]
          linarith
        · simpa using hbound }

/-- Every step keeps the bound. -/
theorem Ok.next {act : Act} (hstep : s.next cfg act = some s') : s'.Ok cfg peer rpc := by
  cases act with
  | handleRPC peer' rpc' now =>
    simp only [State.next] at hstep
    split at hstep
    · cases hstep
    · next hnow =>
      have hadvance := h.advance hr (Int.not_lt.mp hnow)
      cases peer' with
      | none =>
        cases hstep
        exact hadvance
      | some peer' =>
        cases hstep
        by_cases hsame : peer' = peer ∧ rpc' = rpc
        · obtain ⟨rfl, rfl⟩ := hsame
          exact hadvance.handleRPC hr
        · exact hadvance.handleRPC_other hsame
  | peerLoop now =>
    simp only [State.next] at hstep
    split at hstep
    · cases hstep
    · next hnow =>
      cases hstep
      exact (h.advance hr (Int.not_lt.mp hnow)).peerLoop hr

end

/-- The bound holds after every run. -/
theorem ok_of_run (hr : Refills (cfg.getLimits rpc)) {start : ℤ} {acts : List Act}
    (hrun : run cfg start acts = some s) : s.Ok cfg peer rpc := by
  have hinit : (init start).Ok cfg peer rpc :=
    { limits := nofun
      tokens := nofun
      last := nofun
      times := by simp [init]
      taken := fun a ha => by
        have hrate : 0 ≤ (cfg.getLimits rpc).rate * ((init start).now - a) :=
          mul_nonneg hr.rate (by omega)
        simpa [count, init, avail] using hrate
      bound := fun a b hab => by
        have hrate : 0 ≤ (cfg.getLimits rpc).rate * (b - a) := mul_nonneg hr.rate (by omega)
        have hmax : 0 ≤ (cfg.getLimits rpc).max * nano := mul_nonneg hr.max (by decide)
        simp only [count, init, List.countP_nil]
        push_cast
        omega }
  exact foldlM_some_invariant (State.Ok cfg · peer rpc) (fun _ _ _ _ hs hnext => hs.next hr hnext)
    hinit hrun

/-! ## A bucket that is dropped too early -/

theorem handleRPC_of_avail
    (hlimits : ∀ lim, s.limiters (rpcPeer peer rpc) = some lim → lim.limits = cfg.getLimits rpc)
    (havail : nano ≤ s.avail (cfg.getLimits rpc) (rpcPeer peer rpc) now) :
    (s.handleRPC cfg peer rpc now).passed = s.passed ++ [⟨peer, rpc, now⟩] ∧
      (s.handleRPC cfg peer rpc now).avail (cfg.getLimits rpc) (rpcPeer peer rpc) now =
        s.avail (cfg.getLimits rpc) (rpcPeer peer rpc) now - nano ∧
      ∃ lim, (s.handleRPC cfg peer rpc now).limiters (rpcPeer peer rpc) = some lim ∧
        lim.limits = cfg.getLimits rpc ∧ lim.lastUsage = now := by
  obtain ⟨lim, hlim⟩ : ∃ lim, lim = s.getPeerLimiter cfg peer rpc now := ⟨_, rfl⟩
  have hfacts : lim.limits = cfg.getLimits rpc ∧ lim.lastUsage = now ∧
      lim.bucket.avail (cfg.getLimits rpc) now =
        s.avail (cfg.getLimits rpc) (rpcPeer peer rpc) now := by
    rw [State.getPeerLimiter] at hlim
    rw [State.avail]
    split at hlim
    · next lim' hlim' =>
      subst hlim
      exact ⟨hlimits lim' hlim', rfl, rfl⟩
    · subst hlim
      exact ⟨rfl, rfl, Bucket.avail_full⟩
  obtain ⟨hl, husage, hbucket⟩ := hfacts
  have hpass : (lim.bucket.allow (cfg.getLimits rpc) now).1 = true := by
    rw [Bucket.allow_fst, hbucket]
    exact decide_eq_true havail
  have hleft : (lim.bucket.allow (cfg.getLimits rpc) now).2.avail (cfg.getLimits rpc) now = _ :=
    Bucket.avail_allow
  rw [if_pos hpass, hbucket] at hleft
  simp only [State.handleRPC, ← hlim, hl, hpass, State.avail, if_true]
  exact ⟨trivial, hleft, _, rfl, rfl, husage⟩

/-- As many calls at one time as there are tokens. -/
theorem exists_calls (n : ℕ) (hnow : s.now ≤ now)
    (hlimits : ∀ lim, s.limiters (rpcPeer peer rpc) = some lim → lim.limits = cfg.getLimits rpc)
    (havail : n * nano ≤ s.avail (cfg.getLimits rpc) (rpcPeer peer rpc) now) :
    ∃ s', (replicate n (.handleRPC (some peer) rpc now)).foldlM (State.next cfg) s = some s' ∧
      s'.passed = s.passed ++ replicate n ⟨peer, rpc, now⟩ ∧ s'.now ≤ now ∧
      (n ≠ 0 → ∃ lim, s'.limiters (rpcPeer peer rpc) = some lim ∧ lim.lastUsage = now) := by
  induction n generalizing s with
  | zero => exact ⟨s, rfl, by simp, hnow, by simp⟩
  | succ n ih =>
    have hnano : 0 < nano := by decide
    push_cast at havail
    have hn : 0 ≤ (n : ℤ) * nano := mul_nonneg (Int.natCast_nonneg n) hnano.le
    have htoken : nano ≤ s.avail (cfg.getLimits rpc) (rpcPeer peer rpc) now := by linarith
    obtain ⟨hpassed, hleft, lim, hlim, hl, husage⟩ := handleRPC_of_avail hlimits htoken
    have hone : s.next cfg (.handleRPC (some peer) rpc now) =
        some (s.handleRPC cfg peer rpc now) := by
      simp [State.next, Int.not_lt.mpr hnow]
    obtain ⟨s', hrun, hpassed', hnow', hlast⟩ := ih (s := s.handleRPC cfg peer rpc now) le_rfl
      (fun lim' hlim' => by rw [hlim] at hlim'; cases hlim'; exact hl) (by linarith)
    refine ⟨s', ?_, ?_, hnow', fun _ => ?_⟩
    · rw [List.replicate_succ, List.foldlM_cons, hone]
      exact hrun
    · rw [hpassed', hpassed, List.replicate_succ, List.append_assoc]
      rfl
    · by_cases hzero : n = 0
      · subst hzero
        cases hrun
        exact ⟨lim, hlim, husage⟩
      · exact hlast hzero

/-- All tokens of a bucket, and all of the one that replaces it. -/
theorem exists_twice (cfg : Config) (rpc : GoString) (peer : PeerId)
    (hmax : 0 ≤ (cfg.getLimits rpc).max) :
    ∃ s, (∃ acts, run cfg 0 acts = some s) ∧
      s.count peer rpc 0 (peerCheckInterval + 1) = 2 * (cfg.getLimits rpc).max.toNat := by
  obtain ⟨n, hn⟩ := Int.eq_ofNat_of_zero_le hmax
  rw [hn, Int.toNat_natCast]
  by_cases hzero : n = 0
  · exact ⟨init 0, ⟨[], rfl⟩, by simp [count, init, hzero]⟩
  obtain ⟨s₁, hrun₁, hpassed₁, hnow₁, hlast₁⟩ :=
    @exists_calls cfg (init 0) peer rpc 0 n le_rfl nofun (by simp [avail, init, hn])
  -- the loop finds the bucket too old
  have hinterval : (0 : ℤ) ≤ peerCheckInterval := by decide
  have hdropped : (s₁.peerLoop (peerCheckInterval + 1)).limiters (rpcPeer peer rpc) = none := by
    obtain ⟨lim, hlim, husage⟩ := hlast₁ hzero
    simp [State.peerLoop, hlim, husage]
  have hloop : s₁.next cfg (.peerLoop (peerCheckInterval + 1)) =
      some (s₁.peerLoop (peerCheckInterval + 1)) := by
    rw [State.next, if_neg (by omega)]
  obtain ⟨s₂, hrun₂, hpassed₂, -, -⟩ :=
    @exists_calls cfg (s₁.peerLoop (peerCheckInterval + 1)) peer rpc (peerCheckInterval + 1) n
      le_rfl (by simp [hdropped]) (by simp [avail, hdropped, hn])
  refine ⟨s₂, ⟨replicate n (.handleRPC (some peer) rpc 0) ++
    .peerLoop (peerCheckInterval + 1) ::
      replicate n (.handleRPC (some peer) rpc (peerCheckInterval + 1)), ?_⟩, ?_⟩
  · rw [run, List.foldlM_append, hrun₁, Option.bind_eq_bind, Option.bind_some, List.foldlM_cons,
      hloop]
    exact hrun₂
  · have hpassed : s₂.passed = replicate n ⟨peer, rpc, 0⟩ ++
        replicate n ⟨peer, rpc, peerCheckInterval + 1⟩ := by
      rw [hpassed₂]
      simp [State.peerLoop, hpassed₁, init]
    simp only [count, hpassed, countP_append, List.countP_replicate]
    have h₀ : (0 : ℤ) ≤ peerCheckInterval + 1 := by omega
    simp [h₀]
    omega

/-- Over every run, the calls of an rpc by a peer that are let through from `a` to `b` are bounded
by the limits of the rpc, exactly if buckets with these limits are full by the time they are
dropped. -/
theorem bounded_iff (cfg : Config) :
    (∀ start acts s, run cfg start acts = some s → ∀ peer rpc a b, a ≤ b →
      s.count peer rpc a b * nano ≤
        (cfg.getLimits rpc).max * nano + (cfg.getLimits rpc).rate * (b - a)) ↔
      ∀ rpc, Refills (cfg.getLimits rpc) := by
  constructor
  · intro h rpc
    have hnano : 0 < nano := by decide
    let peer : PeerId := ⟨[], by simp⟩
    -- a run without calls shows that the limits are not negative
    have hempty : ∀ b, 0 ≤ b → 0 ≤ (cfg.getLimits rpc).max * nano +
        (cfg.getLimits rpc).rate * b := by
      intro b hb
      simpa [count, init] using h 0 [] _ rfl peer rpc 0 b hb
    have hmax : 0 ≤ (cfg.getLimits rpc).max := by
      have := hempty 0 le_rfl
      nlinarith
    have hrate : 0 ≤ (cfg.getLimits rpc).rate := by
      have hbound := hempty ((cfg.getLimits rpc).max * nano + 1) (by positivity)
      by_contra hneg
      have hle : (cfg.getLimits rpc).rate * ((cfg.getLimits rpc).max * nano + 1) ≤
          -1 * ((cfg.getLimits rpc).max * nano + 1) :=
        mul_le_mul_of_nonneg_right (by omega) (by positivity)
      linarith
    refine ⟨hrate, hmax, ?_⟩
    by_contra hlt
    -- a bucket that is dropped too early can be emptied twice
    obtain ⟨s₂, ⟨acts, hrun⟩, hcount⟩ := exists_twice cfg rpc peer hmax
    have hbound := h 0 acts s₂ hrun peer rpc 0 (peerCheckInterval + 1) (by decide)
    rw [hcount, sub_zero] at hbound
    push_cast at hbound
    rw [Int.toNat_of_nonneg hmax] at hbound
    linarith
  · intro hr start acts s hrun peer rpc a b hab
    exact (ok_of_run (hr rpc) hrun).bound a b hab

/-- One token in a second and room for twelve: a peer makes 24 calls in little more than ten
seconds, where the limits allow 22. -/
theorem dropped_bucket_passed_twice :
    (run ⟨⟨1, 12⟩, ∅⟩ 0
      (replicate 12 (.handleRPC (some ⟨[], by simp⟩) [47] 0) ++
        .peerLoop (peerCheckInterval + 1) ::
          replicate 12 (.handleRPC (some ⟨[], by simp⟩) [47] (peerCheckInterval + 1)))).map
      (fun s => (s.count ⟨[], by simp⟩ [47] 0 (peerCheckInterval + 1),
        decide (s.count ⟨[], by simp⟩ [47] 0 (peerCheckInterval + 1) * nano ≤
          12 * nano + 1 * (peerCheckInterval + 1 - 0)))) = some (24, false) := by
  decide +kernel

end State

end Limiter
