import AnySync.Go.Run
import Mathlib.Data.List.Nodup
import Mathlib.Data.List.Range
import Mathlib.Data.Nat.Find

/-!
# The components of an app

The model of `Start` and `Close` of `app/app.go`. Both run under `lifecycleMu` from their first line
to their last, so the steps of one call are not mixed with those of another; a step is one call of a
component, and any number of calls of `Start` and `Close` come in any order.

The main result is `State.closes_in_order`.
-/

namespace App

open List (append_assoc append_nil replicate nil_append filterMap_append count_append)

/-- A component, with what its methods return. An error has a code. -/
structure Component where
  /-- Whether it is a `ComponentRunnable`. -/
  runnable : Bool
  initErr : Option ℕ
  runErr : Option ℕ
  closeErr : Option ℕ
deriving DecidableEq, Repr

/-- A call of a component, by its number. -/
inductive Event
  | init (i : ℕ)
  | run (i : ℕ)
  | close (i : ℕ)
deriving DecidableEq, Repr

def Event.index : Event → ℕ
  | .init i | .run i | .close i => i

/-- What a call returns. -/
inductive Return
  | ok
  | errAppAlreadyStarted
  | errAppClosed
  /-- `can't init service`. -/
  | errInit (i err : ℕ)
  /-- `can't run service`. -/
  | errRun (i err : ℕ)
  /-- The errors of the components, joined. -/
  | errClose (errs : List (ℕ × ℕ))
deriving DecidableEq, Repr

/-- Where the call is that holds `lifecycleMu`. -/
inductive Pc
  /-- In the first loop of `Start`. -/
  | init (i : ℕ)
  /-- In the second loop. -/
  | run (i : ℕ)
  /-- In `closeServices(idx)`, with `k` components to go. -/
  | closeServices (idx k : ℕ) (res : Return)
  /-- In the loop of `Close`; the component `k - 1` is next. -/
  | close (k : ℕ) (errs : List (ℕ × ℕ))
deriving DecidableEq, Repr

structure State where
  started : Bool
  closed : Bool
  initialized : ℕ
  closedUpTo : ℕ
  /-- The call that holds `lifecycleMu`. -/
  holder : Option Pc
  /-- The calls of components. -/
  log : List Event
  /-- What the calls of `Start` and `Close` have returned. -/
  returned : List Return
deriving DecidableEq, Repr

inductive Act
  /-- A `Start` takes `lifecycleMu`. -/
  | start
  /-- A `Close` takes `lifecycleMu`. -/
  | close
  /-- The call that has it goes on. -/
  | go
deriving DecidableEq, Repr

variable (comps : List Component)

namespace State

def init : State where
  started := false
  closed := false
  initialized := 0
  closedUpTo := 0
  holder := none
  log := []
  returned := []

/-- The call returns and unlocks. -/
def ret (s : State) (res : Return) : State :=
  { s with holder := none, returned := s.returned ++ [res] }

/-- A step of the call that holds `lifecycleMu`. -/
def go (s : State) : Pc → State
  | .init i =>
    match comps[i]? with
    | none => { s with holder := some (.run 0) }
    | some c =>
      let s := { s with log := s.log ++ [Event.init i], initialized := i + 1 }
      match c.initErr with
      | some err => { s with holder := some (.closeServices i (i + 1) (.errInit i err)) }
      | none => { s with holder := some (.init (i + 1)) }
  | .run i =>
    match comps[i]? with
    | none => s.ret .ok
    | some c =>
      if c.runnable then
        let s := { s with log := s.log ++ [Event.run i] }
        match c.runErr with
        | some err => { s with holder := some (.closeServices i (i + 1) (.errRun i err)) }
        | none => { s with holder := some (.run (i + 1)) }
      else { s with holder := some (.run (i + 1)) }
  | .closeServices idx 0 res => { s with closedUpTo := idx + 1 }.ret res
  | .closeServices idx (i + 1) res =>
    match comps[i]? with
    | none => s
    | some c =>
      { s with
        holder := some (.closeServices idx i res)
        log := if c.runnable then s.log ++ [.close i] else s.log }
  | .close k errs =>
    if k ≤ s.closedUpTo then s.ret (if errs = [] then .ok else .errClose errs)
    else
      match comps[k - 1]? with
      | none => s
      | some c =>
        if c.runnable then
          { s with
            holder := some (.close (k - 1) (errs ++ (c.closeErr.map (k - 1, ·)).toList))
            log := s.log ++ [.close (k - 1)] }
        else { s with holder := some (.close (k - 1) errs) }

/-- A step. -/
def next (s : State) (act : Act) : Option State :=
  match act, s.holder with
  | .start, none =>
    if s.started then some (s.ret .errAppAlreadyStarted)
    else if s.closed then some (s.ret .errAppClosed)
    else some { s with started := true, holder := some (.init 0) }
  | .close, none =>
    if s.closed then some (s.ret .ok)
    else some { s with closed := true, holder := some (.close s.initialized []) }
  | .go, some pc => some (s.go comps pc)
  | _, _ => none

def run (acts : List Act) : Option State := acts.foldlM (next comps) init

end State

/-! ## The calls of a whole run -/

variable {a k i : ℕ} {c : Component}

def IsRunnable (i : ℕ) : Prop := ∃ c, comps[i]? = some c ∧ c.runnable = true

instance (i : ℕ) : Decidable (IsRunnable comps i) :=
  decidable_of_iff ((comps[i]?.map Component.runnable).getD false = true) (by
    rw [IsRunnable]
    cases comps[i]? <;> simp)

/-- The runnable components from `a` to `b`. -/
def runnables (a b : ℕ) : List ℕ := (List.range' a (b - a)).filter (IsRunnable comps ·)

def inits (k : ℕ) : List Event := (List.range k).map .init

def runs (k : ℕ) : List Event := (runnables comps 0 k).map .run

def closes (a b : ℕ) : List Event := (runnables comps a b).reverse.map .close

/-- How `Start` ends. -/
inductive Outcome
  | ok
  | initFails (i : ℕ)
  | runFails (i : ℕ)

open Outcome

def InitsOk (k : ℕ) : Prop := ∀ i < k, ∀ c, comps[i]? = some c → c.initErr = none

def RunsOk (k : ℕ) : Prop := ∀ i < k, ∀ c, comps[i]? = some c → c.runnable = true → c.runErr = none

def Outcome.Of : Outcome → Prop
  | .ok => InitsOk comps comps.length ∧ RunsOk comps comps.length
  | .initFails i => InitsOk comps i ∧ ∃ c, comps[i]? = some c ∧ c.initErr ≠ none
  | .runFails i => InitsOk comps comps.length ∧ RunsOk comps i ∧
      ∃ c, comps[i]? = some c ∧ c.runnable = true ∧ c.runErr ≠ none

/-- `app.initialized` after `Start`. -/
def Outcome.initialized : Outcome → ℕ
  | .initFails i => i + 1
  | _ => comps.length

/-- `app.closedUpTo` after `Start`. -/
def Outcome.closedUpTo : Outcome → ℕ
  | .ok => 0
  | .initFails i | .runFails i => i + 1

/-- The calls of `Start`. -/
def Outcome.startLog : Outcome → List Event
  | .ok => inits comps.length ++ runs comps comps.length
  | .initFails i => inits (i + 1) ++ closes comps 0 (i + 1)
  | .runFails i => inits comps.length ++ runs comps (i + 1) ++ closes comps 0 (i + 1)

/-- The calls of `Start` and of `Close`. -/
def Outcome.finalLog (o : Outcome) : List Event :=
  o.startLog comps ++ closes comps o.closedUpTo (o.initialized comps)

variable {comps}

/-- One more component, which counts if it is runnable. -/
theorem runnables_succ (h : a ≤ k) :
    runnables comps a (k + 1) =
      runnables comps a k ++ if IsRunnable comps k then [k] else [] := by
  have hlen : k + 1 - a = (k - a) + 1 := by omega
  rw [runnables, hlen, List.range'_concat, List.filter_append, runnables]
  have hk : a + 1 * (k - a) = k := by omega
  rw [hk]
  split
  · next hr => simp [hr]
  · next hr => simp [hr]

theorem mem_runnables {b : ℕ} : i ∈ runnables comps a b ↔ a ≤ i ∧ i < b ∧ IsRunnable comps i := by
  have hrange : a ≤ i ∧ i < a + (b - a) ↔ a ≤ i ∧ i < b := by omega
  rw [runnables, List.mem_filter, List.mem_range'_1, decide_eq_true_eq, hrange, and_assoc]

/-- The runnable components are listed in the order of their registration. -/
theorem runnables_sorted (a b : ℕ) : (runnables comps a b).Pairwise (· < ·) :=
  (List.pairwise_lt_range' 1).filter _

theorem inits_succ (k : ℕ) : inits (k + 1) = inits k ++ [.init k] := by
  simp [inits, List.range_succ]

theorem runs_succ (k : ℕ) :
    runs comps (k + 1) = runs comps k ++ if IsRunnable comps k then [.run k] else [] := by
  rw [runs, runnables_succ (Nat.zero_le k), List.map_append, runs]
  split <;> rfl

/-- The component `k` is closed before those from `a` to `k`. -/
theorem closes_succ (h : a ≤ k) :
    closes comps a (k + 1) = (if IsRunnable comps k then [.close k] else []) ++
      closes comps a k := by
  rw [closes, runnables_succ h, List.reverse_append, List.map_append, closes]
  split <;> rfl

/-- Between a component and itself, nothing is closed. -/
theorem closes_self (a : ℕ) : closes comps a a = [] := by
  simp [closes, runnables]

theorem mem_inits : .init i ∈ inits k ↔ i < k := by
  simp [inits]

/-! ## Steps -/

variable (comps) in
/-- What holds when `Start` has returned, for the calls of `Close` so far and the ones to come. -/
def Outcome.Done (o : Outcome) (s : State) : Prop :=
  o.Of comps ∧ s.started = true ∧ s.initialized = o.initialized comps ∧
    s.closedUpTo = o.closedUpTo

/-- No `Start` has come so far. -/
def State.Fresh (s : State) : Prop :=
  s.started = false ∧ s.initialized = 0 ∧ s.closedUpTo = 0 ∧ s.log = []

variable (comps) in
/-- What holds in every run. -/
def State.Inv (s : State) : Prop :=
  match s.holder with
  | none => s.Fresh ∨ ∃ o : Outcome, o.Done comps s ∧
      s.log = if s.closed then o.finalLog comps else o.startLog comps
  | some (.init i) => s.started = true ∧ s.closed = false ∧ InitsOk comps i ∧ i ≤ comps.length ∧
      s.initialized = i ∧ s.closedUpTo = 0 ∧ s.log = inits i
  | some (.run i) => s.started = true ∧ s.closed = false ∧ InitsOk comps comps.length ∧
      RunsOk comps i ∧ i ≤ comps.length ∧ s.initialized = comps.length ∧ s.closedUpTo = 0 ∧
      s.log = inits comps.length ++ runs comps i
  | some (.closeServices idx k _) => s.started = true ∧ s.closed = false ∧
      ∃ o : Outcome, o.Of comps ∧ o.closedUpTo = idx + 1 ∧ s.initialized = o.initialized comps ∧
        s.log ++ closes comps 0 k = o.startLog comps
  | some (.close k _) => s.closed = true ∧
      (s.Fresh ∧ k = 0 ∨ ∃ o : Outcome, o.Done comps s ∧
        s.log ++ closes comps s.closedUpTo k = o.finalLog comps)

/-- For a component of the list, the flag decides. -/
theorem isRunnable_iff (hc : comps[i]? = some c) : IsRunnable comps i ↔ c.runnable = true := by
  rw [IsRunnable, hc]
  simp

/-- A round of `Start` whose `Init` succeeds. -/
theorem InitsOk.succ (h : InitsOk comps i) (hc : comps[i]? = some c) (hinit : c.initErr = none) :
    InitsOk comps (i + 1) := by
  intro j hj c' hc'
  rcases Nat.lt_succ_iff_lt_or_eq.mp hj with hlt | rfl
  · exact h j hlt c' hc'
  · rw [hc] at hc'
    exact Option.some.inj hc' ▸ hinit

/-- A round of `Start` whose `Run` succeeds, or is not called. -/
theorem RunsOk.succ (h : RunsOk comps i) (hc : comps[i]? = some c)
    (hrun : c.runnable = true → c.runErr = none) : RunsOk comps (i + 1) := by
  intro j hj c' hc' hr
  rcases Nat.lt_succ_iff_lt_or_eq.mp hj with hlt | rfl
  · exact h j hlt c' hc' hr
  · rw [hc] at hc'
    cases hc'
    exact hrun hr

/-- A loop ends after the last component. -/
theorem eq_length_of_getElem?_eq_none (hle : i ≤ comps.length) (hnone : comps[i]? = none) :
    i = comps.length :=
  le_antisymm hle (List.getElem?_eq_none_iff.mp hnone)

/-- One round of a loop that closes components. -/
theorem closes_round (h : a ≤ i) (hc : comps[i]? = some c) (log : List Event) :
    (if c.runnable then log ++ [.close i] else log) ++ closes comps a i =
      log ++ closes comps a (i + 1) := by
  rw [closes_succ h]
  simp only [isRunnable_iff hc]
  split
  · rw [append_assoc]
  · rw [nil_append]

section Go

variable {s : State} (h : s.Inv comps)
variable {res : Return} {i k : ℕ}

/-- `Start` returns: what it has called is the whole log, as there is no `Close` yet. -/
theorem State.inv_of_started {o : Outcome} (hdone : o.Done comps s) (hclosed : s.closed = false)
    (hlog : s.log = o.startLog comps) : (s.ret res).Inv comps := by
  refine .inr ⟨o, hdone, ?_⟩
  show s.log = if s.closed = true then _ else _
  rw [hclosed]
  exact hlog

include h

/-- A round of the first loop of `Start`, or its end. -/
theorem State.Inv.go_init (hpc : s.holder = some (.init i)) : (s.go comps (.init i)).Inv comps := by
  rw [State.Inv, hpc] at h
  obtain ⟨hstarted, hclosed, hok, hle, hinit, hup, hlog⟩ := h
  rw [State.go]
  split
  · next hnone =>
    obtain rfl := eq_length_of_getElem?_eq_none hle hnone
    exact ⟨hstarted, hclosed, hok, nofun, Nat.zero_le _, hinit, hup, by
      simp [hlog, runs, runnables]⟩
  · next c hc =>
    have hlog' : s.log ++ [Event.init i] = inits (i + 1) := by rw [hlog, inits_succ]
    dsimp only
    split
    · next err herr =>
      refine ⟨hstarted, hclosed, .initFails i, ⟨hok, c, hc, by simp [herr]⟩, rfl, rfl, ?_⟩
      rw [hlog']
      rfl
    · next herr =>
      have hlt := (List.getElem?_eq_some_iff.mp hc).1
      exact ⟨hstarted, hclosed, hok.succ hc herr, hlt, rfl, hup, hlog'⟩

/-- A round of the second loop of `Start`, or its end. -/
theorem State.Inv.go_run (hpc : s.holder = some (.run i)) : (s.go comps (.run i)).Inv comps := by
  rw [State.Inv, hpc] at h
  obtain ⟨hstarted, hclosed, hok, hruns, hle, hinit, hup, hlog⟩ := h
  rw [State.go]
  split
  · next hnone =>
    obtain rfl := eq_length_of_getElem?_eq_none hle hnone
    exact State.inv_of_started (o := .ok) ⟨⟨hok, hruns⟩, hstarted, hinit, hup⟩ hclosed hlog
  · next c hc =>
    have hlt := (List.getElem?_eq_some_iff.mp hc).1
    have hlog' : s.log ++ (if c.runnable = true then [.run i] else []) =
        inits comps.length ++ runs comps (i + 1) := by
      rw [hlog, runs_succ, append_assoc]
      simp only [isRunnable_iff hc]
    split
    · next hr =>
      rw [if_pos hr] at hlog'
      dsimp only
      split
      · next err herr =>
        refine ⟨hstarted, hclosed, .runFails i, ?_, rfl, hinit, ?_⟩
        · exact ⟨hok, hruns, c, hc, hr, by simp [herr]⟩
        · rw [hlog']
          rfl
      · next herr =>
        exact ⟨hstarted, hclosed, hok, hruns.succ hc fun _ => herr, hlt, hinit, hup, hlog'⟩
    · next hr =>
      rw [if_neg hr, append_nil] at hlog'
      exact ⟨hstarted, hclosed, hok, hruns.succ hc fun hr' => (hr hr').elim, hlt, hinit, hup, hlog'⟩

/-- A round of `closeServices`, which `Start` calls when a component fails. -/
theorem State.Inv.go_closeServices {idx : ℕ} (hpc : s.holder = some (.closeServices idx k res)) :
    (s.go comps (.closeServices idx k res)).Inv comps := by
  have hinv := h
  rw [State.Inv, hpc] at hinv
  obtain ⟨hstarted, hclosed, o, hof, hup, hinit, hlog⟩ := hinv
  cases k with
  | zero =>
    rw [closes_self, append_nil] at hlog
    exact State.inv_of_started (s := { s with closedUpTo := idx + 1 })
      ⟨hof, hstarted, hinit, hup.symm⟩ hclosed hlog
  | succ i =>
    rw [State.go]
    split
    · exact h
    · next c hc =>
      refine ⟨hstarted, hclosed, o, hof, hup, hinit, ?_⟩
      rw [← hlog]
      exact closes_round (Nat.zero_le i) hc s.log

/-- A round of the loop of `Close`, or its end. -/
theorem State.Inv.go_close {errs : List (ℕ × ℕ)} (hpc : s.holder = some (.close k errs)) :
    (s.go comps (.close k errs)).Inv comps := by
  have hinv := h
  rw [State.Inv, hpc] at hinv
  obtain ⟨hclosed, hcases⟩ := hinv
  rw [State.go]
  split
  · next hle =>
    rcases hcases with ⟨hfresh, -⟩ | ⟨o, hdone, hlog⟩
    · exact .inl hfresh
    · refine .inr ⟨o, hdone, ?_⟩
      have hnil : closes comps s.closedUpTo k = [] := by
        simp [closes, runnables, Nat.sub_eq_zero_of_le hle]
      rw [hnil, append_nil] at hlog
      show s.log = if s.closed = true then _ else _
      rw [hclosed]
      exact hlog
  · next hlt =>
    rcases hcases with ⟨hfresh, rfl⟩ | ⟨o, hdone, hlog⟩
    · exact (hlt (Nat.zero_le _)).elim
    · obtain ⟨i, rfl⟩ : ∃ i, k = i + 1 := ⟨k - 1, by omega⟩
      rw [Nat.add_sub_cancel]
      split
      · exact h
      · next c hc =>
        rw [← closes_round (by omega) hc] at hlog
        split
        · next hr =>
          rw [if_pos hr] at hlog
          exact ⟨hclosed, .inr ⟨o, hdone, hlog⟩⟩
        · next hr =>
          rw [if_neg hr] at hlog
          exact ⟨hclosed, .inr ⟨o, hdone, hlog⟩⟩

/-- Every step of the call that holds `lifecycleMu` keeps the invariant. -/
theorem State.Inv.go {pc : Pc} (hpc : s.holder = some pc) : (s.go comps pc).Inv comps := by
  cases pc with
  | init i => exact h.go_init hpc
  | run i => exact h.go_run hpc
  | closeServices idx k res => exact h.go_closeServices hpc
  | close k errs => exact h.go_close hpc

end Go

variable {s : State} {i a b : ℕ} {o : Outcome}

/-- Every step keeps the invariant. -/
theorem State.Inv.next {s' : State} (h : s.Inv comps) {act : Act}
    (hstep : s.next comps act = some s') : s'.Inv comps := by
  unfold State.next at hstep
  split at hstep
  · next hholder =>
    -- `Start` takes the lock
    have hnone := h
    rw [State.Inv, hholder] at hnone
    split at hstep
    · cases hstep
      exact hnone
    · next hstarted =>
      split at hstep
      · cases hstep
        exact hnone
      · next hclosed =>
        cases hstep
        rcases hnone with ⟨-, hinit, hup, hlog⟩ | ⟨o, ⟨-, hs, -⟩, -⟩
        · exact ⟨rfl, by simpa using hclosed, nofun, Nat.zero_le _, hinit, hup, hlog⟩
        · exact (hstarted hs).elim
  · next hholder =>
    -- `Close` takes the lock
    have hnone := h
    rw [State.Inv, hholder] at hnone
    split at hstep
    · cases hstep
      exact hnone
    · next hclosed =>
      cases hstep
      refine ⟨rfl, ?_⟩
      rcases hnone with hfresh | ⟨o, hdone, hlog⟩
      · exact .inl ⟨hfresh, hfresh.2.1⟩
      · refine .inr ⟨o, hdone, ?_⟩
        rw [if_neg hclosed] at hlog
        show s.log ++ closes comps s.closedUpTo s.initialized = o.finalLog comps
        rw [hlog, hdone.2.2.1, hdone.2.2.2]
        rfl
  · next pc hholder =>
    -- whoever has the lock goes on
    cases hstep
    exact h.go hholder
  · cases hstep

/-- The invariant holds after every run. -/
theorem State.inv_of_run {acts : List Act} (hrun : State.run comps acts = some s) :
    s.Inv comps := by
  have hinit : State.init.Inv comps := Or.inl ⟨rfl, rfl, rfl, rfl⟩
  exact foldlM_some_invariant (State.Inv comps) (fun _ _ _ _ hs hnext => hs.next hnext) hinit hrun

/-! ## The order -/

/-- Every list of components has an outcome of `Start`. -/
theorem exists_outcome (comps : List Component) : ∃ o : Outcome, o.Of comps := by
  classical
  by_cases hinits : InitsOk comps comps.length
  · by_cases hruns : RunsOk comps comps.length
    · exact ⟨.ok, hinits, hruns⟩
    · have hex : ∃ i : ℕ, ∃ c : Component,
          comps[i]? = some c ∧ c.runnable = true ∧ c.runErr ≠ none := by
        simp only [RunsOk, not_forall] at hruns
        obtain ⟨i, -, c, hc, hr, herr⟩ := hruns
        exact ⟨i, c, hc, hr, herr⟩
      refine ⟨.runFails (Nat.find hex), hinits, ?_, Nat.find_spec hex⟩
      intro j hj c hc hr
      by_contra herr
      exact Nat.find_min hex hj ⟨c, hc, hr, herr⟩
  · have hex : ∃ i : ℕ, ∃ c : Component, comps[i]? = some c ∧ c.initErr ≠ none := by
      simp only [InitsOk, not_forall] at hinits
      obtain ⟨i, -, c, hc, herr⟩ := hinits
      exact ⟨i, c, hc, herr⟩
    refine ⟨.initFails (Nat.find hex), ?_, Nat.find_spec hex⟩
    intro j hj c hc
    by_contra herr
    exact Nat.find_min hex hj ⟨c, hc, herr⟩

/-- `Start` fails at one `Run` only. -/
theorem Outcome.Of.unique (hi : (runFails i).Of comps) (hof : o.Of comps) : o = .runFails i := by
  obtain ⟨hinits, hruns, c, hc, hr, herr⟩ := hi
  cases o with
  | ok => exact (herr (hof.2 i (List.getElem?_eq_some_iff.mp hc).1 c hc hr)).elim
  | initFails j =>
    obtain ⟨-, c', hc', herr'⟩ := hof
    exact (herr' (hinits j (List.getElem?_eq_some_iff.mp hc').1 c' hc')).elim
  | runFails j =>
    obtain ⟨-, hruns', c', hc', hr', herr'⟩ := hof
    rcases Nat.lt_trichotomy i j with hlt | rfl | hlt
    · exact (herr (hruns' i hlt c hc hr)).elim
    · rfl
    · exact (herr' (hruns j hlt c' hc' hr')).elim

theorem inits_mono (h : a ≤ b) : inits a <+: inits b := by
  induction b, h using Nat.le_induction with
  | base => exact List.prefix_rfl
  | succ k _ ih =>
    rw [inits_succ]
    exact ih.trans (List.prefix_append _ _)

theorem runs_mono (h : a ≤ b) : runs comps a <+: runs comps b := by
  induction b, h using Nat.le_induction with
  | base => exact List.prefix_rfl
  | succ k _ ih =>
    rw [runs_succ]
    exact ih.trans (List.prefix_append _ _)

/-- As long as the `Init`s succeed, the log begins with them. -/
theorem Outcome.inits_isPrefix (hof : o.Of comps) (hok : InitsOk comps i) (hle : i ≤ comps.length) :
    inits i <+: o.finalLog comps := by
  rw [finalLog]
  refine List.IsPrefix.trans ?_ (List.prefix_append _ _)
  cases o with
  | ok => exact (inits_mono hle).trans (List.prefix_append _ _)
  | runFails j =>
    exact (inits_mono hle).trans ((List.prefix_append _ _).trans (List.prefix_append _ _))
  | initFails j =>
    obtain ⟨-, c, hc, herr⟩ := hof
    have hij : i ≤ j := by
      by_contra hlt
      exact herr (hok j (by omega) c hc)
    exact (inits_mono (by omega)).trans (List.prefix_append _ _)

/-- Once all `Init`s have succeeded, the log goes on with the `Run`s. -/
theorem Outcome.runs_isPrefix (hof : o.Of comps) (hinits : InitsOk comps comps.length)
    (hok : RunsOk comps i) (hle : i ≤ comps.length) :
    inits comps.length ++ runs comps i <+: o.finalLog comps := by
  rw [finalLog]
  refine List.IsPrefix.trans ?_ (List.prefix_append _ _)
  cases o with
  | ok => exact List.prefix_append_right_inj _ |>.mpr (runs_mono hle)
  | runFails j =>
    obtain ⟨-, -, c, hc, hr, herr⟩ := hof
    have hij : i ≤ j := by
      by_contra hlt
      exact herr (hok j (by omega) c hc hr)
    refine List.IsPrefix.trans ?_ (List.prefix_append _ _)
    exact List.prefix_append_right_inj _ |>.mpr (runs_mono (by omega))
  | initFails j =>
    obtain ⟨-, c, hc, herr⟩ := hof
    exact (herr (hinits j (List.getElem?_eq_some_iff.mp hc).1 c hc)).elim

/-- The calls so far are the first ones of those that `Start` and `Close` make together. -/
theorem State.Inv.exists_isPrefix (h : s.Inv comps) :
    ∃ o : Outcome, o.Of comps ∧ s.log <+: o.finalLog comps := by
  obtain ⟨o, hof⟩ := exists_outcome comps
  rw [State.Inv] at h
  split at h
  · rcases h with ⟨-, -, -, hlog⟩ | ⟨o, hdone, hlog⟩
    · exact ⟨o, hof, hlog ▸ List.nil_prefix⟩
    · refine ⟨o, hdone.1, ?_⟩
      rw [hlog]
      split
      · exact List.prefix_rfl
      · exact List.prefix_append _ _
  · obtain ⟨-, -, hok, hle, -, -, hlog⟩ := h
    exact ⟨o, hof, hlog ▸ inits_isPrefix hof hok hle⟩
  · obtain ⟨-, -, hinits, hok, hle, -, -, hlog⟩ := h
    exact ⟨o, hof, hlog ▸ runs_isPrefix hof hinits hok hle⟩
  · obtain ⟨-, -, o, hof, -, -, hlog⟩ := h
    have hstart : s.log <+: o.startLog comps := hlog ▸ List.prefix_append _ _
    exact ⟨o, hof, hstart.trans (List.prefix_append _ _)⟩
  · rcases h.2 with ⟨⟨-, -, -, hlog⟩, -⟩ | ⟨o, hdone, hlog⟩
    · exact ⟨o, hof, hlog ▸ List.nil_prefix⟩
    · exact ⟨o, hdone.1, hlog ▸ List.prefix_append _ _⟩

theorem mem_closes :
    .close i ∈ closes comps a b ↔ a ≤ i ∧ i < b ∧ IsRunnable comps i := by
  simp [closes, mem_runnables]

/-- A loop of closes calls `Close` once for each runnable component between its ends. -/
theorem count_closes (a b i : ℕ) :
    (closes comps a b).count (.close i) = if a ≤ i ∧ i < b ∧ IsRunnable comps i then 1 else 0 := by
  have hinj : Function.Injective Event.close := fun _ _ h => Event.close.inj h
  have hnodup : (runnables comps a b).Nodup := (runnables_sorted a b).imp Nat.ne_of_lt
  have hcloses : (closes comps a b).Nodup := (List.nodup_reverse.mpr hnodup).map hinj
  simp only [hcloses.count, mem_closes]

/-- The component that a call closes. -/
def Event.closed? : Event → Option ℕ
  | .close i => some i
  | _ => none

/-- The closes of a run are in reverse order of registration. -/
def Reverse (log : List Event) : Prop := (log.filterMap Event.closed?).Pairwise (· > ·)

/-- A loop of closes is in reverse order. -/
theorem filterMap_closes (a b : ℕ) :
    (closes comps a b).filterMap Event.closed? = (runnables comps a b).reverse := by
  simp [closes, List.filterMap_map, Function.comp_def, Event.closed?]

theorem filterMap_inits (k : ℕ) : (inits k).filterMap Event.closed? = [] := by
  simp [inits, Event.closed?]

theorem filterMap_runs (k : ℕ) : (runs comps k).filterMap Event.closed? = [] := by
  simp [runs, Event.closed?]

variable (comps) in
/-- If a `Run` fails, no later component is runnable. -/
def RunFailsLast : Prop :=
  ∀ i, (runFails i).Of comps → ∀ j, i < j → ¬ IsRunnable comps j

/-- The closes of both calls are in reverse order unless a `Run` fails before another runnable
component. -/
theorem Outcome.reverse_iff (hof : o.Of comps) :
    Reverse (o.finalLog comps) ↔ ∀ i, o = .runFails i → ∀ j, i < j → ¬ IsRunnable comps j := by
  simp only [Reverse, finalLog, startLog, filterMap_append, filterMap_closes]
  cases o with
  | ok =>
    refine iff_of_true ?_ nofun
    simp only [filterMap_append, filterMap_inits, filterMap_runs, nil_append]
    exact List.pairwise_reverse.mpr (runnables_sorted _ _)
  | initFails i =>
    refine iff_of_true ?_ nofun
    simp only [filterMap_append, filterMap_inits, filterMap_closes, nil_append,
      closedUpTo, initialized]
    rw [← filterMap_closes (i + 1), closes_self, List.filterMap_nil, append_nil]
    exact List.pairwise_reverse.mpr (runnables_sorted _ _)
  -- `Start` closes up to `i`, and `Close` the components after it
  | runFails i =>
    obtain ⟨-, -, c, hc, hr, -⟩ := hof
    simp only [filterMap_append, filterMap_inits, filterMap_runs, filterMap_closes,
      nil_append, closedUpTo, initialized, runFails.injEq]
    rw [List.pairwise_append]
    have hfirst : i ∈ runnables comps 0 (i + 1) := mem_runnables.mpr ⟨by omega, by omega, c, hc, hr⟩
    constructor
    · rintro ⟨-, -, hcross⟩ _ rfl j hj hrun
      have hlen : j < comps.length := by
        obtain ⟨c, hc, -⟩ := hrun
        exact (List.getElem?_eq_some_iff.mp hc).1
      have hsecond : j ∈ runnables comps (i + 1) comps.length := mem_runnables.mpr ⟨hj, hlen, hrun⟩
      have := hcross i (List.mem_reverse.mpr hfirst) j (List.mem_reverse.mpr hsecond)
      omega
    · intro hlast
      have hnil : ∀ j, j ∉ runnables comps (i + 1) comps.length := by
        intro j hj
        obtain ⟨hle, -, hrun⟩ := mem_runnables.mp hj
        exact hlast i rfl j hle hrun
      rw [List.eq_nil_iff_forall_not_mem.mpr hnil]
      refine ⟨List.pairwise_reverse.mpr (runnables_sorted _ _), by simp, by simp⟩

/-! ## The promises -/

variable (comps) in
/-- What `Start` and `Close` promise, apart from the order. -/
structure State.Promises (s : State) : Prop where
  /-- `Run` comes after all `Init`s, which have succeeded. -/
  runs : ∀ i before after, s.log = before ++ .run i :: after →
    InitsOk comps comps.length ∧ ∀ j < comps.length, .init j ∈ before
  /-- No component past a failed `Init` is touched. -/
  untouched : ∀ i c, comps[i]? = some c → c.initErr ≠ none → .init i ∈ s.log →
    ∀ ev ∈ s.log, ev.index ≤ i
  /-- When the calls have returned, the runnable components whose `Init` was reached were closed
  once, and no other ones. -/
  once : s.closed = true → s.holder = none → ∀ i,
    s.log.count (.close i) = if IsRunnable comps i ∧ .init i ∈ s.log then 1 else 0

/-- `Init` is called on the components that `initialized` counts. -/
theorem Outcome.init_mem_finalLog :
    .init i ∈ o.finalLog comps ↔ i < o.initialized comps := by
  cases o <;> simp [finalLog, startLog, initialized, inits, runs, closes]

/-- Together the two calls close each runnable component whose `Init` was reached once. -/
theorem Outcome.count_finalLog (hof : o.Of comps) (i : ℕ) :
    (o.finalLog comps).count (.close i) =
      if IsRunnable comps i ∧ i < o.initialized comps then 1 else 0 := by
  have hinits : ∀ k, (inits k).count (.close i) = 0 := by
    intro k
    exact List.count_eq_zero_of_not_mem (by simp [inits])
  have hruns : ∀ k, (runs comps k).count (.close i) = 0 := by
    intro k
    exact List.count_eq_zero_of_not_mem (by simp [runs])
  cases o with
  | ok =>
    simp only [finalLog, startLog, closedUpTo, initialized,
      count_append, hinits, hruns, count_closes]
    grind
  | initFails j =>
    simp only [finalLog, startLog, closedUpTo, initialized, count_append, hinits, count_closes]
    grind
  | runFails j =>
    obtain ⟨-, -, c, hc, -⟩ := hof
    have hj := (List.getElem?_eq_some_iff.mp hc).1
    simp only [finalLog, startLog, closedUpTo, initialized,
      count_append, hinits, hruns, count_closes]
    grind

/-- What the invariant says of the log at any time. -/
theorem State.Inv.promises (h : s.Inv comps) : s.Promises comps := by
  obtain ⟨o, hof, hlog⟩ := h.exists_isPrefix
  refine ⟨?_, ?_, ?_⟩
  · intro i before after heq
    obtain ⟨rest, hrest⟩ := hlog
    rw [heq, append_assoc, List.cons_append] at hrest
    -- a `Run` comes after all `Init`s in a log that begins with these
    have hsplit : ∀ tail, before ++ .run i :: (after ++ rest) = inits comps.length ++ tail →
        ∀ j < comps.length, .init j ∈ before := by
      intro tail htail j hj
      rcases List.append_eq_append_iff.mp htail with ⟨l, hinits, hl⟩ | ⟨l, hbefore, -⟩
      · cases l with
        | nil =>
          rw [append_nil] at hinits
          rw [← hinits]
          exact mem_inits.mpr hj
        | cons ev l =>
          have hmem : ev ∈ inits comps.length := by simp [hinits]
          rw [List.cons_append, List.cons.injEq] at hl
          rw [← hl.1] at hmem
          simp [inits] at hmem
      · rw [hbefore]
        exact List.mem_append_left _ (mem_inits.mpr hj)
    cases o with
    | ok =>
      rw [finalLog, startLog, append_assoc] at hrest
      exact ⟨hof.1, hsplit _ hrest⟩
    | runFails j =>
      rw [finalLog, startLog, append_assoc, append_assoc] at hrest
      exact ⟨hof.1, hsplit _ hrest⟩
    | initFails j =>
      have hmem : .run i ∈ (initFails j).finalLog comps := by simp [← hrest]
      simp [finalLog, startLog, inits, closes] at hmem
  · intro i c hc herr hinit ev hev
    have hi := init_mem_finalLog.mp (hlog.subset hinit)
    cases o with
    | ok => exact (herr (hof.1 i (List.getElem?_eq_some_iff.mp hc).1 c hc)).elim
    | runFails j => exact (herr (hof.1 i (List.getElem?_eq_some_iff.mp hc).1 c hc)).elim
    | initFails j =>
      -- `Start` has stopped at the failed `Init`
      have hij : ¬ i < j := fun hlt => herr (hof.1 i hlt c hc)
      have hmem := hlog.subset hev
      simp only [finalLog, startLog, Outcome.initialized, List.mem_append, inits, closes,
        List.mem_map, List.mem_reverse, mem_runnables, List.mem_range] at hmem hi
      rcases hmem with (⟨k, hk, rfl⟩ | ⟨k, ⟨-, hk, -⟩, rfl⟩) | ⟨k, ⟨-, hk, -⟩, rfl⟩
      all_goals
        simp only [Event.index]
        omega
  · intro hclosed hholder i
    rw [State.Inv, hholder] at h
    rcases h with ⟨-, -, -, hnil⟩ | ⟨o, hdone, hfinal⟩
    · simp [hnil]
    · rw [if_pos hclosed] at hfinal
      rw [hfinal, count_finalLog hdone.1]
      simp only [init_mem_finalLog]

/-- In every run of `Start` and `Close` calls, each component is closed as it should be, and the
closes are in reverse order if no runnable component comes after one whose `Run` fails. The order is
wrong otherwise, once both have returned. -/
theorem State.closes_in_order {acts : List Act} {s : State} (hrun : State.run comps acts = some s) :
    s.Promises comps ∧ (RunFailsLast comps → Reverse s.log) ∧
      (s.started = true → s.closed = true → s.holder = none → Reverse s.log →
        RunFailsLast comps) := by
  have hinv := State.inv_of_run hrun
  refine ⟨hinv.promises, ?_, ?_⟩
  · intro hlast
    obtain ⟨o, hof, hlog⟩ := hinv.exists_isPrefix
    have hreverse : Reverse (o.finalLog comps) := by
      refine (reverse_iff hof).mpr ?_
      rintro i rfl
      exact hlast i hof
    exact hreverse.sublist (hlog.sublist.filterMap _)
  · intro hstarted hclosed hholder hreverse i hi
    rw [State.Inv, hholder] at hinv
    rcases hinv with ⟨hfresh, -⟩ | ⟨o, hdone, hlog⟩
    · rw [hstarted] at hfresh
      cases hfresh
    · rw [if_pos hclosed] at hlog
      rw [hlog] at hreverse
      exact (reverse_iff hdone.1).mp hreverse i (hi.unique hdone.1)

/-- A component that is not runnable, and two that are. -/
def sampleComps : List Component :=
  [⟨true, none, none, none⟩, ⟨false, none, none, none⟩, ⟨true, none, none, some 4⟩]

/-- A `Start`, and a `Close` that comes while it runs. -/
def sampleActs : List Act :=
  .start :: replicate 8 .go ++ .close :: replicate 4 .go

theorem State.closes_in_order_sample :
    RunFailsLast sampleComps ∧ ∃ s, State.run sampleComps sampleActs = some s ∧
      s.closed = true ∧ s.holder = none ∧ Reverse s.log := by
  have hlast : RunFailsLast sampleComps := by
    rintro i ⟨-, -, c, hc, -, herr⟩
    have hmem := List.mem_of_getElem? hc
    simp [sampleComps] at hmem
    rcases hmem with rfl | rfl | rfl <;> simp at herr
  have hrun : State.run sampleComps sampleActs = some _ := rfl
  exact ⟨hlast, _, hrun, rfl, rfl, (State.closes_in_order hrun).2.1 hlast⟩

/-- Three components, of which the first fails to run. -/
def failingComps : List Component :=
  [⟨true, none, some 1, none⟩, ⟨true, none, none, none⟩, ⟨true, none, none, none⟩]

/-- The first `Run` of three fails: `Start` closes the first component, and `Close` closes the last
two of them, which is not the reverse order. -/
theorem State.closed_first_of_three :
    ∃ s, State.run failingComps (.start :: replicate 7 .go ++ .close :: replicate 3 .go)
        = some s ∧ s.returned = [.errRun 0 1, .ok] ∧
      s.log.filterMap Event.closed? = [0, 2, 1] ∧ ¬ Reverse s.log := by
  refine ⟨_, rfl, rfl, rfl, fun hreverse => ?_⟩
  have hlt : (0 : ℕ) > 2 := List.rel_of_pairwise_cons hreverse List.mem_cons_self
  cases hlt

end App
