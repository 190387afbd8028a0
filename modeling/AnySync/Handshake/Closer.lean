import AnySync.Go.Basic

/-!
# The outgoing protocol handshake and its connection

`OutgoingProtoHandshake` and `OutgoingProtoHandshakeWithCloser` of
`net/secureservice/handshake/proto.go`. A goroutine does the handshake while the caller waits for it
or for its context. Both can close the connection, which two atomic flags decide.
-/

namespace Handshake

/-- `handshakeproto.Proto`. -/
structure Proto where
  proto : UInt32
  encodings : List UInt32
deriving DecidableEq, Repr

/-- What a `HandshakeError` wraps. -/
inductive Wrapped
  | declinedProto
  | other (code : ℕ)
deriving DecidableEq, Repr

/-- The errors of a handshake. -/
inductive HsError
  /-- `HandshakeError{Err: err, e: e}`. -/
  | handshake (err : Option Wrapped) (e : UInt32)
  /-- An error of the connection, of the decoder, of the context or of a checker. -/
  | other (code : ℕ)
deriving DecidableEq, Repr

/-- `Error_Null`. -/
def errorNull : UInt32 := 0

/-- `Error_IncompatibleProto`. -/
def errorIncompatibleProto : UInt32 := 7

/-- `ErrUnexpectedPayload`. -/
def errUnexpectedPayload : HsError := .handshake none 3

/-- `ErrRemoteIncompatibleProto`. -/
def errRemoteIncompatibleProto : HsError := .handshake (some .declinedProto) 0

/-- The messages that `readMsg(msgTypeAck, msgTypeProto)` sets. -/
structure ProtoMessage where
  ack : Option UInt32
  proto : Option Proto
deriving DecidableEq, Repr

/-- `noEncodings`. -/
def noEncodings : List UInt32 := [0]

/-- What `outgoingProtoHandshake` makes of the message it reads. -/
def outgoingResult (proto : Proto) (msg : ProtoMessage) : Except HsError Proto :=
  match msg.ack, msg.proto with
  | some e, _ =>
    if e = errorIncompatibleProto then .error errRemoteIncompatibleProto
    -- old clients answer with an ack
    else if e = errorNull then .ok { proto := proto.proto, encodings := noEncodings }
    else .error (.handshake none e)
  | none, some p => .ok p
  | none, none => .error errUnexpectedPayload

/-! ## The two threads -/

/-- Where the goroutine is. -/
inductive Worker
  /-- At `h.writeProto`. -/
  | writing
  /-- At `h.readMsg`. -/
  | reading
  /-- In `tryWriteErrAndClose`, at the load of `abandoned`. -/
  | failed (err : HsError)
  /-- At `h.writeAck`. -/
  | acking (err : HsError)
  /-- In `h.close`, at the swap of `handedOff`. -/
  | closing (err : HsError)
  /-- In `h.close`, at the call of the hook. -/
  | hook (err : HsError)
  /-- After `outgoingProtoHandshake`. -/
  | finished (res : Except HsError Proto)
  /-- After `outgoingProtoHandshake`, at the call of the hook. -/
  | lateHook (err : HsError)
  /-- At the swap of `claimed`. -/
  | claiming (res : Except HsError Proto)
  /-- At `close(done)`. -/
  | ending (res : Except HsError Proto)
  | ended (res : Except HsError Proto)
deriving DecidableEq

/-- Where the caller is. -/
inductive Caller
  /-- At the `select`. -/
  | selecting
  /-- `ctx.Done()` was selected: at the swap of `claimed`. -/
  | claiming
  /-- At `<-done`. -/
  | waiting
  /-- At the swap of `handedOff`. -/
  | closing
  /-- At the call of the hook. -/
  | hook
  /-- After `return nil, ctx.Err()`. -/
  | cancelled
  /-- After `return remoteProto, err`. -/
  | returned (res : Except HsError Proto)
deriving DecidableEq

/-- The variables that the threads share, the threads, and the calls of the hook so far. -/
structure State where
  handedOff : Bool
  claimed : Bool
  cancelled : Bool
  worker : Worker
  caller : Caller
  closed : ℕ
deriving DecidableEq

/-- The state after `go func()`. -/
def State.init : State where
  handedOff := false
  claimed := false
  cancelled := false
  worker := .writing
  caller := .selecting
  closed := 0

/-- A step. -/
inductive Act
  /-- The goroutine writes the message, with this error. -/
  | wrote (err : Option HsError)
  /-- The goroutine reads a message. -/
  | read (msg : Except HsError ProtoMessage)
  /-- Any other step of the goroutine. -/
  | worker
  /-- A step of the caller; in the `select` it takes `ctx.Done()`. -/
  | caller
  /-- The caller takes `<-done`. -/
  | done
  /-- The context is cancelled. -/
  | cancel

namespace State

/-- A step of the goroutine. `anyErr` is `closeOnAnyErr`. -/
def workerNext (anyErr : Bool) (s : State) : Option State :=
  match s.worker with
  | .writing | .reading => none
  | .failed err =>
    if s.claimed then some { s with worker := .finished (.error err) }
    else if err = errUnexpectedPayload then some { s with worker := .closing err }
    else some { s with worker := .acking err }
  -- the error of the write is ignored
  | .acking err => some { s with worker := .closing err }
  | .closing err =>
    if s.handedOff then some { s with worker := .finished (.error err) }
    else some { s with handedOff := true, worker := .hook err }
  | .hook err => some { s with closed := s.closed + 1, worker := .finished (.error err) }
  | .finished (.ok p) => some { s with worker := .claiming (.ok p) }
  | .finished (.error err) =>
    if anyErr then
      if s.handedOff then some { s with worker := .claiming (.error err) }
      else some { s with handedOff := true, worker := .lateHook err }
    else some { s with worker := .claiming (.error err) }
  | .lateHook err => some { s with closed := s.closed + 1, worker := .claiming (.error err) }
  | .claiming res => some { s with claimed := true, worker := .ending res }
  | .ending res => some { s with worker := .ended res }
  | .ended _ => none

/-- A step of the caller. -/
def callerNext (s : State) : Option State :=
  match s.caller with
  | .selecting => if s.cancelled then some { s with caller := .claiming } else none
  | .claiming =>
    if s.claimed then some { s with caller := .waiting }
    else some { s with claimed := true, caller := .closing }
  | .waiting => none
  | .closing =>
    if s.handedOff then some { s with caller := .cancelled }
    else some { s with handedOff := true, caller := .hook }
  | .hook => some { s with closed := s.closed + 1, caller := .cancelled }
  | .cancelled | .returned _ => none

/-- A step of `outgoingProtoHandshakeCloser`. The goroutine is stopped before each access to a flag,
each call of the hook and each read or write of the connection, whose outcome the environment
chooses. -/
def next (anyErr : Bool) (proto : Proto) (s : State) : Act → Option State
  | .wrote err =>
    if s.worker = .writing then
      some { s with worker := match err with
        | none => .reading
        | some e => .failed e }
    else none
  | .read msg =>
    if s.worker = .reading then
      some { s with worker := match msg with
        | .ok m => .finished (outgoingResult proto m)
        | .error e => .failed e }
    else none
  | .worker => s.workerNext anyErr
  | .caller => s.callerNext
  | .done =>
    match s.caller, s.worker with
    | .selecting, .ended res => some { s with caller := .returned res }
    | .waiting, .ended res => some { s with caller := .returned res }
    | _, _ => none
  | .cancel => some { s with cancelled := true }

end State

/-- The states of the interleavings of the two threads, the remote and the context. -/
inductive Reachable (anyErr : Bool) (proto : Proto) : State → Prop
  | init : Reachable anyErr proto .init
  | step {s s' : State} {a : Act} : Reachable anyErr proto s →
      s.next anyErr proto a = some s' → Reachable anyErr proto s'

/-- What the caller got. -/
def Caller.result (ctxErr : HsError) : Caller → Option (Except HsError Proto)
  | .cancelled => some (.error ctxErr)
  | .returned res => some res
  | _ => none

/-! ## The flags -/

/-- The goroutine is at a call of the hook. -/
@[grind]
def Worker.atHook : Worker → Bool
  | .hook _ | .lateHook _ => true
  | _ => false

/-- The goroutine has swapped `claimed`. -/
@[grind]
def Worker.claimed : Worker → Bool
  | .ending _ | .ended _ => true
  | _ => false

/-- The goroutine did not come to a swap of `handedOff`. -/
@[grind]
def Worker.keeps : Worker → Bool
  | .writing | .reading | .failed _ | .acking _ | .closing _ => true
  | .finished res | .claiming res | .ending res | .ended res => res.isOk
  | .hook _ | .lateHook _ => false

/-- The goroutine is past the last swap of `handedOff` of a failed handshake. -/
@[grind]
def Worker.pastClose : Worker → Bool
  | .lateHook _ => true
  | .claiming res | .ending res | .ended res => !res.isOk
  | _ => false

/-- The caller has swapped `claimed`. -/
@[grind]
def Caller.claimed : Caller → Bool
  | .closing | .hook | .cancelled => true
  | _ => false

/-- The caller is past its swap of `handedOff`. -/
@[grind]
def Caller.pastClose : Caller → Bool
  | .hook | .cancelled => true
  | _ => false

/-- What holds in every interleaving. -/
structure State.Inv (anyErr : Bool) (s : State) : Prop where
  /-- The hook was called, or is about to be, exactly if `handedOff` is set. -/
  closed : s.closed + s.worker.atHook.toNat + (decide (s.caller = .hook)).toNat = s.handedOff.toNat
  /-- `handedOff` is set by the caller that gave up or by the goroutine that failed. -/
  handedOff : s.handedOff = true → s.caller.pastClose = true ∨ s.worker.keeps = false
  caller : s.caller.pastClose = true → s.handedOff = true
  worker : anyErr = true → s.worker.pastClose = true → s.handedOff = true
  claimed : s.claimed = true → s.worker.claimed = true ∨ s.caller.claimed = true
  waiting : s.caller = .waiting → s.worker.claimed = true
  returned : ∀ res, s.caller = .returned res → s.worker = .ended res

namespace State

variable {anyErr : Bool} {proto : Proto} {s s' : State}

theorem inv_init : Inv anyErr .init := by
  constructor <;> simp [init, Worker.atHook, Worker.claimed, Worker.pastClose, Caller.pastClose]

theorem Inv.workerNext (h : s.Inv anyErr) (hs : s.workerNext anyErr = some s') : s'.Inv anyErr := by
  obtain ⟨hclosed, hhanded, hcaller, hworker, hclaimed, hwaiting, hreturned⟩ := h
  rw [State.workerNext] at hs
  -- one case for each place, then the flag that is read there
  split at hs
  all_goals
    rename_i hplace
    rw [hplace] at hclosed hhanded hworker hclaimed hwaiting hreturned
    (repeat' split at hs)
    all_goals
      cases hs
      all_goals
        constructor <;> simp_all [Worker.atHook, Worker.claimed, Worker.keeps, Worker.pastClose,
          Except.isOk, Except.toBool]

theorem Inv.callerNext (h : s.Inv anyErr) (hs : s.callerNext = some s') : s'.Inv anyErr := by
  obtain ⟨hclosed, hhanded, hcaller, hworker, hclaimed, hwaiting, hreturned⟩ := h
  rw [State.callerNext] at hs
  split at hs
  all_goals
    rename_i hplace
    rw [hplace] at hclosed hhanded hcaller hclaimed hwaiting hreturned
    (repeat' split at hs)
    all_goals
      cases hs
      all_goals constructor <;> simp_all [Caller.pastClose, Caller.claimed]

/-- The goroutine reads or writes a message, with any outcome. -/
theorem Inv.transfer (h : s.Inv anyErr) (hold : s.worker = .writing ∨ s.worker = .reading)
    {w : Worker} (hnew : w = .reading ∨ (∃ e, w = .failed e) ∨ ∃ res, w = .finished res) :
    { s with worker := w }.Inv anyErr := by
  obtain ⟨hclosed, hhanded, hcaller, hworker, hclaimed, hwaiting, hreturned⟩ := h
  constructor <;> grind

/-- Every step keeps the invariant. -/
theorem Inv.next (h : s.Inv anyErr) {a : Act} (hs : s.next anyErr proto a = some s') :
    s'.Inv anyErr := by
  cases a with
  | wrote err =>
    simp only [State.next, Option.ite_none_right_eq_some] at hs
    obtain ⟨hold, hs⟩ := hs
    cases hs
    apply h.transfer (.inl hold)
    cases err <;> simp
  | read msg =>
    simp only [State.next, Option.ite_none_right_eq_some] at hs
    obtain ⟨hold, hs⟩ := hs
    cases hs
    apply h.transfer (.inr hold)
    cases msg <;> simp
  | worker => exact h.workerNext hs
  | caller => exact h.callerNext hs
  | done =>
    obtain ⟨hclosed, hhanded, hcaller, hworker, hclaimed, hwaiting, hreturned⟩ := h
    rw [State.next] at hs
    split at hs
    all_goals
      cases hs
      all_goals constructor <;> grind
  | cancel =>
    cases hs
    exact ⟨h.closed, h.handedOff, h.caller, h.worker, h.claimed, h.waiting, h.returned⟩

end State

theorem Reachable.inv {anyErr : Bool} {proto : Proto} {s : State}
    (h : Reachable anyErr proto s) : s.Inv anyErr := by
  induction h with
  | init => exact State.inv_init
  | step _ hs ih => exact ih.next hs

/-- A goroutine that is at a call of the hook makes it in its next step. -/
theorem State.workerNext_of_atHook (anyErr : Bool) {s : State} (h : s.worker.atHook = true) :
    ∃ s', s.workerNext anyErr = some s' ∧ s'.closed = s.closed + 1 := by
  rw [State.workerNext]
  cases hw : s.worker with
  | hook err => exact ⟨_, rfl, rfl⟩
  | lateHook err => exact ⟨_, rfl, rfl⟩
  | _ => simp [hw, Worker.atHook] at h

/-- In every interleaving the hook is called at most once, and not at all if a protocol is
returned. With `closeOnAnyErr`, where an error is returned it has been called, or it is what the
goroutine, which is still running, does in its next step. -/
theorem hook_called_once {anyErr : Bool} {proto : Proto} {s : State}
    (h : Reachable anyErr proto s) (ctxErr : HsError) :
    s.closed ≤ 1 ∧
      (∀ p, s.caller.result ctxErr = some (.ok p) → s.closed = 0) ∧
      (anyErr = true → ∀ e, s.caller.result ctxErr = some (.error e) → s.closed = 1 ∨
          s.closed = 0 ∧ ∃ s', s.next anyErr proto .worker = some s' ∧ s'.closed = 1) := by
  have hinv := h.inv
  have hclosed := hinv.closed
  refine ⟨?_, ?_, ?_⟩
  · have hle := Bool.toNat_le s.handedOff
    omega
  · intro p hp
    -- the caller got the result of the goroutine, which never swapped `handedOff`
    cases hcaller : s.caller with
    | returned res =>
      have hres : res = .ok p := by simpa [hcaller, Caller.result] using hp
      have hended := hinv.returned res hcaller
      have hoff : s.handedOff = false := by
        by_contra hne
        rcases hinv.handedOff (by simpa using hne) with hpast | hkeeps
        · simp [hcaller, Caller.pastClose] at hpast
        · simp [hended, hres, Worker.keeps, Except.isOk, Except.toBool] at hkeeps
      rw [hoff] at hclosed
      simp at hclosed
      omega
    | _ => simp [hcaller, Caller.result] at hp
  · intro hany e he
    -- somebody swapped `handedOff`, and the caller is not at the hook
    have hoff : s.handedOff = true ∧ s.caller ≠ .hook := by
      cases hcaller : s.caller with
      | cancelled => exact ⟨hinv.caller (by simp [hcaller, Caller.pastClose]), by simp⟩
      | returned res =>
        have hres : res = .error e := by simpa [hcaller, Caller.result] using he
        have hended := hinv.returned res hcaller
        refine ⟨hinv.worker hany ?_, by simp⟩
        simp [hended, hres, Worker.pastClose, Except.isOk, Except.toBool]
      | _ => simp [hcaller, Caller.result] at he
    rw [hoff.1, decide_eq_false hoff.2] at hclosed
    cases hhook : s.worker.atHook with
    | false =>
      rw [hhook] at hclosed
      exact .inl (by simpa using hclosed)
    | true =>
      rw [hhook] at hclosed
      have hzero : s.closed = 0 := by simpa using hclosed
      obtain ⟨s', hs', hone⟩ := State.workerNext_of_atHook anyErr hhook
      exact .inr ⟨hzero, s', hs', by omega⟩

/-- The goroutine fails to read and swaps `handedOff`; then the context is cancelled, and the
caller returns before the goroutine has called the hook. -/
theorem hook_called_once_cancelled :
    ∃ s : State, Reachable true { proto := 0, encodings := [1] } s ∧
      s.caller.result (.other 0) = some (.error (.other 0)) ∧ s.closed = 0 ∧
      ∃ s', s.next true { proto := 0, encodings := [1] } .worker = some s' ∧ s'.closed = 1 := by
  let s : State :=
    { handedOff := true, claimed := true, cancelled := true, worker := .hook errUnexpectedPayload
      caller := .cancelled, closed := 0 }
  have hfailed : Reachable true { proto := 0, encodings := [1] } _ :=
    .step (a := .read (.error errUnexpectedPayload)) (.step (a := .wrote none) .init rfl) rfl
  have hhook : Reachable true { proto := 0, encodings := [1] } _ :=
    .step (a := .worker) (.step (a := .worker) hfailed rfl) rfl
  have hclaimed : Reachable true { proto := 0, encodings := [1] } _ :=
    .step (a := .caller) (.step (a := .caller) (.step (a := .cancel) hhook rfl) rfl) rfl
  have hs : Reachable true { proto := 0, encodings := [1] } s := .step (a := .caller) hclaimed rfl
  have hresult : s.caller.result (.other 0) = some (.error (.other 0)) := rfl
  have hcalled := (hook_called_once hs (.other 0)).2.2 rfl _ hresult
  exact ⟨s, hs, hresult, rfl, (hcalled.resolve_left (by decide)).2⟩

end Handshake
