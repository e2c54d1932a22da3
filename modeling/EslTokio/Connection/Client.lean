import Mathlib.Logic.Function.Basic
import EslTokio.Library.Runs
import EslTokio.Connection.Shared

/-!
# Commands, the reader and the re-exec teardown of one connection

The parties that touch the reply slot and the status watch, as one system: any number of
`send_command` calls (`src/connection/client.rs`), the reader task with its exit sequence
(`src/connection/reader.rs`), one `teardown_for_reexec` at a time (`src/connection/reexec.rs`),
`disconnect`, and a server that answers every written command with one reply, in order.

Every await point is a place where another party may move, so each call is a phase machine whose
steps are the pieces between two awaits.  Only command replies travel here: what the reader does
with bytes and events is in `Reader` and `EventQueue`.

* `Client.callStep` — one piece of `send_command`, or its future being dropped.
* `Client.readerStep` — one routed reply, the stop signal, and the exit of `reader_loop`.
* `Client.teardownStep` — one piece of `teardown_for_reexec`.
* `Client.step` — the whole system; `Client.adopt` — the process that takes the socket over.
-/

namespace EslTokio

open Library

/-- A command reply on its way; `command` says which command the server answered with it. -/
structure Reply (μ : Type) where
  command : CommandId
  message : μ
deriving DecidableEq, Repr

/-- Where a call of `send_command` stands. -/
inductive CallPhase (μ : Type) where
  | notStarted
  -- `is_connected` held; awaiting the writer lock
  | lockingWriter
  -- holds the writer lock; awaiting `pending_reply`
  | installing
  -- sender installed; inside `write_all`
  | writing
  -- `write_all` failed; awaiting `pending_reply`
  | clearing (message : Text)
  -- inside `timeout(rx)`
  | awaitingReply
  -- the timeout fired and `rx` is gone; awaiting `pending_reply`
  | settlingTimeout (timeoutMs : Nat)
  | returned (result : Except EslError (Reply μ))
  -- the caller dropped the future, after or before the bytes went out
  | dropped (written : Bool)

/-- The bytes of the command went out and the call has not returned. -/
def CallPhase.written {μ : Type} : CallPhase μ → Bool
  | .awaitingReply => true
  | .settlingTimeout _ => true
  | .dropped written => written
  | _ => false

/-- The call holds the writer lock. -/
def CallPhase.locked {μ : Type} : CallPhase μ → Bool
  | .installing => true
  | .writing => true
  | .clearing _ => true
  | .awaitingReply => true
  | .settlingTimeout _ => true
  | _ => false

/-- The call still has the receiving half of its oneshot channel. -/
def CallPhase.receiving {μ : Type} : CallPhase μ → Bool
  | .writing => true
  | .clearing _ => true
  | .awaitingReply => true
  | _ => false

/-- Why `reader_loop_inner` returned. -/
inductive ReaderExit where
  | eof
  | ioError (message : Text)
  | protocolError (message : Text)
  | heartbeatExpired
  | panicked
  -- a message whose dispatch ends the loop
  | serverNotice (controlledSessionUuid body : Option Text)
  | accessDenied (message : Text)
  | desync (message : Text)
  | eventChannelClosed
  -- the drain: at a clean boundary, or not
  | drained
  | drainFailed (error : EslError)

/-- The reason `reader_loop` publishes for it. -/
def ReaderExit.reason : ReaderExit → Option DisconnectReason
  | .eof => some .connectionClosed
  | .ioError message => some (.ioError message)
  | .protocolError message => some (.protocolError message)
  | .heartbeatExpired => some .heartbeatExpired
  | .panicked => some (.ioError "reader task panicked".toList)
  | .serverNotice uuid body => some (.serverNotice uuid body)
  | .accessDenied message => some (.accessDenied message)
  | .desync message => some (.protocolError message)
  | .eventChannelClosed => none
  | .drained => some .reexecTeardown
  | .drainFailed _ => none

/-- Where the reader task stands. -/
inductive ReaderPhase where
  | running
  | draining
  -- `reader_loop_inner` has returned
  | returned (reason : Option DisconnectReason)
  -- the status has been published
  | published (reason : Option DisconnectReason)
  -- `fail_pending_reply` has run
  | dead (reason : Option DisconnectReason)
deriving DecidableEq

/-- The loop still takes messages off the socket. -/
def ReaderPhase.reading : ReaderPhase → Bool
  | .running => true
  | .draining => true
  | _ => false

/-- The reason the loop returned, if it has returned one. -/
def ReaderPhase.reason : ReaderPhase → Option DisconnectReason
  | .running => none
  | .draining => none
  | .returned reason => reason
  | .published reason => reason
  | .dead reason => reason

/-- Where a call of `teardown_for_reexec` stands. -/
inductive TeardownPhase where
  | notCalled
  -- no command was waiting
  | checked
  -- holds the caller half of the re-exec channel
  | taken
  -- the stop signal went out; awaiting the result
  | signalled
  -- the residual bytes are here; awaiting the writer lock
  | drained
  | returned (result : Except EslError Unit)

/-- One connection, with the server at its other end. -/
structure Client (μ : Type) where
  pendingReply : PendingReply
  status : ConnectionStatus
  livenessTimeoutMs : Nat
  writerLock : Option CommandId
  writeOpen : Bool
  calls : CommandId → CallPhase μ
  -- what a oneshot channel holds
  mailbox : CommandId → Option (Reply μ)
  -- commands the server has not answered, oldest first
  unanswered : List CommandId
  -- replies the reader has not taken, oldest first
  wire : List (Reply μ)
  reader : ReaderPhase
  -- the caller half of the re-exec channel has not been taken
  reexec : Bool
  stopSignalled : Bool
  drainResult : Option (Except EslError Unit)
  teardown : TeardownPhase
  -- `disconnect` calls that have published and await the writer lock
  disconnecting : Nat

/-- The pieces of `send_command`. -/
inductive CallAct where
  | start
  | lockWriter
  | install
  | write
  | writeFails (message : Text)
  | clear
  | wake
  | timeout (timeoutMs : Nat)
  | settle
  -- the caller drops the future at its current await point
  | drop

inductive ReaderAct where
  | route
  | observeStop
  | exit (cause : ReaderExit)
  | publish
  | failPending

/-- The pieces of `teardown_for_reexec`. -/
inductive TeardownAct where
  | check
  | take
  | signal
  | result
  | elapsed
  | finish

inductive ClientAct (μ : Type) where
  | call (id : CommandId) (act : CallAct)
  | answer (message : μ)
  | reader (act : ReaderAct)
  | teardown (act : TeardownAct)
  | disconnect
  | shutdown
  | setLivenessTimeout (timeoutMs : Nat)

/-- The caller drops a `send_command` future. -/
def ClientAct.drops {μ : Type} : ClientAct μ → Bool
  | .call _ .drop => true
  | _ => false

/-- What a step did that others can see. -/
inductive ClientLog (μ : Type) where
  | wrote (id : CommandId)
  | routed (reply : Reply μ) (delivery : Delivery)
  | published (reason : DisconnectReason)

namespace Client

variable {μ : Type}

/-- A connection as `split_and_spawn_with_options` sets it up. -/
def new : Client μ where
  pendingReply := .new
  status := .connected
  livenessTimeoutMs := 0
  writerLock := none
  writeOpen := true
  calls := fun _ => .notStarted
  mailbox := fun _ => none
  unanswered := []
  wire := []
  reader := .running
  reexec := true
  stopSignalled := false
  drainResult := none
  teardown := .notCalled
  disconnecting := 0

def setCall (s : Client μ) (id : CommandId) (phase : CallPhase μ) : Client μ :=
  { s with calls := Function.update s.calls id phase }

/-- Drop the writer guard. -/
def unlock (s : Client μ) : Client μ := { s with writerLock := none }

def publish (s : Client μ) (reason : DisconnectReason) : Client μ :=
  { s with status := .disconnected reason }

/-- The caller drops its future: the locals go, so the writer guard if it is held and the receiver,
but the sender stays in the slot.  Inside `write_all` only a write that has put no byte on the
socket is covered. -/
def dropCall (s : Client μ) (id : CommandId) : Option (Client μ) :=
  match s.calls id with
  | .lockingWriter => some (s.setCall id (.dropped false))
  | .installing => some (s.unlock.setCall id (.dropped false))
  | .writing => some (s.unlock.setCall id (.dropped false))
  | .clearing _ => some (s.unlock.setCall id (.dropped false))
  | .awaitingReply => some (s.unlock.setCall id (.dropped true))
  | .settlingTimeout _ => some (s.unlock.setCall id (.dropped true))
  | _ => none

/-- One piece of `send_command`. -/
def callStep (s : Client μ) (id : CommandId) (act : CallAct) :
    Option (Client μ × List (ClientLog μ)) :=
  match act, s.calls id with
  | .start, .notStarted =>
      match s.status with
      | .connected => some (s.setCall id .lockingWriter, [])
      | .disconnected _ => some (s.setCall id (.returned (.error .notConnected)), [])
  | .lockWriter, .lockingWriter =>
      match s.writerLock with
      | none => some ({ s with writerLock := some id }.setCall id .installing, [])
      | some _ => none
  | .install, .installing =>
      match s.pendingReply.install id with
      | .error e => some (s.unlock.setCall id (.returned (.error e)), [])
      | .ok pending => some ({ s with pendingReply := pending }.setCall id .writing, [])
  | .write, .writing =>
      if s.writeOpen then
        some ({ s with unanswered := s.unanswered ++ [id] }.setCall id .awaitingReply, [.wrote id])
      else none
  | .writeFails message, .writing => some (s.setCall id (.clearing message), [])
  | .clear, .clearing message =>
      some ({ s.unlock with pendingReply := s.pendingReply.clearWaiting }.setCall id
        (.returned (.error (.io message))), [])
  | .wake, .awaitingReply =>
      match s.mailbox id with
      | some reply => some (s.unlock.setCall id (.returned (.ok reply)), [])
      | none =>
          -- The sender is gone without a message.
          if s.pendingReply.waiting = some id then none
          else some (s.unlock.setCall id (.returned (.error .connectionClosed)), [])
  | .timeout timeoutMs, .awaitingReply =>
      -- The timeout polls the channel before its clock.
      if s.mailbox id = none ∧ s.pendingReply.waiting = some id then
        some (s.setCall id (.settlingTimeout timeoutMs), [])
      else none
  | .settle, .settlingTimeout timeoutMs =>
      match s.pendingReply.expire with
      | some pending =>
          some ({ s.unlock with pendingReply := pending }.setCall id
            (.returned (.error (.timeout timeoutMs))), [])
      | none => none
  | .drop, _ => (s.dropCall id).map fun next => (next, [])
  | _, _ => none

/-- Send on a oneshot channel: lost if the receiver is gone. -/
def deliver (s : Client μ) (id : CommandId) (reply : Reply μ) : Client μ :=
  if (s.calls id).receiving then
    { s with mailbox := Function.update s.mailbox id (some reply) }
  else s

/-- Route one reply (`dispatch_message`). -/
def routeReply (s : Client μ) (reply : Reply μ) : Client μ × Delivery :=
  match s.pendingReply.route with
  | (.handed id, pending) => ({ s with pendingReply := pending }.deliver id reply, .handed id)
  | (delivery, pending) => ({ s with pendingReply := pending }, delivery)

/-- What the drain tells the teardown caller when the loop returns; `none` leaves the result channel
as it is.  `none` outside for an exit that cannot happen in this phase. -/
def drainVerdict (phase : ReaderPhase) (livenessTimeoutMs : Nat) :
    ReaderExit → Option (Option (Except EslError Unit))
  | .eof => if phase = .running then some none else none
  | .ioError _ => if phase = .running then some none else none
  | .heartbeatExpired =>
      if phase = .running ∧ livenessTimeoutMs ≠ 0 then some none else none
  -- Parser errors and panics leave the loop without a word to the teardown caller, but an overflow
  -- while draining is one of the failures below.
  | .protocolError _ => some none
  | .panicked => some none
  | .serverNotice _ _ => some (stoppedEarly phase)
  | .accessDenied _ => some (stoppedEarly phase)
  | .desync _ => some (stoppedEarly phase)
  | .eventChannelClosed => some (stoppedEarly phase)
  | .drained => if phase = .draining then some (some (.ok ())) else none
  | .drainFailed error => if phase = .draining then some (some (.error error)) else none
where
  /-- A message that ends the loop ends a drain too. -/
  stoppedEarly (phase : ReaderPhase) : Option (Except EslError Unit) :=
    if phase = .draining then
      some (.error (.reexecFailed "reader stopped before the drain completed".toList))
    else none

/-- One piece of `reader_loop`. -/
def readerStep (s : Client μ) : ReaderAct → Option (Client μ × List (ClientLog μ))
  | .route =>
      if s.reader.reading then
        match s.wire with
        | [] => none
        | reply :: rest =>
            let routed := { s with wire := rest }.routeReply reply
            some (routed.1, [.routed reply routed.2])
      else none
  | .observeStop =>
      if s.reader = .running ∧ s.stopSignalled then some ({ s with reader := .draining }, [])
      else none
  | .exit cause =>
      if s.reader.reading then
        match drainVerdict s.reader s.livenessTimeoutMs cause with
        | none => none
        | some none => some ({ s with reader := .returned cause.reason }, [])
        | some (some result) =>
            some ({ s with reader := .returned cause.reason, drainResult := some result }, [])
      else none
  | .publish =>
      match s.reader with
      | .returned none => some ({ s with reader := .published none }, [])
      | .returned (some reason) =>
          some ({ (s.publish reason) with reader := .published (some reason) }, [.published reason])
      | _ => none
  | .failPending =>
      match s.reader with
      | .published reason =>
          some ({ s with pendingReply := s.pendingReply.fail, reader := .dead reason }, [])
      | _ => none

/-- `teardown_for_reexec` returns `ReexecFailed`. -/
def failTeardown (s : Client μ) (reason : String) : Client μ :=
  { s with teardown := .returned (.error (.reexecFailed reason.toList)) }

/-- The check under the `pending_reply` lock. -/
def checkInFlight (s : Client μ) : Client μ :=
  match s.pendingReply.waiting with
  | some _ => s.failTeardown "command still in-flight"
  | none => { s with teardown := .checked }

/-- One piece of `teardown_for_reexec`.  A call that returned may be followed by another. -/
def teardownStep (s : Client μ) (act : TeardownAct) : Option (Client μ × List (ClientLog μ)) :=
  match act, s.teardown with
  | .check, .notCalled => some (s.checkInFlight, [])
  | .check, .returned _ => some (s.checkInFlight, [])
  | .take, .checked =>
      if s.reexec then some ({ s with reexec := false, teardown := .taken }, [])
      else some (s.failTeardown "teardown already called", [])
  | .signal, .taken =>
      let quiet := { s with livenessTimeoutMs := 0 }
      if s.reader.reading then
        some ({ quiet with stopSignalled := true, teardown := .signalled }, [])
      else some (quiet.failTeardown "reader task is gone, stop signal not delivered", [])
  | .result, .signalled =>
      match s.drainResult with
      | some (.ok ()) => some ({ s with teardown := .drained }, [])
      | some (.error e) => some ({ s with teardown := .returned (.error e) }, [])
      | none =>
          if s.reader.reading then none
          else some (s.failTeardown "reader task exited without sending result: channel closed", [])
  | .elapsed, .signalled =>
      match s.drainResult with
      | some _ => none
      | none =>
          some (s.failTeardown
            "timed out waiting for reader to stop: deadline has elapsed", [])
  | .finish, .drained =>
      match s.writerLock with
      | some _ => none
      | none =>
          some ({ (s.publish .reexecTeardown) with teardown := .returned (.ok ()) },
            [.published .reexecTeardown])
  | _, _ => none

/-- One step of the connection. -/
def step (s : Client μ) : ClientAct μ → Option (Client μ × List (ClientLog μ))
  | .call id act => s.callStep id act
  | .answer message =>
      match s.unanswered with
      | [] => none
      | id :: rest => some ({ s with unanswered := rest, wire := s.wire ++ [⟨id, message⟩] }, [])
  | .reader act => s.readerStep act
  | .teardown act => s.teardownStep act
  | .disconnect =>
      some ({ (s.publish .clientRequested) with disconnecting := s.disconnecting + 1 },
        [.published .clientRequested])
  | .shutdown =>
      if s.writerLock = none ∧ 0 < s.disconnecting then
        some ({ s with writeOpen := false, disconnecting := s.disconnecting - 1 }, [])
      else none
  | .setLivenessTimeout timeoutMs => some ({ s with livenessTimeoutMs := timeoutMs }, [])

/-- The process that adopts the socket (`adopt_stream_with_options`): everything starts afresh but
the socket, on which the old process may still be owed replies.  Commands of the old process are
gone and cannot be issued again. -/
def adopt (s : Client μ) : Client μ :=
  { (new : Client μ) with
    writeOpen := s.writeOpen
    unanswered := s.unanswered
    wire := s.wire
    calls := fun id =>
      match s.calls id with
      | .notStarted => .notStarted
      | _ => .dropped true }

/-! ## What each party can do -/

/-- The outcomes of one piece of `send_command`, with the condition each is taken under. -/
inductive CallMove (s : Client μ) (id : CommandId) :
    CallAct → Client μ → List (ClientLog μ) → Prop where
  | started (hphase : s.calls id = .notStarted) (hstatus : s.status = .connected) :
      CallMove s id .start (s.setCall id .lockingWriter) []
  | refused (hphase : s.calls id = .notStarted) :
      CallMove s id .start (s.setCall id (.returned (.error .notConnected))) []
  | locked (hphase : s.calls id = .lockingWriter) (hfree : s.writerLock = none) :
      CallMove s id .lockWriter ({ s with writerLock := some id }.setCall id .installing) []
  | readerGone (hphase : s.calls id = .installing) (hdead : s.pendingReply.readerDead = true) :
      CallMove s id .install (s.unlock.setCall id (.returned (.error .connectionClosed))) []
  | installed (hphase : s.calls id = .installing) (halive : s.pendingReply.readerDead = false) :
      CallMove s id .install ({ s with
        pendingReply := { s.pendingReply with waiting := some id } }.setCall id .writing) []
  | wrote (hphase : s.calls id = .writing) (hopen : s.writeOpen = true) :
      CallMove s id .write
        ({ s with unanswered := s.unanswered ++ [id] }.setCall id .awaitingReply) [.wrote id]
  | writeFailed (message : Text) (hphase : s.calls id = .writing) :
      CallMove s id (.writeFails message) (s.setCall id (.clearing message)) []
  | cleared (message : Text) (hphase : s.calls id = .clearing message) :
      CallMove s id .clear ({ s with pendingReply := s.pendingReply.clearWaiting }.unlock.setCall id
        (.returned (.error (.io message)))) []
  | replied (reply : Reply μ) (hphase : s.calls id = .awaitingReply)
      (hmail : s.mailbox id = some reply) :
      CallMove s id .wake (s.unlock.setCall id (.returned (.ok reply))) []
  | closed (hphase : s.calls id = .awaitingReply) (hmail : s.mailbox id = none)
      (hgone : s.pendingReply.waiting ≠ some id) :
      CallMove s id .wake (s.unlock.setCall id (.returned (.error .connectionClosed))) []
  | timedOut (timeoutMs : Nat) (hphase : s.calls id = .awaitingReply)
      (hmail : s.mailbox id = none) (hwaiting : s.pendingReply.waiting = some id) :
      CallMove s id (.timeout timeoutMs) (s.setCall id (.settlingTimeout timeoutMs)) []
  | settled (timeoutMs : Nat) (pending : PendingReply)
      (hphase : s.calls id = .settlingTimeout timeoutMs)
      (hexpire : s.pendingReply.expire = some pending) :
      CallMove s id .settle ({ s with pendingReply := pending }.unlock.setCall id
        (.returned (.error (.timeout timeoutMs)))) []
  | left (hphase : s.calls id = .lockingWriter) :
      CallMove s id .drop (s.setCall id (.dropped false)) []
  | abandoned (hlocked : (s.calls id).locked = true) :
      CallMove s id .drop (s.unlock.setCall id (.dropped (s.calls id).written)) []

theorem dropCall_move {s next : Client μ} {id : CommandId} (h : s.dropCall id = some next) :
    CallMove s id .drop next [] := by
  have habandoned : ∀ phase, s.calls id = phase → phase.locked = true →
      CallMove s id .drop (s.unlock.setCall id (.dropped phase.written)) [] := by
    intro phase hphase hlocked
    have hmove : CallMove s id .drop (s.unlock.setCall id (.dropped (s.calls id).written)) [] :=
      .abandoned (by rw [hphase]; exact hlocked)
    rw [hphase] at hmove
    exact hmove
  unfold dropCall at h
  split at h
  · rename_i hphase
    obtain rfl := Option.some.inj h
    exact .left hphase
  · rename_i hphase
    obtain rfl := Option.some.inj h
    exact habandoned .installing hphase rfl
  · rename_i hphase
    obtain rfl := Option.some.inj h
    exact habandoned .writing hphase rfl
  · rename_i message hphase
    obtain rfl := Option.some.inj h
    exact habandoned (.clearing message) hphase rfl
  · rename_i hphase
    obtain rfl := Option.some.inj h
    exact habandoned .awaitingReply hphase rfl
  · rename_i timeoutMs hphase
    obtain rfl := Option.some.inj h
    exact habandoned (.settlingTimeout timeoutMs) hphase rfl
  · cases h

theorem callStep_move {s next : Client μ} {id : CommandId} {act : CallAct}
    {log : List (ClientLog μ)} (h : s.callStep id act = some (next, log)) :
    CallMove s id act next log := by
  unfold callStep at h
  split at h
  · rename_i hphase
    split at h
    · obtain ⟨rfl, rfl⟩ := by simpa using h
      exact .started hphase (by assumption)
    · obtain ⟨rfl, rfl⟩ := by simpa using h
      exact .refused hphase
  · rename_i hphase
    split at h
    · obtain ⟨rfl, rfl⟩ := by simpa using h
      exact .locked hphase (by assumption)
    · cases h
  · rename_i hphase
    cases hdead : s.pendingReply.readerDead with
    | true =>
        have hinstall : s.pendingReply.install id = .error .connectionClosed := by
          simp [PendingReply.install, hdead]
        rw [hinstall] at h
        obtain ⟨rfl, rfl⟩ := by simpa using h
        exact .readerGone hphase hdead
    | false =>
        have hinstall : s.pendingReply.install id =
            .ok { s.pendingReply with waiting := some id } := by
          simp [PendingReply.install, hdead]
        rw [hinstall] at h
        obtain ⟨rfl, rfl⟩ := by simpa using h
        exact .installed hphase hdead
  · rename_i hphase
    split at h
    · obtain ⟨rfl, rfl⟩ := by simpa using h
      exact .wrote hphase (by assumption)
    · cases h
  · rename_i message hphase
    obtain ⟨rfl, rfl⟩ := by simpa using h
    exact .writeFailed message hphase
  · rename_i message hphase
    obtain ⟨rfl, rfl⟩ := by simpa using h
    exact .cleared message hphase
  · rename_i hphase
    split at h
    · rename_i reply hmail
      obtain ⟨rfl, rfl⟩ := by simpa using h
      exact .replied reply hphase hmail
    · rename_i hmail
      split at h
      · cases h
      · rename_i hgone
        obtain ⟨rfl, rfl⟩ := by simpa using h
        exact .closed hphase hmail hgone
  · rename_i timeoutMs hphase
    split at h
    · rename_i hpending
      obtain ⟨rfl, rfl⟩ := by simpa using h
      exact .timedOut timeoutMs hphase hpending.1 hpending.2
    · cases h
  · rename_i timeoutMs hphase
    split at h
    · rename_i pending hexpire
      obtain ⟨rfl, rfl⟩ := by simpa using h
      exact .settled timeoutMs pending hphase hexpire
    · cases h
  · obtain ⟨dropped, hdrop, heq⟩ := Option.map_eq_some_iff.mp h
    obtain ⟨rfl, rfl⟩ := Prod.mk.inj heq
    exact dropCall_move hdrop
  · cases h

/-- The outcomes of one piece of `reader_loop`. -/
inductive ReaderMove (s : Client μ) : ReaderAct → Client μ → List (ClientLog μ) → Prop where
  | routed (reply : Reply μ) (rest : List (Reply μ)) (hreading : s.reader.reading = true)
      (hwire : s.wire = reply :: rest) :
      ReaderMove s .route ({ s with wire := rest }.routeReply reply).1
        [.routed reply ({ s with wire := rest }.routeReply reply).2]
  | stopped (hrunning : s.reader = .running) (hstop : s.stopSignalled = true) :
      ReaderMove s .observeStop { s with reader := .draining } []
  | exited (cause : ReaderExit) (hreading : s.reader.reading = true)
      (hverdict : drainVerdict s.reader s.livenessTimeoutMs cause = some none) :
      ReaderMove s (.exit cause) { s with reader := .returned cause.reason } []
  | exitedWith (cause : ReaderExit) (result : Except EslError Unit)
      (hreading : s.reader.reading = true)
      (hverdict : drainVerdict s.reader s.livenessTimeoutMs cause = some (some result)) :
      ReaderMove s (.exit cause)
        { s with reader := .returned cause.reason, drainResult := some result } []
  | silent (hreturned : s.reader = .returned none) :
      ReaderMove s .publish { s with reader := .published none } []
  | published (reason : DisconnectReason) (hreturned : s.reader = .returned (some reason)) :
      ReaderMove s .publish { (s.publish reason) with reader := .published (some reason) }
        [.published reason]
  | failed (reason : Option DisconnectReason) (hpublished : s.reader = .published reason) :
      ReaderMove s .failPending
        { s with pendingReply := s.pendingReply.fail, reader := .dead reason } []

/-- Routing a reply touches the slot and a mailbox, and nothing else. -/
structure RouteFrame (s next : Client μ) : Prop where
  calls : next.calls = s.calls
  wire : next.wire = s.wire
  unanswered : next.unanswered = s.unanswered
  status : next.status = s.status
  reader : next.reader = s.reader
  drainResult : next.drainResult = s.drainResult
  teardown : next.teardown = s.teardown
  waiting : next.pendingReply.waiting = s.pendingReply.waiting ∨ next.pendingReply.waiting = none

theorem routeReply_frame (s : Client μ) (reply : Reply μ) :
    RouteFrame s (s.routeReply reply).1 := by
  have hslot : s.pendingReply.route.2.waiting = s.pendingReply.waiting ∨
      s.pendingReply.route.2.waiting = none := by
    unfold PendingReply.route
    split
    · exact Or.inl rfl
    · split
      · exact Or.inr rfl
      · exact Or.inl rfl
  unfold routeReply
  split
  · rename_i id pending hroute
    rw [hroute] at hslot
    unfold deliver
    split <;> exact ⟨rfl, rfl, rfl, rfl, rfl, rfl, rfl, hslot⟩
  · rename_i delivery pending _ hroute
    rw [hroute] at hslot
    exact ⟨rfl, rfl, rfl, rfl, rfl, rfl, rfl, hslot⟩

theorem readerStep_move {s next : Client μ} {act : ReaderAct} {log : List (ClientLog μ)}
    (h : s.readerStep act = some (next, log)) : ReaderMove s act next log := by
  cases act with
  | route =>
      simp only [readerStep] at h
      split at h
      · split at h
        · cases h
        · obtain ⟨rfl, rfl⟩ := by simpa using h
          exact .routed _ _ (by assumption) (by assumption)
      · cases h
  | observeStop =>
      simp only [readerStep] at h
      split at h
      · rename_i hguard
        obtain ⟨rfl, rfl⟩ := by simpa using h
        exact .stopped hguard.1 hguard.2
      · cases h
  | exit cause =>
      simp only [readerStep] at h
      split at h
      · split at h
        · cases h
        · obtain ⟨rfl, rfl⟩ := by simpa using h
          exact .exited cause (by assumption) (by assumption)
        · obtain ⟨rfl, rfl⟩ := by simpa using h
          exact .exitedWith cause _ (by assumption) (by assumption)
      · cases h
  | publish =>
      simp only [readerStep] at h
      split at h
      · obtain ⟨rfl, rfl⟩ := by simpa using h
        exact .silent (by assumption)
      · obtain ⟨rfl, rfl⟩ := by simpa using h
        exact .published _ (by assumption)
      · cases h
  | failPending =>
      simp only [readerStep] at h
      split at h
      · obtain ⟨rfl, rfl⟩ := by simpa using h
        exact .failed _ (by assumption)
      · cases h

/-- The outcomes of one piece of `teardown_for_reexec`. -/
inductive TeardownMove (s : Client μ) : TeardownAct → Client μ → List (ClientLog μ) → Prop where
  | checked (hnone : s.pendingReply.waiting = none) :
      TeardownMove s .check { s with teardown := .checked } []
  | taken (hphase : s.teardown = .checked) (hreexec : s.reexec = true) :
      TeardownMove s .take { s with reexec := false, teardown := .taken } []
  | signalled (hphase : s.teardown = .taken) (hreading : s.reader.reading = true) :
      TeardownMove s .signal
        { s with livenessTimeoutMs := 0, stopSignalled := true, teardown := .signalled } []
  | readerGone (hphase : s.teardown = .taken) (hreading : s.reader.reading = false) :
      TeardownMove s .signal ({ s with livenessTimeoutMs := 0 }.failTeardown
        "reader task is gone, stop signal not delivered") []
  | drained (hphase : s.teardown = .signalled) (hresult : s.drainResult = some (.ok ())) :
      TeardownMove s .result { s with teardown := .drained } []
  | drainFailed (error : EslError) (hphase : s.teardown = .signalled)
      (hresult : s.drainResult = some (.error error)) :
      TeardownMove s .result { s with teardown := .returned (.error error) } []
  -- the remaining failures change nothing but the caller's result
  | failed (act : TeardownAct) (reason : String) (hact : act ≠ .finish) :
      TeardownMove s act (s.failTeardown reason) []
  | finished (hphase : s.teardown = .drained) (hfree : s.writerLock = none) :
      TeardownMove s .finish { (s.publish .reexecTeardown) with teardown := .returned (.ok ()) }
        [.published .reexecTeardown]

theorem teardownStep_move {s next : Client μ} {act : TeardownAct} {log : List (ClientLog μ)}
    (h : s.teardownStep act = some (next, log)) : TeardownMove s act next log := by
  have hcheck : TeardownMove s .check s.checkInFlight [] := by
    unfold checkInFlight
    split
    · exact .failed .check _ (by simp)
    · exact .checked (by assumption)
  unfold teardownStep at h
  split at h
  · obtain ⟨rfl, rfl⟩ := by simpa using h
    exact hcheck
  · obtain ⟨rfl, rfl⟩ := by simpa using h
    exact hcheck
  · split at h
    · obtain ⟨rfl, rfl⟩ := by simpa using h
      exact .taken (by assumption) (by assumption)
    · obtain ⟨rfl, rfl⟩ := by simpa using h
      exact .failed .take _ (by simp)
  · simp only at h
    split at h
    · obtain ⟨rfl, rfl⟩ := by simpa using h
      exact .signalled (by assumption) (by assumption)
    · rename_i hreading
      obtain ⟨rfl, rfl⟩ := by simpa using h
      exact .readerGone (by assumption) (by simpa using hreading)
  · split at h
    · obtain ⟨rfl, rfl⟩ := by simpa using h
      exact .drained (by assumption) (by assumption)
    · obtain ⟨rfl, rfl⟩ := by simpa using h
      exact .drainFailed _ (by assumption) (by assumption)
    · split at h
      · cases h
      · obtain ⟨rfl, rfl⟩ := by simpa using h
        exact .failed .result _ (by simp)
  · split at h
    · cases h
    · obtain ⟨rfl, rfl⟩ := by simpa using h
      exact .failed .elapsed _ (by simp)
  · split at h
    · cases h
    · obtain ⟨rfl, rfl⟩ := by simpa using h
      exact .finished (by assumption) (by assumption)
  · cases h

end Client
end EslTokio
