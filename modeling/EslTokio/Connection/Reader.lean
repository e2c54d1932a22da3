import EslTokio.Connection.Client
import EslTokio.Connection.EventQueue
import EslTokio.Connection.Read
import EslTokio.Event.EventType

/-!
# The reader task, from bytes to exit

`reader_loop` and `reader_loop_inner` of `src/connection/reader.rs` with everything they call: the
parse loop, the dispatch of each message, the reads, the drain for a re-exec, and the exit sequence.
What `Client` abstracts to a list of replies and a cause of exit is computed here from the bytes of
the socket.

As in `EventQueue`, the task is cut at every point where another party can move.  The other parties
act on the shared state only: the consumer of the queue, commands that install and withdraw their
waiter, `disconnect`, and the teardown.

How the body of an event is decoded is a parameter: the loop hands the result on, `Ok` or `Err`.

* `Reader.dispatchMessage` — what one parsed message makes the loop do.
* `Reader.readStep`, `Reader.drainStep` — one read, outside and inside a drain.
* `Reader.step` — the whole task; `LoopMove` — everything a step can be.
* **`Reader.step_exit`** — the loop returns only where, and telling the teardown only what, `Client`
  says.
-/

namespace EslTokio

open Library

/-- The format the reader parses an event message in; `log/data` is framed like plain text. -/
def eventFormat (message : EslMessage) : Except Text EventFormat :=
  match message.headers.get? headerContentType with
  | none => .ok .plain
  | some ct => if ct = contentTypeLogData then .ok .plain else EventFormat.fromContentType ct

/-- What follows a dispatch call. -/
inductive AfterDispatch where
  -- the loop goes on, unless the receiver is gone
  | proceed
  -- the loop returns, whether the notice got through or not
  | denied (reason : Text)
  | desynced (reason : Text)
deriving DecidableEq, Repr

/-- The exit that follows a dispatch call with this result, if one does. -/
def AfterDispatch.exit (after : AfterDispatch) (alive : Bool) : Option ReaderExit :=
  match after with
  | .proceed => if alive then none else some .eventChannelClosed
  | .denied reason => some (.accessDenied reason)
  | .desynced reason => some (.desync reason)

/-- Where the reader task stands. -/
inductive LoopPhase where
  -- at the top of the loop
  | parsing
  -- a command reply in hand; awaiting `pending_reply`
  | routing (message : EslMessage)
  -- inside `dispatch_event` or `dispatch_notice`
  | dispatching (after : AfterDispatch)
  -- no complete message is buffered
  | reading
  -- `reader_loop_inner` has returned
  | returned (cause : ReaderExit)
  -- the reason has been published, if there is one
  | published (cause : ReaderExit)
  -- `fail_pending_reply` has run
  | failed (cause : ReaderExit)
  -- the task is over: the sender of the event channel is dropped
  | ended (cause : ReaderExit)

/-- `reader_loop_inner` is running. -/
def LoopPhase.looping : LoopPhase → Bool
  | .parsing => true
  | .routing _ => true
  | .dispatching _ => true
  | .reading => true
  | _ => false

/-- The reader task and the state it shares with the other parties (`queue.shared`). -/
structure Reader (ε : Type) where
  parser : EslParser
  queue : QueueState (Except EslError ε)
  overflow : EventOverflow
  phase : LoopPhase
  -- the teardown has sent its stop signal
  stopSignalled : Bool
  draining : Bool
  -- what went to the teardown caller; the channel takes one result
  reexecResult : Option (Except EslError Bytes)

/-- What the other parties do to the shared state. -/
inductive OtherAct where
  -- the consumer of the queue
  | recv
  | close
  -- `send_command`
  | install (id : CommandId)
  | clearWaiting
  | expire
  -- `disconnect` and `teardown_for_reexec`
  | publish (reason : DisconnectReason)
  | setLivenessTimeout (timeoutMs : Nat)
  | signalStop

inductive LoopAct (ε : Type) where
  | parse
  | route
  -- a piece of the dispatch call
  | dispatch (act : QueueAct (Except EslError ε))
  | resume
  | observeStop
  -- the drain finds a clean boundary
  | drained
  -- one read, and the time without traffic an idle one compares
  | read (outcome : ReadOutcome) (idleMs : Nat)
  | panic
  | publish
  | failPending
  | finish
  | other (act : OtherAct)

/-- What the loop took off the socket, and what it took out of that. -/
inductive LoopLog where
  | fed (data : Bytes)
  | parsed (message : EslMessage)
deriving DecidableEq

/-- A piece of a dispatch call already started. -/
def QueueAct.continues {α : Type} : QueueAct α → Bool
  | .trySend => true
  | .pollReserve => true
  | .wait _ => true
  | _ => false

/-- The stop signal ends the wait for capacity. -/
def QueueAct.stops {α : Type} : QueueAct α → Bool
  | .wait .stop => true
  | _ => false

/-- Traffic-idle check; a zero threshold disables it. -/
def livenessExpired (thresholdMs idleMs : Nat) : Bool :=
  thresholdMs ≠ 0 && idleMs > thresholdMs

namespace Reader

variable {ε : Type}

/-- The reader task as `split_and_spawn_with_options` starts it. -/
def spawn (parser : EslParser) (eventQueueSize : Nat) (overflow : EventOverflow) : Reader ε where
  parser := parser
  queue := .new eventQueueSize
  overflow := overflow
  phase := .parsing
  stopSignalled := false
  draining := false
  reexecResult := none

/-- Send on the result channel of the re-exec, if nothing was sent before. -/
def sendReexec (s : Reader ε) (result : Except EslError Bytes) : Reader ε :=
  { s with reexecResult := s.reexecResult.or (some result) }

def exit (s : Reader ε) (cause : ReaderExit) : Reader ε := { s with phase := .returned cause }

/-- A dispatched message ends the loop, and with it a drain that is under way. -/
def stopEarly (s : Reader ε) (cause : ReaderExit) : Reader ε :=
  if s.draining then
    (s.sendReexec
      (.error (.reexecFailed "reader stopped before the drain completed".toList))).exit cause
  else s.exit cause

/-- Start a dispatch call. -/
def startDispatch (s : Reader ε) (act : QueueAct (Except EslError ε)) (after : AfterDispatch) :
    Option (Reader ε) :=
  (s.queue.step act).map fun next => { s with queue := next.1, phase := .dispatching after }

variable (parseEvent : Bool → EslMessage → EventFormat → Except EslError ε)

/-- Pick the body format, parse the event, hand it over.  A drain never waits for capacity. -/
def dispatchParsedEvent (s : Reader ε) (message : EslMessage) : Option (Reader ε) :=
  match eventFormat message with
  | .error format =>
      s.startDispatch (.dispatchNotice (.error (.invalidEventFormat format))) .proceed
  | .ok format =>
      let overflow := if s.draining then .dropIncoming else s.overflow
      let event := parseEvent s.parser.strictHeaderUtf8 message format
      s.startDispatch (.dispatchEvent overflow event) .proceed

/-- Route one parsed message to the event channel or to the waiting command. -/
def dispatchMessage (s : Reader ε) (message : EslMessage) : Option (Reader ε) :=
  match message.messageType with
  | .event => s.dispatchParsedEvent parseEvent message
  | .commandReply => some { s with phase := .routing message }
  | .apiResponse => some { s with phase := .routing message }
  | .disconnect =>
      if message.headers.get? "Content-Disposition".toList = some "linger".toList then
        some { s with phase := .parsing }
      else
        some (s.stopEarly (.serverNotice
          (message.headers.get? "Controlled-Session-UUID".toList) message.body))
  | .rudeRejection =>
      let reason := message.body.getD "rude-rejection without body".toList
      s.startDispatch (.dispatchNotice (.error (.accessDenied reason))) (.denied reason)
  | .authRequest =>
      let reason := "unsolicited auth/request received after authentication".toList
      s.startDispatch (.dispatchNotice (.error (.protocolError reason))) (.desynced reason)

/-- One turn of the loop up to its next await. -/
def parseStep (s : Reader ε) : Option (Reader ε × List LoopLog) :=
  match s.parser.parseMessage with
  | (.error e, p) => some ({ s with parser := p }.exit (.protocolError e.toText), [])
  | (.ok none, p) => some ({ s with parser := p, phase := .reading }, [])
  | (.ok (some message), p) =>
      ({ s with parser := p }.dispatchMessage parseEvent message).map fun next =>
        (next, [.parsed message])

/-- The normal read path. -/
def readStep (s : Reader ε) (outcome : ReadOutcome) (idleMs : Nat) : Reader ε × List LoopLog :=
  match s.parser.readIntoParser outcome with
  | (.ok .fed, p) => ({ s with parser := p, phase := .parsing }, [.fed outcome.data])
  | (.ok .eof, p) => ({ s with parser := p }.exit .eof, [])
  | (.ok .idle, p) =>
      if livenessExpired s.queue.shared.livenessTimeoutMs idleMs then
        ({ s with parser := p }.exit .heartbeatExpired, [])
      else ({ s with parser := p, phase := .parsing }, [])
  | (.error (.io message), p) => ({ s with parser := p }.exit (.ioError message), [])
  | (.error e, p) => ({ s with parser := p }.exit (.protocolError e.toText), [])

/-- A drain that cannot reach a clean boundary. -/
def failDrain (s : Reader ε) (error : EslError) : Reader ε :=
  (s.sendReexec (.error error)).exit (.drainFailed error)

/-- The read of `drain_for_reexec`: more data to finish the current body. -/
def drainStep (s : Reader ε) (outcome : ReadOutcome) : Reader ε × List LoopLog :=
  match s.parser.readIntoParser outcome with
  | (.ok .fed, p) => ({ s with parser := p, phase := .parsing }, [.fed outcome.data])
  | (.ok .eof, p) =>
      ({ s with parser := p }.failDrain
        (.reexecFailed "connection closed during drain".toList), [])
  | (.ok .idle, p) =>
      ({ s with parser := p }.failDrain
        (.reexecFailed "drain timeout waiting for message body".toList), [])
  | (.error e, p) => ({ s with parser := p }.failDrain e, [])

/-- Route one reply under the `pending_reply` lock. -/
def routeStep (s : Reader ε) : Reader ε :=
  { s with
    queue.shared.pendingReply := s.queue.shared.pendingReply.route.2
    phase := .parsing }

/-- The reason is broadcast, if the exit has one. -/
def publishStep (s : Reader ε) (cause : ReaderExit) : Reader ε :=
  match cause.reason with
  | none => { s with phase := .published cause }
  | some reason =>
      { s with queue.shared.status := .disconnected reason, phase := .published cause }

/-- A step of another party. -/
def otherStep (s : Reader ε) : OtherAct → Option (Reader ε)
  | .recv => (s.queue.step .recv).map fun next => { s with queue := next.1 }
  | .close => (s.queue.step .close).map fun next => { s with queue := next.1 }
  | .install id =>
      match s.queue.shared.pendingReply.install id with
      | .error _ => some s
      | .ok pending => some { s with queue.shared.pendingReply := pending }
  | .clearWaiting =>
      some { s with queue.shared.pendingReply := s.queue.shared.pendingReply.clearWaiting }
  | .expire =>
      s.queue.shared.pendingReply.expire.map fun pending =>
        { s with queue.shared.pendingReply := pending }
  | .publish reason => some { s with queue.shared.status := .disconnected reason }
  | .setLivenessTimeout timeoutMs =>
      some { s with queue.shared.livenessTimeoutMs := timeoutMs }
  | .signalStop =>
      -- The teardown turns the liveness check off first.
      some { s with queue.shared.livenessTimeoutMs := 0, stopSignalled := true }

/-- One step of the reader task or of a party it shares state with. -/
def step (s : Reader ε) (act : LoopAct ε) : Option (Reader ε × List LoopLog) :=
  match act, s.phase with
  | .parse, .parsing => s.parseStep parseEvent
  | .route, .routing _ => some (s.routeStep, [])
  | .dispatch act, .dispatching _ =>
      -- A drain passes no stop signal on, so its dispatches do not see one.
      if act.continues && (!act.stops || s.stopSignalled && !s.draining) then
        (s.queue.step act).map fun next =>
          ({ s with queue := next.1, draining := s.draining || act.stops }, [])
      else none
  | .resume, .dispatching after =>
      match s.queue.phase with
      | .returned alive =>
          match after.exit alive with
          | none => some ({ s with phase := .parsing }, [])
          | some cause => some (s.stopEarly cause, [])
      | _ => none
  | .observeStop, .reading =>
      if s.stopSignalled && !s.draining then
        some ({ s with draining := true, phase := .parsing }, [])
      else none
  | .drained, .reading =>
      if s.draining && s.parser.isWaitingForHeaders then
        some ((s.sendReexec (.ok s.parser.remainingBytes)).exit .drained, [])
      else none
  | .read outcome idleMs, .reading =>
      if !s.draining then some (s.readStep outcome idleMs)
      else if s.parser.isWaitingForHeaders then none
      else some (s.drainStep outcome)
  | .panic, phase => if phase.looping then some (s.exit .panicked, []) else none
  | .publish, .returned cause => some (s.publishStep cause, [])
  | .failPending, .published cause =>
      some ({ s with
        queue.shared.pendingReply := s.queue.shared.pendingReply.fail
        phase := .failed cause }, [])
  | .finish, .failed cause => some ({ s with phase := .ended cause }, [])
  | .other act, _ => (s.otherStep act).map fun next => (next, [])
  | _, _ => none

/-! ## Everything a step can be -/

/-- The read brings bytes, and they fit behind the unconsumed ones. -/
def Supplies (s : Reader ε) (outcome : ReadOutcome) : Prop :=
  ∃ data, outcome = .bytes data ∧ data ≠ [] ∧
    (s.parser.remainingBytes ++ data).length ≤ maxBufferSize

/-- The steps of the task, with the condition each is taken under. -/
inductive LoopMove (s : Reader ε) : LoopAct ε → Reader ε → List LoopLog → Prop where
  | parseFailed {e : EslError} {p : EslParser} (hphase : s.phase = .parsing)
      (hparse : s.parser.parseMessage = (.error e, p)) :
      LoopMove s .parse ({ s with parser := p }.exit (.protocolError e.toText)) []
  | starved {p : EslParser} (hphase : s.phase = .parsing)
      (hparse : s.parser.parseMessage = (.ok none, p)) :
      LoopMove s .parse { s with parser := p, phase := .reading } []
  | dispatchStarted {m : EslMessage} {p : EslParser} {act : QueueAct (Except EslError ε)}
      {queue : QueueState (Except EslError ε)} {log : List (QueueLog (Except EslError ε))}
      {after : AfterDispatch} (hphase : s.phase = .parsing)
      (hparse : s.parser.parseMessage = (.ok (some m), p))
      (hqueue : s.queue.step act = some (queue, log)) :
      LoopMove s .parse { s with parser := p, queue := queue, phase := .dispatching after }
        [.parsed m]
  | routable {m : EslMessage} {p : EslParser} (hphase : s.phase = .parsing)
      (hparse : s.parser.parseMessage = (.ok (some m), p)) :
      LoopMove s .parse { s with parser := p, phase := .routing m } [.parsed m]
  | lingered {m : EslMessage} {p : EslParser} (hphase : s.phase = .parsing)
      (hparse : s.parser.parseMessage = (.ok (some m), p)) :
      LoopMove s .parse { s with parser := p } [.parsed m]
  | noticed {m : EslMessage} {p : EslParser} {uuid body : Option Text}
      (hphase : s.phase = .parsing) (hparse : s.parser.parseMessage = (.ok (some m), p)) :
      LoopMove s .parse ({ s with parser := p }.stopEarly (.serverNotice uuid body)) [.parsed m]
  | routed {m : EslMessage} (hphase : s.phase = .routing m) : LoopMove s .route s.routeStep []
  | dispatched {act : QueueAct (Except EslError ε)} {queue : QueueState (Except EslError ε)}
      {log : List (QueueLog (Except EslError ε))} {after : AfterDispatch}
      (hphase : s.phase = .dispatching after) (hqueue : s.queue.step act = some (queue, log)) :
      LoopMove s (.dispatch act)
        { s with queue := queue, draining := s.draining || act.stops } []
  | proceeded {after : AfterDispatch} (hphase : s.phase = .dispatching after) :
      LoopMove s .resume { s with phase := .parsing } []
  | stopped {after : AfterDispatch} {alive : Bool} {cause : ReaderExit}
      (hphase : s.phase = .dispatching after) (hqueue : s.queue.phase = .returned alive)
      (hexit : after.exit alive = some cause) : LoopMove s .resume (s.stopEarly cause) []
  | stopObserved (hphase : s.phase = .reading) :
      LoopMove s .observeStop { s with draining := true, phase := .parsing } []
  | drained (hphase : s.phase = .reading) (hdraining : s.draining = true)
      (hboundary : s.parser.isWaitingForHeaders = true) :
      LoopMove s .drained ((s.sendReexec (.ok s.parser.remainingBytes)).exit .drained) []
  | fed {data : Bytes} {idleMs : Nat} (hphase : s.phase = .reading) (hdata : data ≠ [])
      (hfits : (s.parser.remainingBytes ++ data).length ≤ maxBufferSize) :
      LoopMove s (.read (.bytes data) idleMs)
        { s with parser := (s.parser.addData data).2, phase := .parsing } [.fed data]
  | idled {outcome : ReadOutcome} {idleMs : Nat} (hphase : s.phase = .reading) :
      LoopMove s (.read outcome idleMs) { s with phase := .parsing } []
  | readEnded {outcome : ReadOutcome} {idleMs : Nat} {p : EslParser} {cause : ReaderExit}
      (hphase : s.phase = .reading) (hrunning : s.draining = false)
      (hverdict : Client.drainVerdict .running s.queue.shared.livenessTimeoutMs cause = some none)
      (hreason : cause.reason ≠ none) :
      LoopMove s (.read outcome idleMs) ({ s with parser := p }.exit cause) []
  | drainFailed {outcome : ReadOutcome} {idleMs : Nat} {p : EslParser} {e : EslError}
      (hphase : s.phase = .reading) (hdraining : s.draining = true)
      (hstarved : ¬ s.Supplies outcome) :
      LoopMove s (.read outcome idleMs) ({ s with parser := p }.failDrain e) []
  | panicked (hphase : s.phase.looping = true) : LoopMove s .panic (s.exit .panicked) []
  | published {cause : ReaderExit} (hphase : s.phase = .returned cause) :
      LoopMove s .publish (s.publishStep cause) []
  | pendingFailed {cause : ReaderExit} (hphase : s.phase = .published cause) :
      LoopMove s .failPending { s with
        queue.shared.pendingReply := s.queue.shared.pendingReply.fail
        phase := .failed cause } []
  | finished {cause : ReaderExit} (hphase : s.phase = .failed cause) :
      LoopMove s .finish { s with phase := .ended cause } []
  | other {act : OtherAct} {next : Reader ε} (hother : s.otherStep act = some next) :
      LoopMove s (.other act) next []

theorem startDispatch_eq_some {s next : Reader ε} {act : QueueAct (Except EslError ε)}
    {after : AfterDispatch} (h : s.startDispatch act after = some next) :
    ∃ queue log, s.queue.step act = some (queue, log) ∧
      next = { s with queue := queue, phase := .dispatching after } := by
  obtain ⟨⟨queue, log⟩, hqueue, rfl⟩ := Option.map_eq_some_iff.mp h
  exact ⟨queue, log, hqueue, rfl⟩

/-- What one parsed message makes the loop do. -/
theorem dispatchMessage_cases {s next : Reader ε} {message : EslMessage}
    (h : s.dispatchMessage parseEvent message = some next) :
    (∃ act after queue log, s.queue.step act = some (queue, log) ∧
        next = { s with queue := queue, phase := .dispatching after }) ∨
      next = { s with phase := .routing message } ∨ next = { s with phase := .parsing } ∨
      ∃ uuid body, next = s.stopEarly (.serverNotice uuid body) := by
  unfold dispatchMessage at h
  split at h
  · left
    unfold dispatchParsedEvent at h
    split at h
    · obtain ⟨queue, log, hqueue, rfl⟩ := startDispatch_eq_some h
      exact ⟨_, _, queue, log, hqueue, rfl⟩
    · obtain ⟨queue, log, hqueue, rfl⟩ := startDispatch_eq_some h
      exact ⟨_, _, queue, log, hqueue, rfl⟩
  · exact Or.inr (Or.inl (Option.some.inj h).symm)
  · exact Or.inr (Or.inl (Option.some.inj h).symm)
  · split at h
    · exact Or.inr (Or.inr (Or.inl (Option.some.inj h).symm))
    · exact Or.inr (Or.inr (Or.inr ⟨_, _, (Option.some.inj h).symm⟩))
  · obtain ⟨queue, log, hqueue, rfl⟩ := startDispatch_eq_some h
    exact Or.inl ⟨_, _, queue, log, hqueue, rfl⟩
  · obtain ⟨queue, log, hqueue, rfl⟩ := startDispatch_eq_some h
    exact Or.inl ⟨_, _, queue, log, hqueue, rfl⟩

theorem parseStep_move {s next : Reader ε} {log : List LoopLog} (hphase : s.phase = .parsing)
    (h : s.parseStep parseEvent = some (next, log)) : LoopMove s .parse next log := by
  unfold parseStep at h
  split at h
  · rename_i e p hparse
    obtain ⟨rfl, rfl⟩ := Prod.mk.inj (Option.some.inj h)
    exact .parseFailed hphase hparse
  · rename_i p hparse
    obtain ⟨rfl, rfl⟩ := Prod.mk.inj (Option.some.inj h)
    exact .starved hphase hparse
  · rename_i m p hparse
    obtain ⟨dispatched, hdispatch, heq⟩ := Option.map_eq_some_iff.mp h
    obtain ⟨rfl, rfl⟩ := Prod.mk.inj heq
    rcases dispatchMessage_cases parseEvent hdispatch with
      ⟨act, after, queue, log, hqueue, rfl⟩ | rfl | rfl | ⟨uuid, body, rfl⟩
    · exact .dispatchStarted hphase hparse hqueue
    · exact .routable hphase hparse
    · have hsame : { s with parser := p, phase := .parsing } = { s with parser := p } := by
        rw [← hphase]
      rw [hsame]
      exact .lingered hphase hparse
    · exact .noticed hphase hparse

theorem readStep_move {s : Reader ε} (outcome : ReadOutcome) (idleMs : Nat)
    (hphase : s.phase = .reading) (hrunning : s.draining = false) :
    LoopMove s (.read outcome idleMs) (s.readStep outcome idleMs).1
      (s.readStep outcome idleMs).2 := by
  unfold readStep
  rcases s.parser.readIntoParser_cases outcome with ⟨rfl, hread⟩ | ⟨message, rfl, hread⟩ |
    ⟨rfl, hread⟩ | ⟨data, size, limit, rfl, hdata, hcheck, hread⟩ |
    ⟨data, rfl, hdata, hcheck, hread⟩
  · rw [hread]
    simp only
    split
    · rename_i hexpired
      have hthreshold : s.queue.shared.livenessTimeoutMs ≠ 0 := by
        intro hzero
        simp [livenessExpired, hzero] at hexpired
      exact .readEnded hphase hrunning (by simp [Client.drainVerdict, hthreshold]) nofun
    · exact .idled hphase
  · rw [hread]
    exact .readEnded hphase hrunning (by simp [Client.drainVerdict]) nofun
  · rw [hread]
    exact .readEnded hphase hrunning (by simp [Client.drainVerdict]) nofun
  · rw [hread]
    exact .readEnded hphase hrunning (by simp [Client.drainVerdict]) nofun
  · rw [hread]
    exact .fed hphase hdata (Reference.checkSize_eq_ok.mp hcheck)

theorem drainStep_move {s : Reader ε} (outcome : ReadOutcome) (idleMs : Nat)
    (hphase : s.phase = .reading) (hdraining : s.draining = true) :
    LoopMove s (.read outcome idleMs) (s.drainStep outcome).1 (s.drainStep outcome).2 := by
  unfold drainStep
  rcases s.parser.readIntoParser_cases outcome with ⟨rfl, hread⟩ | ⟨message, rfl, hread⟩ |
    ⟨rfl, hread⟩ | ⟨data, size, limit, rfl, hdata, hcheck, hread⟩ |
    ⟨data, rfl, hdata, hcheck, hread⟩
  · rw [hread]
    refine .drainFailed hphase hdraining ?_
    rintro ⟨data, hdata, -⟩
    cases hdata
  · rw [hread]
    refine .drainFailed hphase hdraining ?_
    rintro ⟨data, hdata, -⟩
    cases hdata
  · rw [hread]
    refine .drainFailed hphase hdraining ?_
    rintro ⟨data, hdata, hne, -⟩
    cases hdata
    exact hne rfl
  · rw [hread]
    refine .drainFailed hphase hdraining ?_
    rintro ⟨other, hother, -, hfits⟩
    cases hother
    have hok := Reference.checkSize_eq_ok.mpr hfits
    cases hok.symm.trans hcheck
  · rw [hread]
    exact .fed hphase hdata (Reference.checkSize_eq_ok.mp hcheck)

/-- Everything a step can be. -/
theorem step_move {s next : Reader ε} {act : LoopAct ε} {log : List LoopLog}
    (h : s.step parseEvent act = some (next, log)) : LoopMove s act next log := by
  unfold step at h
  split at h
  · rename_i hphase
    exact parseStep_move parseEvent hphase h
  · rename_i m hphase
    obtain ⟨rfl, rfl⟩ := Prod.mk.inj (Option.some.inj h)
    exact .routed hphase
  · rename_i act after hphase
    split at h
    · obtain ⟨⟨queue, qlog⟩, hqueue, heq⟩ := Option.map_eq_some_iff.mp h
      obtain ⟨rfl, rfl⟩ := Prod.mk.inj heq
      exact .dispatched hphase hqueue
    · cases h
  · rename_i after hphase
    split at h
    · rename_i alive hqueue
      split at h
      · obtain ⟨rfl, rfl⟩ := Prod.mk.inj (Option.some.inj h)
        exact .proceeded hphase
      · rename_i cause hexit
        obtain ⟨rfl, rfl⟩ := Prod.mk.inj (Option.some.inj h)
        exact .stopped hphase hqueue hexit
    · cases h
  · rename_i hphase
    split at h
    · obtain ⟨rfl, rfl⟩ := Prod.mk.inj (Option.some.inj h)
      exact .stopObserved hphase
    · cases h
  · rename_i hphase
    split at h
    · rename_i hguard
      obtain ⟨hdraining, hboundary⟩ := Bool.and_eq_true_iff.mp hguard
      obtain ⟨rfl, rfl⟩ := Prod.mk.inj (Option.some.inj h)
      exact .drained hphase hdraining hboundary
    · cases h
  · rename_i outcome idleMs hphase
    split at h
    · rename_i hrunning
      have hmove := readStep_move outcome idleMs hphase (by simpa using hrunning)
      rw [Option.some.inj h] at hmove
      exact hmove
    · rename_i hdraining
      split at h
      · cases h
      · have hmove := drainStep_move outcome idleMs hphase (by simpa using hdraining)
        rw [Option.some.inj h] at hmove
        exact hmove
  · split at h
    · rename_i hlooping
      obtain ⟨rfl, rfl⟩ := Prod.mk.inj (Option.some.inj h)
      exact .panicked hlooping
    · cases h
  · rename_i cause hphase
    obtain ⟨rfl, rfl⟩ := Prod.mk.inj (Option.some.inj h)
    exact .published hphase
  · rename_i cause hphase
    obtain ⟨rfl, rfl⟩ := Prod.mk.inj (Option.some.inj h)
    exact .pendingFailed hphase
  · rename_i cause hphase
    obtain ⟨rfl, rfl⟩ := Prod.mk.inj (Option.some.inj h)
    exact .finished hphase
  · rename_i act _
    obtain ⟨moved, hother, heq⟩ := Option.map_eq_some_iff.mp h
    obtain ⟨rfl, rfl⟩ := Prod.mk.inj heq
    exact .other hother
  · cases h

@[simp] theorem stopEarly_phase (s : Reader ε) (cause : ReaderExit) :
    (s.stopEarly cause).phase = .returned cause := by
  unfold stopEarly
  split <;> rfl

@[simp] theorem publishStep_phase (s : Reader ε) (cause : ReaderExit) :
    (s.publishStep cause).phase = .published cause := by
  unfold publishStep
  split <;> rfl

/-- The other parties leave everything but the shared state as it is. -/
theorem otherStep_frame {s next : Reader ε} {act : OtherAct} (h : s.otherStep act = some next) :
    next.parser = s.parser ∧ next.phase = s.phase ∧ next.draining = s.draining ∧
      next.reexecResult = s.reexecResult := by
  cases act with
  | recv =>
      obtain ⟨queue, -, rfl⟩ := Option.map_eq_some_iff.mp h
      exact ⟨rfl, rfl, rfl, rfl⟩
  | close =>
      obtain rfl := Option.some.inj h
      exact ⟨rfl, rfl, rfl, rfl⟩
  | install id =>
      simp only [otherStep] at h
      split at h
      · obtain rfl := Option.some.inj h
        exact ⟨rfl, rfl, rfl, rfl⟩
      · obtain rfl := Option.some.inj h
        exact ⟨rfl, rfl, rfl, rfl⟩
  | expire =>
      obtain ⟨pending, -, rfl⟩ := Option.map_eq_some_iff.mp h
      exact ⟨rfl, rfl, rfl, rfl⟩
  | clearWaiting =>
      obtain rfl := Option.some.inj h
      exact ⟨rfl, rfl, rfl, rfl⟩
  | publish reason =>
      obtain rfl := Option.some.inj h
      exact ⟨rfl, rfl, rfl, rfl⟩
  | setLivenessTimeout timeoutMs =>
      obtain rfl := Option.some.inj h
      exact ⟨rfl, rfl, rfl, rfl⟩
  | signalStop =>
      obtain rfl := Option.some.inj h
      exact ⟨rfl, rfl, rfl, rfl⟩

/-! ## The exits of the client model -/

/-- How the loop shows in `Client`. -/
def clientPhase (s : Reader ε) : ReaderPhase := if s.draining then .draining else .running

/-- What went to the teardown caller, without the residual bytes. -/
def drainResult (s : Reader ε) : Option (Except EslError Unit) :=
  s.reexecResult.map (·.map fun _ => ())

theorem stopEarly_verdict {s : Reader ε} {cause : ReaderExit} (timeoutMs : Nat)
    (hnothing : s.reexecResult = none)
    (hcause : ∀ phase, Client.drainVerdict phase timeoutMs cause =
      some (Client.drainVerdict.stoppedEarly phase)) :
    Client.drainVerdict s.clientPhase timeoutMs cause = some (s.stopEarly cause).drainResult := by
  rw [hcause]
  cases hdraining : s.draining with
  | false =>
      simp [clientPhase, stopEarly, hdraining, Client.drainVerdict.stoppedEarly, drainResult, exit,
        hnothing]
  | true =>
      simp [clientPhase, stopEarly, hdraining, Client.drainVerdict.stoppedEarly, drainResult, exit,
        sendReexec, hnothing, Except.map]

/-- The loop returns only where, and telling the teardown only what, the client model says. -/
theorem step_exit {s next : Reader ε} {act : LoopAct ε} {log : List LoopLog} {cause : ReaderExit}
    (hlooping : s.phase.looping = true) (hnothing : s.reexecResult = none)
    (h : s.step parseEvent act = some (next, log)) (hreturned : next.phase = .returned cause) :
    Client.drainVerdict s.clientPhase s.queue.shared.livenessTimeoutMs cause =
      some next.drainResult := by
  cases step_move parseEvent h with
  | parseFailed =>
      cases hreturned
      simp [Client.drainVerdict, drainResult, exit, hnothing]
  | starved => cases hreturned
  | dispatchStarted => cases hreturned
  | routable => cases hreturned
  | lingered hphase =>
      have hreading : s.phase = .returned cause := hreturned
      rw [hreading] at hphase
      cases hphase
  | @noticed m p uuid body =>
      have hcause := LoopPhase.returned.inj ((stopEarly_phase _ _).symm.trans hreturned)
      subst hcause
      have hverdict := @stopEarly_verdict ε { s with parser := p } (.serverNotice uuid body)
        s.queue.shared.livenessTimeoutMs hnothing fun _ => rfl
      exact hverdict
  | routed => cases hreturned
  | dispatched hphase =>
      have hdispatching : s.phase = .returned cause := hreturned
      rw [hdispatching] at hphase
      cases hphase
  | proceeded => cases hreturned
  | @stopped after alive cause' hphase hqueue hexit =>
      have hcause := LoopPhase.returned.inj ((stopEarly_phase _ _).symm.trans hreturned)
      subst hcause
      refine stopEarly_verdict _ hnothing fun phase => ?_
      cases after with
      | proceed =>
          cases alive with
          | true => cases hexit
          | false =>
              cases hexit
              rfl
      | denied reason =>
          cases hexit
          rfl
      | desynced reason =>
          cases hexit
          rfl
  | stopObserved => cases hreturned
  | drained hphase hdraining =>
      cases hreturned
      simp [Client.drainVerdict, clientPhase, hdraining, drainResult, exit, sendReexec, hnothing,
        Except.map]
  | fed => cases hreturned
  | idled => cases hreturned
  | readEnded hphase hrunning hverdict =>
      cases hreturned
      rw [clientPhase, hrunning]
      simpa [drainResult, exit, hnothing] using hverdict
  | drainFailed hphase hdraining =>
      cases hreturned
      simp [Client.drainVerdict, clientPhase, hdraining, drainResult, failDrain, exit, sendReexec,
        hnothing, Except.map]
  | panicked =>
      cases hreturned
      simp [Client.drainVerdict, drainResult, exit, hnothing]
  | published =>
      rw [publishStep_phase] at hreturned
      cases hreturned
  | pendingFailed => cases hreturned
  | finished => cases hreturned
  | other hother =>
      rw [(otherStep_frame hother).2.1] at hreturned
      rw [hreturned] at hlooping
      cases hlooping

end Reader
end EslTokio
