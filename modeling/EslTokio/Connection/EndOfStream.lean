import EslTokio.Connection.Reader

/-!
# The end of the event stream

When the reader task is over, its sender is dropped and `recv` yields `None` once the queue is
empty.  A consumer that sees this and still holds the receiver has to find the disconnect status
published, and no command may wait for a reader that is gone.

* `Announced` — this, of one state.
* `Closing` — the invariant of the exit sequence that leads there.
* **`end_of_stream_announced`** — it holds in every run whose drains get the bytes they wait for.
* `drain_eof_unannounced` — a drain that meets the end of the stream leaves the status connected.
-/

namespace EslTokio

open Library

/-- Why the loop returned, if it has. -/
def LoopPhase.cause : LoopPhase → Option ReaderExit
  | .returned cause => some cause
  | .published cause => some cause
  | .failed cause => some cause
  | .ended cause => some cause
  | _ => none

/-- The reason has been published, if there is one. -/
def LoopPhase.pastPublish : LoopPhase → Bool
  | .published _ => true
  | .failed _ => true
  | .ended _ => true
  | _ => false

/-- `fail_pending_reply` has run. -/
def LoopPhase.pastFail : LoopPhase → Bool
  | .failed _ => true
  | .ended _ => true
  | _ => false

/-- The sender of the event channel is dropped. -/
def LoopPhase.closed : LoopPhase → Bool
  | .ended _ => true
  | _ => false

theorem LoopPhase.not_past_of_looping {phase : LoopPhase} (h : phase.looping = true) :
    phase.cause = none ∧ phase.pastPublish = false ∧ phase.pastFail = false := by
  cases phase with
  | parsing => exact ⟨rfl, rfl, rfl⟩
  | routing message => exact ⟨rfl, rfl, rfl⟩
  | dispatching after => exact ⟨rfl, rfl, rfl⟩
  | reading => exact ⟨rfl, rfl, rfl⟩
  | _ => cases h

namespace Reader

variable {ε : Type}

/-- If the event channel is closed under a consumer that still holds the receiver, the status is
published, and no command waits or can come to wait. -/
def Announced (s : Reader ε) : Prop :=
  s.phase.closed = true → s.queue.channel.receiverOpen = true →
    (∃ reason, s.queue.shared.status = .disconnected reason) ∧
      s.queue.shared.pendingReply.readerDead = true ∧
      s.queue.shared.pendingReply.waiting = none

/-- While the loop drains, every read brings the bytes it waits for. -/
def DrainSupplied (s : Reader ε) : LoopAct ε → Prop
  | .read outcome _ => s.draining = true → s.Supplies outcome
  | _ => True

/-- The reply slot of a reader that is gone. -/
structure SlotClosed (pending : PendingReply) : Prop where
  dead : pending.readerDead = true
  waiting : pending.waiting = none

/-- The invariant of the exit sequence. -/
structure Closing (s : Reader ε) : Prop where
  truthful : s.queue.Truthful
  -- only an exit on a closed channel has no reason
  reason : ∀ cause, s.phase.cause = some cause → s.queue.channel.receiverOpen = true →
    cause.reason ≠ none
  status : s.phase.pastPublish = true → s.queue.channel.receiverOpen = true →
    ∃ reason, s.queue.shared.status = .disconnected reason
  slot : s.phase.pastFail = true → SlotClosed s.queue.shared.pendingReply

theorem spawn_closing (p : EslParser) (eventQueueSize : Nat) (overflow : EventOverflow) :
    (spawn p eventQueueSize overflow : Reader ε).Closing :=
  ⟨nofun, nofun, nofun, nofun⟩

theorem Closing.announced {s : Reader ε} (h : s.Closing) : s.Announced := by
  intro hclosed hopen
  have hphase : s.phase.pastPublish = true ∧ s.phase.pastFail = true := by
    cases hover : s.phase with
    | ended cause => exact ⟨rfl, rfl⟩
    | _ =>
        rw [hover] at hclosed
        cases hclosed
  have hslot := h.slot hphase.2
  exact ⟨h.status hphase.1 hopen, hslot.dead, hslot.waiting⟩

variable {s next : Reader ε}

/-- While the loop runs only the queue matters. -/
theorem Closing.of_looping (htruthful : next.queue.Truthful)
    (hlooping : next.phase.looping = true) : next.Closing := by
  obtain ⟨hcause, hpublish, hfail⟩ := LoopPhase.not_past_of_looping hlooping
  refine ⟨htruthful, ?_, ?_, ?_⟩
  · rw [hcause]
    exact nofun
  · rw [hpublish]
    exact nofun
  · rw [hfail]
    exact nofun

/-- The loop returns, with a reason unless the receiver is gone. -/
theorem Closing.of_exit {cause : ReaderExit} (htruthful : next.queue.Truthful)
    (hphase : next.phase = .returned cause)
    (hreason : next.queue.channel.receiverOpen = true → cause.reason ≠ none) : next.Closing where
  truthful := htruthful
  reason other hother hopen := by
    rw [hphase] at hother
    cases hother
    exact hreason hopen
  status hpast := by
    rw [hphase] at hpast
    cases hpast
  slot hpast := by
    rw [hphase] at hpast
    cases hpast

/-- A piece of a dispatch or of a receive: it never reopens the channel, and it touches neither the
status nor the slot. -/
theorem Closing.of_queue {queueAct : QueueAct (Except EslError ε)}
    {queue : QueueState (Except EslError ε)} {log : List (QueueLog (Except EslError ε))}
    (h : s.Closing) (hstep : s.queue.step queueAct = some (queue, log)) :
    ({ s with queue := queue } : Reader ε).Closing := by
  have hopen : queue.channel.receiverOpen = true → s.queue.channel.receiverOpen = true := by
    intro hafter
    by_contra hclosed
    have hstill := QueueState.step_of_closed (by simpa using hclosed) hstep
    cases hafter.symm.trans hstill
  obtain ⟨hstatus, hpending⟩ := QueueState.step_shared hstep
  refine ⟨QueueState.step_truthful h.truthful hstep, ?_, ?_, ?_⟩
  · intro cause hcause hafter
    exact h.reason cause hcause (hopen hafter)
  · intro hpast hafter
    show ∃ reason, queue.shared.status = .disconnected reason
    rw [hstatus]
    exact h.status hpast (hopen hafter)
  · intro hpast
    show SlotClosed queue.shared.pendingReply
    rw [hpending]
    exact h.slot hpast

/-- Another party moves: it takes no status back and fills no slot of a reader that is gone. -/
theorem otherStep_closing {act : OtherAct} (h : s.Closing) (hother : s.otherStep act = some next) :
    next.Closing := by
  cases act with
  | recv =>
      obtain ⟨⟨queue, log⟩, hstep, rfl⟩ := Option.map_eq_some_iff.mp hother
      exact h.of_queue hstep
  | close =>
      have hclose : s.queue.step .close =
          some ({ s.queue with channel := s.queue.channel.close }, []) := rfl
      obtain rfl := Option.some.inj hother
      exact h.of_queue hclose
  | install id =>
      simp only [otherStep] at hother
      unfold PendingReply.install at hother
      split at hother
      · rename_i hinstall
        obtain rfl := Option.some.inj hother
        exact h
      · rename_i pending hinstall
        obtain rfl := Option.some.inj hother
        refine ⟨h.truthful, h.reason, h.status, fun hpast => ?_⟩
        have hdead := (h.slot hpast).dead
        rw [if_pos hdead] at hinstall
        cases hinstall
  | clearWaiting =>
      obtain rfl := Option.some.inj hother
      exact ⟨h.truthful, h.reason, h.status, fun hpast => ⟨(h.slot hpast).dead, rfl⟩⟩
  | expire =>
      obtain ⟨pending, hexpire, rfl⟩ := Option.map_eq_some_iff.mp hother
      refine ⟨h.truthful, h.reason, h.status, fun hpast => ?_⟩
      have hslot := h.slot hpast
      unfold PendingReply.expire at hexpire
      rw [hslot.waiting] at hexpire
      obtain rfl := Option.some.inj hexpire
      exact hslot
  | publish reason =>
      obtain rfl := Option.some.inj hother
      exact ⟨h.truthful, h.reason, fun _ _ => ⟨reason, rfl⟩, h.slot⟩
  | setLivenessTimeout timeoutMs =>
      obtain rfl := Option.some.inj hother
      exact ⟨h.truthful, h.reason, h.status, h.slot⟩
  | signalStop =>
      obtain rfl := Option.some.inj hother
      exact ⟨h.truthful, h.reason, h.status, h.slot⟩

@[simp] theorem stopEarly_queue (s : Reader ε) (cause : ReaderExit) :
    (s.stopEarly cause).queue = s.queue := by
  unfold stopEarly
  split <;> rfl

variable (parseEvent : Bool → EslMessage → EventFormat → Except EslError ε)

/-- One step keeps the exit sequence in order. -/
theorem step_closing {act : LoopAct ε} {outputs : List LoopLog} (h : s.Closing)
    (hguard : s.DrainSupplied act) (hstep : s.step parseEvent act = some (next, outputs)) :
    next.Closing := by
  cases step_move parseEvent hstep with
  | parseFailed => exact .of_exit h.truthful rfl fun _ => nofun
  | starved => exact .of_looping h.truthful rfl
  | dispatchStarted _ _ hqueue => exact .of_looping (QueueState.step_truthful h.truthful hqueue) rfl
  | routable => exact .of_looping h.truthful rfl
  | lingered hphase => exact .of_looping h.truthful (by rw [hphase]; rfl)
  | noticed =>
      refine .of_exit ?_ (stopEarly_phase _ _) fun _ => nofun
      rw [stopEarly_queue]
      exact h.truthful
  | routed => exact .of_looping h.truthful rfl
  | dispatched hphase hqueue =>
      exact .of_looping (QueueState.step_truthful h.truthful hqueue) (by rw [hphase]; rfl)
  | proceeded => exact .of_looping h.truthful rfl
  | @stopped after alive cause hphase hqueue hexit =>
      refine .of_exit ?_ (stopEarly_phase s cause) fun hopen => ?_
      · rw [stopEarly_queue]
        exact h.truthful
      · rw [stopEarly_queue] at hopen
        cases after with
        | denied reason =>
            cases hexit
            exact nofun
        | desynced reason =>
            cases hexit
            exact nofun
        | proceed =>
            cases alive with
            | true => cases hexit
            | false =>
                -- The dispatch returned `false`, so the receiver is gone.
                rw [h.truthful hqueue] at hopen
                cases hopen
  | stopObserved => exact .of_looping h.truthful rfl
  | drained => exact .of_exit h.truthful rfl fun _ => nofun
  | fed => exact .of_looping h.truthful rfl
  | idled => exact .of_looping h.truthful rfl
  | readEnded _ _ _ hreason => exact .of_exit h.truthful rfl fun _ => hreason
  | drainFailed _ hdraining hstarved => exact absurd (hguard hdraining) hstarved
  | panicked => exact .of_exit h.truthful rfl fun _ => nofun
  | @published cause hphase =>
      have hcause : s.phase.cause = some cause := by rw [hphase]; rfl
      unfold publishStep
      cases hreason : cause.reason with
      | none =>
          refine ⟨h.truthful, ?_, ?_, nofun⟩
          · intro other hother
            cases hother
            exact h.reason cause hcause
          · intro _ hopen
            exact absurd hreason (h.reason cause hcause hopen)
      | some reason =>
          refine ⟨h.truthful, ?_, fun _ _ => ⟨reason, rfl⟩, nofun⟩
          intro other hother
          cases hother
          exact h.reason cause hcause
  | @pendingFailed cause hphase =>
      have hcause : s.phase.cause = some cause := by rw [hphase]; rfl
      refine ⟨h.truthful, ?_, fun _ => h.status (by rw [hphase]; rfl), fun _ => ⟨rfl, rfl⟩⟩
      intro other hother
      cases hother
      exact h.reason cause hcause
  | @finished cause hphase =>
      have hcause : s.phase.cause = some cause := by rw [hphase]; rfl
      refine ⟨h.truthful, ?_, fun _ => h.status (by rw [hphase]; rfl),
        fun _ => h.slot (by rw [hphase]; rfl)⟩
      intro other hother
      cases hother
      exact h.reason cause hcause
  | other hother => exact otherStep_closing h hother

/-- **The end of the stream is announced.**  In every run whose drains get the bytes they wait for,
whatever makes the loop return: once the event channel is closed under a consumer that holds the
receiver, the disconnect is published and no command waits for the reader. -/
theorem end_of_stream_announced {p : EslParser} {eventQueueSize : Nat} {overflow : EventOverflow}
    {acts : List (LoopAct ε)} {final : Reader ε} {log : List LoopLog}
    (hguard : Along (step parseEvent) DrainSupplied (spawn p eventQueueSize overflow) acts)
    (hrun : run (step parseEvent) (spawn p eventQueueSize overflow) acts = some (final, log)) :
    final.Announced := by
  refine Closing.announced (run_invariant ?_ (spawn_closing p eventQueueSize overflow) hguard hrun)
  intro s act next outputs hclosing hsupplied hstep
  exact step_closing parseEvent hclosing hsupplied hstep

/-- The server closes the connection. -/
def closedByServer : List (LoopAct Unit) :=
  [.parse, .read (.bytes []) 0, .publish, .failPending, .finish]

theorem end_of_stream_announced_closedByServer :
    ∃ final log, run (step fun _ _ _ => .ok ()) (spawn (.new false) 1 .dropIncoming)
        closedByServer = some (final, log) ∧
      final.phase.closed = true ∧ final.queue.channel.receiverOpen = true ∧ final.Announced := by
  obtain ⟨final, log, hrun, hclosed, hopen⟩ : ∃ final log,
      run (step fun _ _ _ => .ok ()) (spawn (.new false) 1 .dropIncoming) closedByServer =
        some (final, log) ∧
      final.phase.closed = true ∧ final.queue.channel.receiverOpen = true :=
    ⟨_, _, rfl, rfl, rfl⟩
  have hguard : Along (step fun _ _ _ => .ok ()) DrainSupplied
      (spawn (.new false) 1 .dropIncoming) closedByServer :=
    .cons trivial rfl (.cons nofun rfl (.cons trivial rfl (.cons trivial rfl
      (.cons trivial rfl trivial))))
  exact ⟨final, log, hrun, hclosed, hopen, end_of_stream_announced _ hguard hrun⟩

/-- The stop signal comes inside a body, and then the server closes the connection. -/
def closedInDrain : List (LoopAct Unit) :=
  [.parse, .read (.bytes (Utf8.encode
      "Content-Type: api/response\nContent-Length: 4\n\n+O".toList)) 0,
    .parse, .other .signalStop, .observeStop, .parse, .read (.bytes []) 0, .publish, .failPending,
    .finish]

/-- The drain fails without a reason to publish, and the consumer finds a connection that is over
but still connected. -/
theorem drain_eof_unannounced :
    ∃ final log, run (step fun _ _ _ => .ok ()) (spawn (.new false) 1 .dropIncoming)
        closedInDrain = some (final, log) ∧
      final.phase.closed = true ∧ final.queue.channel.receiverOpen = true ∧
      final.queue.shared.status = .connected ∧ ¬ final.Announced := by
  have hresult : (run (step fun _ _ _ => .ok ()) (spawn (.new false) 1 .dropIncoming)
      closedInDrain).map (fun r => (r.1.phase.closed, r.1.queue.channel.receiverOpen,
        r.1.queue.shared.status)) = some (true, true, .connected) := by
    decide +kernel
  obtain ⟨⟨final, log⟩, hrun, heq⟩ := Option.map_eq_some_iff.mp hresult
  obtain ⟨hclosed, hrest⟩ := Prod.mk.inj heq
  obtain ⟨hopen, hstatus⟩ := Prod.mk.inj hrest
  refine ⟨final, log, hrun, hclosed, hopen, hstatus, fun hannounced => ?_⟩
  obtain ⟨⟨reason, hreason⟩, -⟩ := hannounced hclosed hopen
  rw [hstatus] at hreason
  cases hreason

end Reader
end EslTokio
