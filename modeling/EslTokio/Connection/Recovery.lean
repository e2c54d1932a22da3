import EslTokio.Connection.Ledger

/-!
# Recovery of the event queue after an overflow

A consumer that has emptied the queue expects the next event.  The armed `QueueFull` notice is
delivered first and takes a slot of its own, so a queue of a single slot has none left for the
event behind it, which is then dropped and arms the notice again.

* `QueueState.Settled` — the invariant of every reachable state used here.
* `QueueState.Enqueues` — a dispatch made now puts its event on the queue.
* **`QueueState.recovers_iff`** — exactly when it does, for an emptied queue.
-/

namespace EslTokio

open Library

namespace QueueState

variable {α : Type}

/-- Nothing but a parked call holds a reservation, and the capacity is the configured one. -/
structure Settled (eventQueueSize : Nat) (s : QueueState α) : Prop where
  capacity : s.channel.capacity = max eventQueueSize 1
  reservation : s.channel.reservation = .idle ∨ ∃ item, s.phase = .parked item

theorem Settled.idle_of_not_parked {eventQueueSize : Nat} {s : QueueState α}
    (hsettled : s.Settled eventQueueSize) (hphase : ∀ item, s.phase ≠ .parked item) :
    s.channel.reservation = .idle := by
  rcases hsettled.reservation with hidle | ⟨item, hparked⟩
  · exact hidle
  · exact absurd hparked (hphase item)

theorem new_settled (eventQueueSize : Nat) : (new eventQueueSize : QueueState α).Settled
    eventQueueSize :=
  ⟨rfl, Or.inl rfl⟩

theorem step_settled {eventQueueSize : Nat} {s next : QueueState α} {act : QueueAct α}
    {log : List (QueueLog α)} (hsettled : s.Settled eventQueueSize)
    (h : s.step act = some (next, log)) : next.Settled eventQueueSize := by
  have hcapacity := hsettled.capacity
  rcases step_cases h with ⟨item, phase, -, hidle, -, rfl, -⟩ |
    ⟨-, overflow, item, hphase, hsend, -⟩ | ⟨hact, -, rfl, -⟩ |
    ⟨signal, item, alive, -, -, hresume, -⟩ | ⟨-, entry, hrecv, -, hphase, -⟩ | ⟨-, rfl, -⟩
  · have hreservation : s.channel.reservation = .idle := by
      apply hsettled.idle_of_not_parked
      intro parked hparked
      rw [hparked] at hidle
      cases hidle
    rcases s.flushThen_cases phase with ⟨phase', hnext, -⟩ | ⟨sent, hnext, -, hextends, hsame⟩
    · rw [hnext]
      exact ⟨hcapacity, Or.inl hreservation⟩
    · rw [hnext]
      exact ⟨hextends.capacity.trans hcapacity, Or.inl (hsame.trans hreservation)⟩
  · have hreservation : s.channel.reservation = .idle := by
      apply hsettled.idle_of_not_parked
      intro parked hparked
      rcases hphase with hphase | ⟨-, hphase⟩ <;> rw [hparked] at hphase <;> cases hphase
    obtain ⟨channel, shared, phase⟩ := next
    rcases sendOrPark_cases overflow s.channel s.shared item with
      ⟨sent, hcase, hextends, hsame⟩ | ⟨-, -, hcase⟩ | ⟨-, -, hcase⟩ | ⟨-, hcase⟩
    · rw [hcase] at hsend
      obtain ⟨rfl, rfl, rfl⟩ := by simpa using hsend
      exact ⟨hextends.capacity.trans hcapacity, Or.inl (hsame.trans hreservation)⟩
    all_goals
      rw [hcase] at hsend
      obtain ⟨rfl, rfl, rfl⟩ := by simpa using hsend
      exact ⟨hcapacity, Or.inl hreservation⟩
  · have hparked : ∃ item, s.phase = .parked item := by
      subst hact
      simp only [step] at h
      split at h
      · exact ⟨_, by assumption⟩
      · cases h
    exact ⟨s.channel.reserve_extends.capacity.trans hcapacity, Or.inr hparked⟩
  · obtain ⟨hidle, ⟨hextends, -⟩ | ⟨hextends, -⟩ | ⟨hextends, -⟩⟩ :=
      resumeDispatch_cases hresume <;>
      exact ⟨hextends.capacity.trans hcapacity, Or.inl hidle⟩
  · obtain ⟨-, -, -, hsame, hidle⟩ := EventChannel.recv_eq_some hrecv
    refine ⟨hsame.trans hcapacity, ?_⟩
    rw [hphase]
    exact hsettled.reservation.imp_left hidle
  · exact ⟨hcapacity, hsettled.reservation⟩

/-- Every reachable state is settled. -/
theorem run_settled {eventQueueSize : Nat} {s : QueueState α} {history : List (QueueAct α)}
    {log : List (QueueLog α)} (hrun : run step (new eventQueueSize) history = some (s, log)) :
    s.Settled eventQueueSize :=
  run_invariant (fun _ _ _ _ hsettled _ hstep => step_settled hsettled hstep)
    (new_settled eventQueueSize) (along_of_forall_mem fun _ _ => trivial) hrun

/-! ## A call on an emptied queue -/

/-- Steps that finish a call: neither another call nor the consumer leaving. -/
def Finishing (rest : List (QueueAct α)) : Prop :=
  ∀ act ∈ rest, act.item? = none ∧ act ≠ .close

/-- A call made now puts its event on the queue: it can return, and however it returns the event
went out, after at most one notice, with nothing dropped. -/
def Enqueues (s : QueueState α) (overflow : EventOverflow) (item : α) : Prop :=
  (∃ rest final log alive, Finishing rest ∧
      run step s (.dispatchEvent overflow item :: rest) = some (final, log) ∧
      final.phase = .returned alive) ∧
    ∀ rest final log alive, Finishing rest →
      run step s (.dispatchEvent overflow item :: rest) = some (final, log) →
      final.phase = .returned alive →
      (log.filterMap QueueLog.enqueued? = [.item item] ∨
          log.filterMap QueueLog.enqueued? = [.queueFull, .item item]) ∧
        log.filterMap QueueLog.dropped? = []

/-- What is left to a call is a receive, unless it is the call itself that goes on. -/
theorem step_finishing {s next : QueueState α} {act : QueueAct α} {log : List (QueueLog α)}
    (hact : act.item? = none ∧ act ≠ .close) (h : s.step act = some (next, log)) :
    (∃ entry, s.channel.recv = some (entry, next.channel) ∧ next.phase = s.phase ∧
        log = [.received entry]) ∨
      (act = .trySend ∧ ∀ alive, s.phase ≠ .returned alive) ∨ ∃ item, s.phase = .parked item := by
  rcases step_cases h with ⟨item, phase, hitem, -⟩ | ⟨rfl, overflow, item, hphase, -⟩ |
    ⟨rfl, -⟩ | ⟨signal, item, alive, -, hphase, -⟩ | ⟨-, entry, hrecv, -, hphase, rfl⟩ |
    ⟨rfl, -⟩
  · rw [hact.1] at hitem
    cases hitem
  · refine Or.inr (Or.inl ⟨rfl, ?_⟩)
    intro alive hreturned
    rcases hphase with hphase | ⟨-, hphase⟩ <;> rw [hreturned] at hphase <;> cases hphase
  · simp only [step] at h
    split at h
    · exact Or.inr (Or.inr ⟨_, by assumption⟩)
    · cases h
  · exact Or.inr (Or.inr ⟨item, hphase⟩)
  · exact Or.inl ⟨entry, hrecv, hphase, rfl⟩
  · exact absurd rfl hact.2

/-- After a call returned, only the consumer moves until the next one. -/
theorem run_of_returned {s final : QueueState α} {rest : List (QueueAct α)}
    {log : List (QueueLog α)} {alive : Bool} (hreturned : s.phase = .returned alive)
    (hrest : Finishing rest) (hrun : run step s rest = some (final, log)) :
    log.filterMap QueueLog.enqueued? = [] ∧ log.filterMap QueueLog.dropped? = [] := by
  induction rest generalizing s log with
  | nil =>
      obtain ⟨rfl, rfl⟩ : s = final ∧ [] = log := by simpa [run] using hrun
      exact ⟨rfl, rfl⟩
  | cons act rest ih =>
      obtain ⟨next, outputs, later, hstep, hlater, rfl⟩ := run_cons_eq_some hrun
      rcases step_finishing (hrest act (by simp)) hstep with
        ⟨entry, -, hphase, rfl⟩ | ⟨-, hphase⟩ | ⟨item, hphase⟩
      · have hnext : next.phase = .returned alive := hphase.trans hreturned
        have hrest' : Finishing rest := fun later hmem => hrest later (by simp [hmem])
        obtain ⟨henqueued, hdropped⟩ := ih hnext hrest' hlater
        exact ⟨henqueued, hdropped⟩
      · exact absurd hreturned (hphase alive)
      · rw [hreturned] at hphase
        cases hphase

/-- A call past its flush that finds a free slot. -/
structure Sending (overflow : EventOverflow) (item : α) (s : QueueState α) : Prop where
  phase : s.phase = .flushed overflow item
  receiverOpen : s.channel.receiverOpen = true
  reservation : s.channel.reservation = .idle
  room : s.channel.queue.length < s.channel.capacity

/-- Its `try_send` sends the event. -/
theorem Sending.trySend {overflow : EventOverflow} {item : α} {s next : QueueState α}
    {log : List (QueueLog α)} (hsending : s.Sending overflow item)
    (h : s.step .trySend = some (next, log)) :
    next.phase = .returned true ∧ log = [.sent item] := by
  have hnotFull : s.channel.capacity ≠
      s.channel.queue.length + s.channel.reservation.slots := by
    have hroom := hsending.room
    rw [hsending.reservation]
    simp only [Reservation.slots]
    omega
  simp only [step, hsending.phase] at h
  rcases sendOrPark_cases overflow s.channel s.shared item with
    ⟨sent, hcase, hextends, -⟩ | ⟨hfull, -⟩ | ⟨hfull, -⟩ | ⟨hclosed, -⟩
  · rw [hcase] at h
    obtain ⟨rfl, rfl⟩ := by simpa using h
    have heffects : s.effects ⟨sent, s.shared, .returned true⟩ item = [.sent item] :=
      effects_of_append item [.item item] hextends.queue rfl
    exact ⟨rfl, heffects⟩
  · exact absurd hfull hnotFull
  · exact absurd hfull hnotFull
  · rw [hsending.receiverOpen] at hclosed
    cases hclosed

/-- Whatever the consumer takes in the meantime, such a call sends its event. -/
theorem Sending.run {overflow : EventOverflow} {item : α} {s final : QueueState α}
    {rest : List (QueueAct α)} {log : List (QueueLog α)} {alive : Bool}
    (hsending : s.Sending overflow item) (hrest : Finishing rest)
    (hrun : Library.run step s rest = some (final, log))
    (hreturned : final.phase = .returned alive) :
    log.filterMap QueueLog.enqueued? = [.item item] ∧ log.filterMap QueueLog.dropped? = [] := by
  induction rest generalizing s log with
  | nil =>
      obtain ⟨rfl, rfl⟩ : s = final ∧ [] = log := by simpa [Library.run] using hrun
      rw [hsending.phase] at hreturned
      cases hreturned
  | cons act rest ih =>
      obtain ⟨next, outputs, later, hstep, hlater, rfl⟩ := run_cons_eq_some hrun
      have hrest' : Finishing rest := fun later hmem => hrest later (by simp [hmem])
      rcases step_finishing (hrest act (by simp)) hstep with
        ⟨entry, hrecv, hphase, rfl⟩ | ⟨rfl, -⟩ | ⟨parked, hphase⟩
      · -- A receive frees a slot, so the call stays in `Sending`.
        obtain ⟨-, hqueue, hopen, hcapacity, hidle⟩ := EventChannel.recv_eq_some hrecv
        have hroom : next.channel.queue.length < next.channel.capacity := by
          have hbefore := hsending.room
          rw [hqueue, List.length_cons] at hbefore
          omega
        have hnext : next.Sending overflow item :=
          ⟨hphase.trans hsending.phase, hopen, hidle hsending.reservation, hroom⟩
        obtain ⟨henqueued, hdropped⟩ := ih hnext hrest' hlater
        exact ⟨henqueued, hdropped⟩
      · obtain ⟨hnext, rfl⟩ := hsending.trySend hstep
        obtain ⟨henqueued, hdropped⟩ := run_of_returned hnext hrest' hlater
        rw [List.filterMap_append, List.filterMap_append, henqueued, hdropped]
        exact ⟨rfl, rfl⟩
      · rw [hsending.phase] at hphase
        cases hphase

/-- The start of a call on an emptied queue that has a slot to spare for the notice. -/
theorem sending_of_empty {eventQueueSize : Nat} {s : QueueState α} {alive : Bool}
    (hsettled : s.Settled eventQueueSize) (hopen : s.channel.receiverOpen = true)
    (hidle : s.phase = .returned alive) (hempty : s.channel.queue = [])
    (hspare : 2 ≤ eventQueueSize ∨ s.shared.queueFullNoticeArmed = false)
    (overflow : EventOverflow) (item : α) :
    ∃ next log, s.step (.dispatchEvent overflow item) = some (next, log) ∧
      next.Sending overflow item ∧ log.filterMap QueueLog.dropped? = [] ∧
      (log.filterMap QueueLog.enqueued? = [] ∨
        log.filterMap QueueLog.enqueued? = [.queueFull]) := by
  have hreservation : s.channel.reservation = .idle := by
    apply hsettled.idle_of_not_parked
    intro parked hparked
    rw [hidle] at hparked
    cases hparked
  have hcapacity := hsettled.capacity
  have hstep : s.step (.dispatchEvent overflow item) =
      some (s.flushThen (.flushed overflow item), .dispatched item ::
        s.effects (s.flushThen (.flushed overflow item)) item) := by
    simp only [step, hidle]
  refine ⟨_, _, hstep, ?_⟩
  rcases s.flushThen_cases (.flushed overflow item) with
    ⟨phase, hnext, hphase⟩ | ⟨sent, hnext, harmed, hextends, hsame⟩
  · obtain ⟨rfl, -⟩ := hphase hopen
    have heffects : s.effects ⟨s.channel, s.shared, .flushed overflow item⟩ item = [] :=
      effects_of_append item [] (by simp) rfl
    have hroom : s.channel.queue.length < s.channel.capacity := by
      rw [hempty]
      exact s.channel.capacity_pos
    rw [hnext, heffects]
    exact ⟨⟨rfl, hopen, hreservation, hroom⟩, rfl, Or.inl rfl⟩
  · have heffects : s.effects ⟨sent, { s.shared with queueFullNoticeArmed := false },
        .flushed overflow item⟩ item = [.notice] :=
      effects_of_append item [.queueFull] hextends.queue rfl
    have hroom : sent.queue.length < sent.capacity := by
      have hsize : 2 ≤ eventQueueSize := by
        rcases hspare with hsize | hdisarmed
        · exact hsize
        · rw [hdisarmed] at harmed
          cases harmed
      rw [hextends.queue, hextends.capacity, hempty]
      simp only [List.nil_append, List.length_singleton]
      omega
    rw [hnext, heffects]
    exact ⟨⟨rfl, hextends.receiverOpen.trans hopen, hsame.trans hreservation, hroom⟩, rfl,
      Or.inr rfl⟩

/-- With a single slot, an armed notice takes it and the event behind it finds none. -/
theorem full_of_armed {eventQueueSize : Nat} {s : QueueState α} {alive : Bool}
    (hsettled : s.Settled eventQueueSize) (hopen : s.channel.receiverOpen = true)
    (hidle : s.phase = .returned alive) (hempty : s.channel.queue = [])
    (hsize : eventQueueSize < 2) (harmed : s.shared.queueFullNoticeArmed = true)
    (overflow : EventOverflow) (item : α) :
    ∃ next log, s.step (.dispatchEvent overflow item) = some (next, log) ∧
      next.phase = .flushed overflow item ∧ next.channel.receiverOpen = true ∧
      next.channel.reservation = .idle ∧ next.channel.capacity = next.channel.queue.length := by
  have hreservation : s.channel.reservation = .idle := by
    apply hsettled.idle_of_not_parked
    intro parked hparked
    rw [hidle] at hparked
    cases hparked
  have hcapacity : s.channel.capacity = 1 := by
    have hconfigured := hsettled.capacity
    omega
  have hstep : s.step (.dispatchEvent overflow item) =
      some (s.flushThen (.flushed overflow item), .dispatched item ::
        s.effects (s.flushThen (.flushed overflow item)) item) := by
    simp only [step, hidle]
  refine ⟨_, _, hstep, ?_⟩
  rcases s.flushThen_cases (.flushed overflow item) with
    ⟨phase, hnext, hphase⟩ | ⟨sent, hnext, -, hextends, hsame⟩
  · -- The flush cannot have found the channel full: it was empty.
    have hfull := (hphase hopen).2 harmed
    rw [hcapacity, hempty, hreservation] at hfull
    cases hfull
  · have hlength : sent.capacity = sent.queue.length := by
      rw [hextends.queue, hextends.capacity, hempty, hcapacity]
      rfl
    rw [hnext]
    exact ⟨rfl, hextends.receiverOpen.trans hopen, hsame.trans hreservation, hlength⟩

theorem EventChannel.Extends.room {before after : EventChannel α} {entry : QueueEntry α}
    (hextends : before.Extends after [entry]) : before.queue.length < before.capacity := by
  have hbounded := after.bounded
  rw [hextends.queue, hextends.capacity, List.length_append, List.length_singleton] at hbounded
  omega

theorem Finishing.cons {act : QueueAct α} {rest : List (QueueAct α)}
    (hact : act.item? = none ∧ act ≠ .close) (hrest : Finishing rest) :
    Finishing (act :: rest) := by
  intro later hmem
  rcases List.mem_cons.mp hmem with rfl | hmem
  · exact hact
  · exact hrest later hmem

theorem Finishing.nil : Finishing ([] : List (QueueAct α)) := by
  intro act hact
  cases hact

/-- A parked call that found no slot gives its event up when the budget runs out. -/
theorem drops_of_parked {s : QueueState α} {item : α} (hphase : s.phase = .parked item)
    (hopen : s.channel.receiverOpen = true) (hidle : s.channel.reservation = .idle)
    (hfull : s.channel.capacity = s.channel.queue.length) :
    ∃ final log, run step s [.pollReserve, .wait .elapsed] = some (final, log) ∧
      final.phase = .returned true ∧ log.filterMap QueueLog.dropped? = [item] := by
  have hqueued : s.channel.reserve.reservation = .queued := by
    have hnoRoom : ¬ s.channel.queue.length < s.channel.capacity := by omega
    simp [EventChannel.reserve, hnoRoom]
  have hpoll : s.step .pollReserve = some ({ s with channel := s.channel.reserve }, []) := by
    simp only [step, hphase]
    rw [if_pos ⟨hopen, hidle⟩]
  have hresume : resumeDispatch s.channel.reserve s.shared item .elapsed =
      some (true, s.channel.reserve.release, dropEvent s.shared) := by
    simp only [resumeDispatch]
    rw [if_pos hqueued]
  have hwait : step { s with channel := s.channel.reserve } (.wait .elapsed) =
      some (⟨s.channel.reserve.release, dropEvent s.shared, .returned true⟩, [.dropped item]) := by
    have heffects : effects ⟨s.channel.reserve, s.shared, .parked item⟩
        ⟨s.channel.reserve.release, dropEvent s.shared, .returned true⟩ item =
        [.dropped item] := effects_of_drop item rfl rfl
    simp only [step, hphase, hresume, heffects]
  exact ⟨_, _, run_cons hpoll (run_cons hwait rfl), rfl, rfl⟩

/-- A call that finds no slot can end with its event dropped, under either policy: at once, or
when the budget runs out. -/
theorem drops_of_full {s : QueueState α} {overflow : EventOverflow} {item : α}
    (hphase : s.phase = .flushed overflow item) (hopen : s.channel.receiverOpen = true)
    (hidle : s.channel.reservation = .idle)
    (hfull : s.channel.capacity = s.channel.queue.length) :
    ∃ rest final log, Finishing rest ∧ run step s rest = some (final, log) ∧
      final.phase = .returned true ∧ log.filterMap QueueLog.dropped? = [item] := by
  have htry : ∀ phase channel shared,
      sendOrPark overflow s.channel s.shared item = (phase, channel, shared) →
      s.step .trySend =
        some (⟨channel, shared, phase⟩, s.effects ⟨channel, shared, phase⟩ item) := by
    intro phase channel shared hsend
    simp only [step, hphase, hsend]
  have htrySend : (QueueAct.trySend : QueueAct α).item? = none ∧
      (QueueAct.trySend : QueueAct α) ≠ .close := ⟨rfl, by simp⟩
  rcases sendOrPark_cases overflow s.channel s.shared item with
    ⟨sent, -, hextends, -⟩ | ⟨-, -, hcase⟩ | ⟨-, -, hcase⟩ | ⟨hclosed, -⟩
  · have hroom := EventChannel.Extends.room hextends
    omega
  · have heffects : s.effects ⟨s.channel, dropEvent s.shared, .returned true⟩ item =
        [.dropped item] := effects_of_drop item rfl rfl
    have hstep := htry _ _ _ hcase
    rw [heffects] at hstep
    exact ⟨[.trySend], _, _, .cons htrySend .nil, run_cons hstep rfl, rfl, rfl⟩
  · have heffects : s.effects ⟨s.channel, { s.shared with
        eventStallCount := s.shared.eventStallCount + 1 }, .parked item⟩ item = [] :=
      effects_of_append item [] (by simp) rfl
    have hstep := htry _ _ _ hcase
    rw [heffects] at hstep
    obtain ⟨final, log, hrun, hreturned, hdropped⟩ :=
      drops_of_parked (s := ⟨s.channel, { s.shared with
        eventStallCount := s.shared.eventStallCount + 1 }, .parked item⟩) rfl hopen hidle hfull
    refine ⟨_, final, log, ?_, run_cons hstep hrun, hreturned, hdropped⟩
    exact .cons htrySend (.cons ⟨rfl, by simp⟩ (.cons ⟨rfl, by simp⟩ .nil))
  · rw [hopen] at hclosed
    cases hclosed

/-- An emptied queue takes the next event exactly when it has a slot to spare for the notice or no
notice is armed, whatever the policy and the history. -/
theorem recovers_iff {eventQueueSize : Nat} {history : List (QueueAct α)} {s : QueueState α}
    {log : List (QueueLog α)} {alive : Bool}
    (hrun : run step (new eventQueueSize) history = some (s, log))
    (hopen : s.channel.receiverOpen = true) (hidle : s.phase = .returned alive)
    (hempty : s.channel.queue = []) (overflow : EventOverflow) (item : α) :
    s.Enqueues overflow item ↔
      2 ≤ eventQueueSize ∨ s.shared.queueFullNoticeArmed = false := by
  have hsettled := run_settled hrun
  constructor
  · intro henqueues
    by_contra hspare
    have hsize : eventQueueSize < 2 := by
      have := fun h => hspare (Or.inl h)
      omega
    have harmed : s.shared.queueFullNoticeArmed = true := by
      have hnotDisarmed := fun h => hspare (Or.inr h)
      simpa using hnotDisarmed
    obtain ⟨next, first, hstep, hphase, hnextOpen, hreservation, hfull⟩ :=
      full_of_armed hsettled hopen hidle hempty hsize harmed overflow item
    obtain ⟨rest, final, later, hrest, hlater, hreturned, hdropped⟩ :=
      drops_of_full hphase hnextOpen hreservation hfull
    have hnone := (henqueues.2 rest final (first ++ later) true hrest
      (run_cons hstep hlater) hreturned).2
    rw [List.filterMap_append, hdropped] at hnone
    simp at hnone
  · intro hspare
    obtain ⟨next, first, hstep, hsending, hdropped, henqueued⟩ :=
      sending_of_empty hsettled hopen hidle hempty hspare overflow item
    constructor
    · obtain ⟨final, later, hsend⟩ : ∃ final later, next.step .trySend = some (final, later) := by
        simp only [step, hsending.phase]
        exact ⟨_, _, rfl⟩
      exact ⟨[.trySend], final, _, true, .cons ⟨rfl, by simp⟩ .nil,
        run_cons hstep (run_cons hsend rfl), (hsending.trySend hsend).1⟩
    · intro rest final log' alive' hrest hcall hreturned
      obtain ⟨next', first', later, hstep', hlater, rfl⟩ := run_cons_eq_some hcall
      rw [hstep] at hstep'
      obtain ⟨rfl, rfl⟩ := Prod.mk.inj (Option.some.inj hstep')
      obtain ⟨hsent, hnone⟩ := hsending.run hrest hlater hreturned
      rw [List.filterMap_append, List.filterMap_append, hsent, hnone, hdropped]
      refine ⟨?_, rfl⟩
      rcases henqueued with henqueued | henqueued
      · exact Or.inl (by rw [henqueued]; rfl)
      · exact Or.inr (by rw [henqueued]; rfl)

/-- Three events on a queue of two slots: the last is dropped, the consumer takes the others. -/
theorem recovers_iff_twoSlots :
    ∃ s log, run step (new 2) [.dispatchEvent .dropIncoming 0, .trySend,
        .dispatchEvent .dropIncoming 1, .trySend, .dispatchEvent .dropIncoming 2, .trySend,
        .recv, .recv] = some (s, log) ∧
      s.channel.queue = [] ∧ s.shared.queueFullNoticeArmed = true ∧
      s.Enqueues (.blockFor 5) 3 := by
  obtain ⟨s, log, hrun, hopen, hidle, hempty, harmed⟩ : ∃ s log, run step (new 2)
      [.dispatchEvent .dropIncoming 0, .trySend, .dispatchEvent .dropIncoming 1, .trySend,
        .dispatchEvent .dropIncoming 2, .trySend, .recv, .recv] = some (s, log) ∧
      s.channel.receiverOpen = true ∧ s.phase = .returned true ∧ s.channel.queue = [] ∧
      s.shared.queueFullNoticeArmed = true := ⟨_, _, rfl, rfl, rfl, rfl, rfl⟩
  have hspare : 2 ≤ 2 ∨ s.shared.queueFullNoticeArmed = false := Or.inl (Nat.le_refl 2)
  exact ⟨s, log, hrun, hempty, harmed,
    (recovers_iff hrun hopen hidle hempty (.blockFor 5) 3).mpr hspare⟩

/-- A queue of one slot that overflowed once and was then emptied drops the next event too. -/
theorem oneSlot_drops_after_overflow :
    ∃ s log, run step (new 1) [.dispatchEvent .dropIncoming 0, .trySend,
        .dispatchEvent .dropIncoming 1, .trySend, .recv] = some (s, log) ∧
      s.channel.receiverOpen = true ∧ s.phase = .returned true ∧ s.channel.queue = [] ∧
      ¬ s.Enqueues .dropIncoming 2 := by
  refine ⟨_, _, rfl, rfl, rfl, rfl, ?_⟩
  intro henqueues
  have hrest : Finishing [(QueueAct.trySend : QueueAct Nat)] := .cons ⟨rfl, by simp⟩ .nil
  have hnone := (henqueues.2 [.trySend] _ _ true hrest rfl rfl).2
  cases hnone

end QueueState
end EslTokio
