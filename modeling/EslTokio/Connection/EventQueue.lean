import EslTokio.Library.Runs
import EslTokio.Connection.Shared

/-!
# The event queue between the reader and the application

The bounded channel of `src/connection/reader.rs` and the functions that put events on it:
`dispatch_event`, `wait_for_capacity`, `flush_queue_full_notice`, `drop_event`, `dispatch_notice`.

The consumer runs concurrently, so a dispatch is cut at every point where a receive can change what
it does next: after the flush of a notice, after a `try_send` that found the channel full, and
around the first poll of `reserve`.

* `QueueState.step` — one such piece of a dispatch, one receive, or the consumer leaving.
* `QueueLog` — what each step did: the trace of a run is the complete history of the queue.
* **`QueueState.step_cases`** — everything a step can do, from one lemma for each operation.
-/

namespace EslTokio

open Library

/-- What the channel carries: an item, or the marker that items were dropped. -/
inductive QueueEntry (α : Type) where
  | item (a : α)
  | queueFull
deriving DecidableEq, Repr

/-- Where the future of `reserve` stands. -/
inductive Reservation where
  -- not polled yet, or none at all
  | idle
  -- in line for the next freed slot
  | queued
  -- a slot freed by the consumer has been handed to it
  | granted
deriving DecidableEq, Repr

def Reservation.slots : Reservation → Nat
  | .granted => 1
  | _ => 0

/-- The bounded channel.  One of capacity zero cannot be built. -/
structure EventChannel (α : Type) where
  capacity : Nat
  queue : List (QueueEntry α)
  reservation : Reservation
  receiverOpen : Bool
  capacity_pos : 0 < capacity
  bounded : queue.length + reservation.slots ≤ capacity
deriving DecidableEq

inductive TrySend (α : Type) where
  | sent (channel : EventChannel α)
  | full
  | closed

namespace EventChannel

variable {α : Type}

/-- The channel built for a configured queue size, `event_queue_size.max(1)`. -/
def new (eventQueueSize : Nat) : EventChannel α where
  capacity := max eventQueueSize 1
  queue := []
  reservation := .idle
  receiverOpen := true
  capacity_pos := by omega
  bounded := by simp [Reservation.slots]

def trySend (ch : EventChannel α) (entry : QueueEntry α) : TrySend α :=
  if !ch.receiverOpen then .closed
  else if h : ch.queue.length + ch.reservation.slots < ch.capacity then
    .sent { ch with
      queue := ch.queue ++ [entry]
      bounded := by
        rw [List.length_append, List.length_singleton]
        omega }
  else .full

/-- The first poll of `reserve`: a free slot is granted at once, else the call waits in line. -/
def reserve (ch : EventChannel α) : EventChannel α :=
  if h : ch.queue.length < ch.capacity then
    { ch with
      reservation := .granted
      bounded := by
        simp only [Reservation.slots]
        omega }
  else
    { ch with
      reservation := .queued
      bounded := by
        have hbounded := ch.bounded
        simp only [Reservation.slots]
        omega }

/-- Drop the future of `reserve`, with the slot it may hold. -/
def release (ch : EventChannel α) : EventChannel α :=
  { ch with
    reservation := .idle
    bounded := by
      have hbounded := ch.bounded
      simp only [Reservation.slots]
      omega }

/-- Send into a granted slot. -/
def sendReserved (ch : EventChannel α) (entry : QueueEntry α) : Option (EventChannel α) :=
  if h : ch.reservation = .granted then
    some { ch with
      queue := ch.queue ++ [entry]
      reservation := .idle
      bounded := by
        have hbounded := ch.bounded
        rw [h] at hbounded
        simpa [Reservation.slots] using hbounded }
  else none

/-- The consumer takes the oldest entry; the freed slot goes to a waiting `reserve` first. -/
def recv (ch : EventChannel α) : Option (QueueEntry α × EventChannel α) :=
  if !ch.receiverOpen then none
  else
    match h : ch.queue with
    | [] => none
    | entry :: rest =>
        some (entry, { ch with
          queue := rest
          reservation := if ch.reservation = .idle then .idle else .granted
          bounded := by
            have hbounded := ch.bounded
            rw [h, List.length_cons] at hbounded
            split <;> simp only [Reservation.slots] <;> omega })

/-- The consumer drops its receiver. -/
def close (ch : EventChannel α) : EventChannel α := { ch with receiverOpen := false }

end EventChannel

/-! ## Dispatching -/

section Dispatch

variable {α : Type}

/-- Count a dropped item and arm the notice. -/
def dropEvent (shared : SharedState) : SharedState :=
  { shared with
    queueFullNoticeArmed := true
    droppedEventCount := shared.droppedEventCount + 1 }

/-- Deliver an armed notice without waiting; `false` once the receiver is gone. -/
def flushQueueFullNotice (ch : EventChannel α) (shared : SharedState) :
    Bool × EventChannel α × SharedState :=
  if !shared.queueFullNoticeArmed then (true, ch, shared)
  else
    match ch.trySend .queueFull with
    | .sent ch => (true, ch, { shared with queueFullNoticeArmed := false })
    | .closed => (false, ch, shared)
    | .full => (true, ch, shared)

/-- Where a call of `dispatch_event` or `dispatch_notice` stands. -/
inductive DispatchPhase (α : Type) where
  -- the last call returned this
  | returned (alive : Bool)
  -- `dispatch_event`, before its own `try_send`
  | flushed (overflow : EventOverflow) (item : α)
  -- `dispatch_notice`, before its own `try_send`
  | flushedNotice (item : α)
  -- `dispatch_event`, inside `wait_for_capacity`
  | parked (item : α)
deriving DecidableEq

/-- The item a call still has to place. -/
def DispatchPhase.inHand : DispatchPhase α → Option α
  | .returned _ => none
  | .flushed _ item => some item
  | .flushedNotice item => some item
  | .parked item => some item

/-- `dispatch_event` from its `try_send` on, up to the await of `wait_for_capacity`. -/
def sendOrPark (overflow : EventOverflow) (ch : EventChannel α) (shared : SharedState) (item : α) :
    DispatchPhase α × EventChannel α × SharedState :=
  match ch.trySend (.item item) with
  | .sent ch => (.returned true, ch, shared)
  | .closed => (.returned false, ch, shared)
  | .full =>
      match overflow with
      | .dropIncoming => (.returned true, ch, dropEvent shared)
      | .blockFor _ =>
          (.parked item, ch, { shared with eventStallCount := shared.eventStallCount + 1 })

/-- `dispatch_notice` from its `try_send` on. -/
def sendOrDrop (ch : EventChannel α) (shared : SharedState) (item : α) :
    DispatchPhase α × EventChannel α × SharedState :=
  match ch.trySend (.item item) with
  | .sent ch => (.returned true, ch, shared)
  | .closed => (.returned false, ch, shared)
  | .full => (.returned true, ch, dropEvent shared)

/-- What ends a wait for capacity. -/
inductive WaitSignal where
  -- `reserve` resolved with a slot
  | permit
  -- `reserve` resolved with an error: the receiver is gone
  | closed
  -- the budget elapsed
  | elapsed
  -- the re-exec stop signal won
  | stop
deriving DecidableEq, Repr

/-- Finish a parked dispatch: `settle`, or `finish_without_permit` on the stop signal, then the
bookkeeping of `dispatch_event`.  `none` for a signal that cannot occur in this state. -/
def resumeDispatch (ch : EventChannel α) (shared : SharedState) (item : α) :
    WaitSignal → Option (Bool × EventChannel α × SharedState)
  | .permit => (ch.sendReserved (.item item)).map fun ch => (true, ch, shared)
  | .closed => if ch.receiverOpen then none else some (false, ch.release, shared)
  | .elapsed =>
      -- The timeout polls `reserve` before its clock, so a granted slot is used.
      if ch.reservation = .queued then some (true, ch.release, dropEvent shared) else none
  | .stop =>
      -- The future of `reserve` is still alive here, so a slot it was granted counts as taken.
      match ch.trySend (.item item) with
      | .sent ch => some (true, ch.release, shared)
      | .closed => some (false, ch.release, shared)
      | .full => some (true, ch.release, dropEvent shared)

end Dispatch

/-! ## The queue as a system -/

/-- The channel, the shared counters, and the dispatch call of the reader. -/
structure QueueState (α : Type) where
  channel : EventChannel α
  shared : SharedState
  phase : DispatchPhase α
deriving DecidableEq

/-- What the reader, the consumer and the clock may do next. -/
inductive QueueAct (α : Type) where
  | dispatchEvent (overflow : EventOverflow) (item : α)
  | dispatchNotice (item : α)
  | trySend
  | pollReserve
  | wait (signal : WaitSignal)
  | recv
  | close
deriving DecidableEq

/-- The item a call is made with. -/
def QueueAct.item? {α : Type} : QueueAct α → Option α
  | .dispatchEvent _ item => some item
  | .dispatchNotice item => some item
  | _ => none

/-- The history of the queue, one entry for each thing that happened to an item or a notice. -/
inductive QueueLog (α : Type) where
  | dispatched (item : α)
  | sent (item : α)
  | notice
  | dropped (item : α)
  | received (entry : QueueEntry α)
deriving DecidableEq

def QueueLog.ofEntry {α : Type} : QueueEntry α → QueueLog α
  | .item a => .sent a
  | .queueFull => .notice

namespace QueueState

variable {α : Type}

/-- A freshly built connection. -/
def new (eventQueueSize : Nat) : QueueState α := ⟨.new eventQueueSize, .new, .returned true⟩

/-- What a step did to the channel and the drop counter, as history. -/
def effects (before after : QueueState α) (item : α) : List (QueueLog α) :=
  (after.channel.queue.drop before.channel.queue.length).map QueueLog.ofEntry ++
    if after.shared.droppedEventCount = before.shared.droppedEventCount then []
    else [.dropped item]

/-- Start a call: flush the notice, then go on in `phase` unless the receiver is gone. -/
def flushThen (s : QueueState α) (phase : DispatchPhase α) : QueueState α :=
  match flushQueueFullNotice s.channel s.shared with
  | (false, channel, shared) => ⟨channel, shared, .returned false⟩
  | (true, channel, shared) => ⟨channel, shared, phase⟩

/-- One step.  The reader is sequential: it starts no call before the last one returned. -/
def step (s : QueueState α) : QueueAct α → Option (QueueState α × List (QueueLog α))
  | .dispatchEvent overflow item =>
      match s.phase with
      | .returned _ =>
          let next := s.flushThen (.flushed overflow item)
          some (next, .dispatched item :: s.effects next item)
      | _ => none
  | .dispatchNotice item =>
      match s.phase with
      | .returned _ =>
          let next := s.flushThen (.flushedNotice item)
          some (next, .dispatched item :: s.effects next item)
      | _ => none
  | .trySend =>
      match s.phase with
      | .flushed overflow item =>
          let (phase, channel, shared) := sendOrPark overflow s.channel s.shared item
          some (⟨channel, shared, phase⟩, s.effects ⟨channel, shared, phase⟩ item)
      | .flushedNotice item =>
          let (phase, channel, shared) := sendOrDrop s.channel s.shared item
          some (⟨channel, shared, phase⟩, s.effects ⟨channel, shared, phase⟩ item)
      | _ => none
  | .pollReserve =>
      match s.phase with
      | .parked _ =>
          if s.channel.receiverOpen ∧ s.channel.reservation = .idle then
            some ({ s with channel := s.channel.reserve }, [])
          else none
      | _ => none
  | .wait signal =>
      match s.phase with
      | .parked item =>
          match resumeDispatch s.channel s.shared item signal with
          | some (alive, channel, shared) =>
              some (⟨channel, shared, .returned alive⟩,
                s.effects ⟨channel, shared, .returned alive⟩ item)
          | none => none
      | _ => none
  | .recv =>
      match s.channel.recv with
      | some (entry, channel) => some ({ s with channel := channel }, [.received entry])
      | none => none
  | .close => some ({ s with channel := s.channel.close }, [])

end QueueState

/-! ## What each operation can do -/

section Spec

variable {α : Type}

/-- `after` is `before` with `added` at the end of its queue. -/
structure EventChannel.Extends (before after : EventChannel α) (added : List (QueueEntry α)) :
    Prop where
  queue : after.queue = before.queue ++ added
  receiverOpen : after.receiverOpen = before.receiverOpen
  capacity : after.capacity = before.capacity

theorem EventChannel.trySend_cases (ch : EventChannel α) (entry : QueueEntry α) :
    (∃ sent, ch.trySend entry = .sent sent ∧ ch.receiverOpen = true ∧ ch.Extends sent [entry] ∧
        sent.reservation = ch.reservation) ∨
      (ch.trySend entry = .full ∧ ch.receiverOpen = true ∧
        ch.capacity = ch.queue.length + ch.reservation.slots) ∨
      (ch.trySend entry = .closed ∧ ch.receiverOpen = false) := by
  cases hopen : ch.receiverOpen with
  | false => exact Or.inr (Or.inr ⟨by simp [trySend, hopen], rfl⟩)
  | true =>
      by_cases hroom : ch.queue.length + ch.reservation.slots < ch.capacity
      · have hfits : (ch.queue ++ [entry]).length + ch.reservation.slots ≤ ch.capacity := by
          rw [List.length_append, List.length_singleton]
          omega
        refine Or.inl ⟨{ ch with queue := ch.queue ++ [entry], bounded := hfits }, ?_, rfl,
          ⟨rfl, rfl, rfl⟩, rfl⟩
        simp [trySend, hopen, hroom]
      · have hbounded := ch.bounded
        refine Or.inr (Or.inl ⟨?_, rfl, by omega⟩)
        simp [trySend, hopen, hroom]

theorem EventChannel.reserve_extends (ch : EventChannel α) : ch.Extends ch.reserve [] := by
  unfold reserve
  split <;> exact ⟨by simp, rfl, rfl⟩

theorem EventChannel.recv_eq_some {ch rest : EventChannel α} {entry : QueueEntry α}
    (h : ch.recv = some (entry, rest)) :
    ch.receiverOpen = true ∧ ch.queue = entry :: rest.queue ∧ rest.receiverOpen = true ∧
      rest.capacity = ch.capacity ∧ (ch.reservation = .idle → rest.reservation = .idle) := by
  unfold recv at h
  split at h
  · cases h
  · rename_i hopen
    have hreceiver : ch.receiverOpen = true := by simpa using hopen
    split at h
    · cases h
    · rename_i first later hqueue
      obtain ⟨rfl, rfl⟩ := by simpa using h
      exact ⟨hreceiver, hqueue, hreceiver, rfl, fun hidle => by simp [hidle]⟩

/-- A flush leaves everything as it is, or delivers one armed notice. -/
theorem flushQueueFullNotice_cases (ch : EventChannel α) (shared : SharedState) :
    (∃ alive, flushQueueFullNotice ch shared = (alive, ch, shared) ∧
        (ch.receiverOpen = true → alive = true ∧ (shared.queueFullNoticeArmed = true →
          ch.capacity = ch.queue.length + ch.reservation.slots))) ∨
      (∃ sent, flushQueueFullNotice ch shared =
          (true, sent, { shared with queueFullNoticeArmed := false }) ∧
        shared.queueFullNoticeArmed = true ∧ ch.Extends sent [.queueFull] ∧
        sent.reservation = ch.reservation) := by
  cases harmed : shared.queueFullNoticeArmed with
  | false =>
      exact Or.inl ⟨true, by simp [flushQueueFullNotice, harmed], fun _ => ⟨rfl, by simp⟩⟩
  | true =>
      rcases ch.trySend_cases .queueFull with
        ⟨sent, hsend, -, hextends, hreservation⟩ | ⟨hsend, -, hfull⟩ | ⟨hsend, hclosed⟩
      · exact Or.inr
          ⟨sent, by simp [flushQueueFullNotice, harmed, hsend], rfl, hextends, hreservation⟩
      · exact Or.inl
          ⟨true, by simp [flushQueueFullNotice, harmed, hsend], fun _ => ⟨rfl, fun _ => hfull⟩⟩
      · refine Or.inl ⟨false, by simp [flushQueueFullNotice, harmed, hsend], fun hopen => ?_⟩
        rw [hclosed] at hopen
        cases hopen

/-- The `try_send` of a call sends its item, drops it, parks it, or finds the receiver gone. -/
theorem sendOrPark_cases (overflow : EventOverflow) (ch : EventChannel α) (shared : SharedState)
    (item : α) :
    (∃ sent, sendOrPark overflow ch shared item = (.returned true, sent, shared) ∧
        ch.Extends sent [.item item] ∧ sent.reservation = ch.reservation) ∨
      (ch.capacity = ch.queue.length + ch.reservation.slots ∧ overflow = .dropIncoming ∧
        sendOrPark overflow ch shared item = (.returned true, ch, dropEvent shared)) ∨
      (ch.capacity = ch.queue.length + ch.reservation.slots ∧ overflow ≠ .dropIncoming ∧
        sendOrPark overflow ch shared item =
          (.parked item, ch, { shared with eventStallCount := shared.eventStallCount + 1 })) ∨
      (ch.receiverOpen = false ∧
        sendOrPark overflow ch shared item = (.returned false, ch, shared)) := by
  rcases ch.trySend_cases (.item item) with
    ⟨sent, hsend, -, hsent⟩ | ⟨hsend, -, hfull⟩ | ⟨hsend, hclosed⟩
  · exact Or.inl ⟨sent, by simp [sendOrPark, hsend], hsent⟩
  · cases overflow with
    | dropIncoming => exact Or.inr (Or.inl ⟨hfull, rfl, by simp [sendOrPark, hsend]⟩)
    | blockFor budgetMs =>
        exact Or.inr (Or.inr (Or.inl ⟨hfull, by simp, by simp [sendOrPark, hsend]⟩))
  · exact Or.inr (Or.inr (Or.inr ⟨hclosed, by simp [sendOrPark, hsend]⟩))

theorem sendOrDrop_eq_sendOrPark (ch : EventChannel α) (shared : SharedState) (item : α) :
    sendOrDrop ch shared item = sendOrPark .dropIncoming ch shared item := by
  unfold sendOrDrop sendOrPark
  cases ch.trySend (.item item) <;> rfl

/-- The end of a wait gives the reservation back and sends the item, drops it, or finds the
receiver gone. -/
theorem resumeDispatch_cases {ch channel : EventChannel α} {shared shared' : SharedState}
    {item : α} {signal : WaitSignal} {alive : Bool}
    (h : resumeDispatch ch shared item signal = some (alive, channel, shared')) :
    channel.reservation = .idle ∧
      ((ch.Extends channel [.item item] ∧ shared' = shared) ∨
        (ch.Extends channel [] ∧ shared' = dropEvent shared) ∨
        (ch.Extends channel [] ∧ shared' = shared ∧ ch.receiverOpen = false)) := by
  cases signal with
  | permit =>
      simp only [resumeDispatch] at h
      obtain ⟨sent, hsend, heq⟩ := Option.map_eq_some_iff.mp h
      obtain ⟨rfl, rfl, rfl⟩ := by simpa using heq
      unfold EventChannel.sendReserved at hsend
      split at hsend
      · obtain rfl := Option.some.inj hsend
        exact ⟨rfl, Or.inl ⟨⟨rfl, rfl, rfl⟩, rfl⟩⟩
      · cases hsend
  | closed =>
      simp only [resumeDispatch] at h
      split at h
      · cases h
      · rename_i hclosed
        obtain ⟨rfl, rfl, rfl⟩ := by simpa using h
        exact ⟨rfl, Or.inr (Or.inr ⟨⟨by simp [EventChannel.release], rfl, rfl⟩, rfl,
          by simpa using hclosed⟩)⟩
  | elapsed =>
      simp only [resumeDispatch] at h
      split at h
      · obtain ⟨rfl, rfl, rfl⟩ := by simpa using h
        exact ⟨rfl, Or.inr (Or.inl ⟨⟨by simp [EventChannel.release], rfl, rfl⟩, rfl⟩)⟩
      · cases h
  | stop =>
      simp only [resumeDispatch] at h
      rcases ch.trySend_cases (.item item) with
        ⟨sent, hsend, -, hextends, -⟩ | ⟨hsend, -⟩ | ⟨hsend, hclosed⟩
      · rw [hsend] at h
        obtain ⟨rfl, rfl, rfl⟩ := by simpa using h
        exact ⟨rfl, Or.inl ⟨⟨hextends.queue, hextends.receiverOpen, hextends.capacity⟩, rfl⟩⟩
      · rw [hsend] at h
        obtain ⟨rfl, rfl, rfl⟩ := by simpa using h
        exact ⟨rfl, Or.inr (Or.inl ⟨⟨by simp [EventChannel.release], rfl, rfl⟩, rfl⟩)⟩
      · rw [hsend] at h
        obtain ⟨rfl, rfl, rfl⟩ := by simpa using h
        exact ⟨rfl, Or.inr (Or.inr ⟨⟨by simp [EventChannel.release], rfl, rfl⟩, rfl, hclosed⟩)⟩

/-- A wait that ends with `false` found the receiver gone. -/
theorem resumeDispatch_closed {ch channel : EventChannel α} {shared shared' : SharedState}
    {item : α} {signal : WaitSignal}
    (h : resumeDispatch ch shared item signal = some (false, channel, shared')) :
    channel.receiverOpen = false := by
  cases signal with
  | permit =>
      obtain ⟨sent, -, heq⟩ := Option.map_eq_some_iff.mp h
      cases heq
  | closed =>
      simp only [resumeDispatch] at h
      split at h
      · cases h
      · rename_i hclosed
        cases h
        simpa [EventChannel.release] using hclosed
  | elapsed =>
      simp only [resumeDispatch] at h
      split at h <;> cases h
  | stop =>
      simp only [resumeDispatch] at h
      rcases ch.trySend_cases (.item item) with ⟨sent, hsend, -⟩ | ⟨hsend, -⟩ | ⟨hsend, hclosed⟩
      · rw [hsend] at h
        cases h
      · rw [hsend] at h
        cases h
      · rw [hsend] at h
        cases h
        exact hclosed

namespace QueueState

/-- The start of a call leaves everything but the phase as it is, or delivers one notice. -/
theorem flushThen_cases (s : QueueState α) (phase : DispatchPhase α) :
    (∃ next, s.flushThen phase = ⟨s.channel, s.shared, next⟩ ∧
        (s.channel.receiverOpen = true → next = phase ∧ (s.shared.queueFullNoticeArmed = true →
          s.channel.capacity = s.channel.queue.length + s.channel.reservation.slots))) ∨
      (∃ sent, s.flushThen phase =
          ⟨sent, { s.shared with queueFullNoticeArmed := false }, phase⟩ ∧
        s.shared.queueFullNoticeArmed = true ∧ s.channel.Extends sent [.queueFull] ∧
        sent.reservation = s.channel.reservation) := by
  rcases flushQueueFullNotice_cases s.channel s.shared with
    ⟨alive, hflush, hopen⟩ | ⟨sent, hflush, harmed, hsent⟩
  · cases alive with
    | false =>
        refine Or.inl ⟨.returned false, by simp [flushThen, hflush], fun hreceiver => ?_⟩
        cases (hopen hreceiver).1
    | true =>
        exact Or.inl ⟨phase, by simp [flushThen, hflush], fun hreceiver =>
          ⟨rfl, (hopen hreceiver).2⟩⟩
  · exact Or.inr ⟨sent, by simp [flushThen, hflush], harmed, hsent⟩

/-- What a step can be, with everything it did. -/
theorem step_cases {s next : QueueState α} {act : QueueAct α} {log : List (QueueLog α)}
    (h : s.step act = some (next, log)) :
    (∃ item phase, act.item? = some item ∧ s.phase.inHand = none ∧ phase.inHand = some item ∧
        next = s.flushThen phase ∧ log = .dispatched item :: s.effects next item) ∨
      (act = .trySend ∧ ∃ overflow item, (s.phase = .flushed overflow item ∨
          overflow = .dropIncoming ∧ s.phase = .flushedNotice item) ∧
        sendOrPark overflow s.channel s.shared item = (next.phase, next.channel, next.shared) ∧
        log = s.effects next item) ∨
      (act = .pollReserve ∧ s.channel.receiverOpen = true ∧
        next = { s with channel := s.channel.reserve } ∧ log = []) ∨
      (∃ signal item alive, act = .wait signal ∧ s.phase = .parked item ∧
        resumeDispatch s.channel s.shared item signal =
          some (alive, next.channel, next.shared) ∧
        next.phase = .returned alive ∧ log = s.effects next item) ∨
      (act = .recv ∧ ∃ entry, s.channel.recv = some (entry, next.channel) ∧
        next.shared = s.shared ∧ next.phase = s.phase ∧ log = [.received entry]) ∨
      (act = .close ∧ next = { s with channel := s.channel.close } ∧ log = []) := by
  cases act with
  | dispatchEvent overflow item =>
      simp only [step] at h
      split at h
      · rename_i alive hphase
        obtain ⟨rfl, rfl⟩ := by simpa using h
        exact Or.inl ⟨item, .flushed overflow item, rfl, by simp [hphase, DispatchPhase.inHand],
          rfl, rfl, rfl⟩
      · cases h
  | dispatchNotice item =>
      simp only [step] at h
      split at h
      · rename_i alive hphase
        obtain ⟨rfl, rfl⟩ := by simpa using h
        exact Or.inl ⟨item, .flushedNotice item, rfl, by simp [hphase, DispatchPhase.inHand],
          rfl, rfl, rfl⟩
      · cases h
  | trySend =>
      refine Or.inr (Or.inl ⟨rfl, ?_⟩)
      simp only [step] at h
      split at h
      · rename_i overflow item hphase
        obtain ⟨rfl, rfl⟩ := by simpa using h
        exact ⟨overflow, item, Or.inl hphase, rfl, rfl⟩
      · rename_i item hphase
        obtain ⟨rfl, rfl⟩ := by simpa using h
        exact ⟨.dropIncoming, item, Or.inr ⟨rfl, hphase⟩, (sendOrDrop_eq_sendOrPark ..).symm, rfl⟩
      · cases h
  | pollReserve =>
      refine Or.inr (Or.inr (Or.inl ⟨rfl, ?_⟩))
      simp only [step] at h
      split at h
      · split at h
        · rename_i hguard
          obtain ⟨rfl, rfl⟩ := by simpa using h
          exact ⟨hguard.1, rfl, rfl⟩
        · cases h
      · cases h
  | wait signal =>
      refine Or.inr (Or.inr (Or.inr (Or.inl ?_)))
      simp only [step] at h
      split at h
      · rename_i item hphase
        split at h
        · rename_i alive channel shared hresume
          obtain ⟨rfl, rfl⟩ := by simpa using h
          exact ⟨signal, item, alive, rfl, hphase, hresume, rfl, rfl⟩
        · cases h
      · cases h
  | recv =>
      refine Or.inr (Or.inr (Or.inr (Or.inr (Or.inl ⟨rfl, ?_⟩))))
      simp only [step] at h
      split at h
      · rename_i entry channel hrecv
        obtain ⟨rfl, rfl⟩ := by simpa using h
        exact ⟨entry, hrecv, rfl, rfl, rfl⟩
      · cases h
  | close =>
      obtain ⟨rfl, rfl⟩ := by simpa [step] using h
      exact Or.inr (Or.inr (Or.inr (Or.inr (Or.inr ⟨rfl, rfl, rfl⟩))))

/-- A receiver that is gone never comes back. -/
theorem step_of_closed {s next : QueueState α} {act : QueueAct α} {log : List (QueueLog α)}
    (hclosed : s.channel.receiverOpen = false) (h : s.step act = some (next, log)) :
    next.channel.receiverOpen = false := by
  rcases step_cases h with ⟨item, phase, -, -, -, rfl, -⟩ | ⟨-, overflow, item, -, hsend, -⟩ |
    ⟨-, -, rfl, -⟩ | ⟨signal, item, alive, -, -, hresume, -⟩ | ⟨-, entry, hrecv, -⟩ | ⟨-, rfl, -⟩
  · rcases s.flushThen_cases phase with ⟨phase', hnext, -⟩ | ⟨sent, hnext, -, hextends, -⟩
    · rw [hnext]
      exact hclosed
    · rw [hnext]
      exact hextends.receiverOpen.trans hclosed
  · rcases sendOrPark_cases overflow s.channel s.shared item with ⟨sent, hcase, hextends, -⟩ |
      ⟨-, -, hcase⟩ | ⟨-, -, hcase⟩ | ⟨-, hcase⟩ <;>
      rw [hcase, Prod.mk.injEq, Prod.mk.injEq] at hsend <;> rw [← hsend.2.1]
    · exact hextends.receiverOpen.trans hclosed
    all_goals exact hclosed
  · exact s.channel.reserve_extends.receiverOpen.trans hclosed
  · obtain ⟨-, ⟨hextends, -⟩ | ⟨hextends, -⟩ | ⟨hextends, -⟩⟩ := resumeDispatch_cases hresume <;>
      exact hextends.receiverOpen.trans hclosed
  · have hopen := (EventChannel.recv_eq_some hrecv).1
    rw [hclosed] at hopen
    cases hopen
  · rfl

/-- A dispatch touches the counters of the shared state only. -/
theorem step_shared {s next : QueueState α} {act : QueueAct α} {log : List (QueueLog α)}
    (h : s.step act = some (next, log)) :
    next.shared.status = s.shared.status ∧ next.shared.pendingReply = s.shared.pendingReply := by
  rcases step_cases h with ⟨item, phase, -, -, -, rfl, -⟩ | ⟨-, overflow, item, -, hsend, -⟩ |
    ⟨-, -, rfl, -⟩ | ⟨signal, item, alive, -, -, hresume, -⟩ | ⟨-, entry, -, hshared, -⟩ |
    ⟨-, rfl, -⟩
  · rcases s.flushThen_cases phase with ⟨phase', hnext, -⟩ | ⟨sent, hnext, -⟩
    · rw [hnext]
      exact ⟨rfl, rfl⟩
    · rw [hnext]
      exact ⟨rfl, rfl⟩
  · rcases sendOrPark_cases overflow s.channel s.shared item with ⟨sent, hcase, -⟩ |
      ⟨-, -, hcase⟩ | ⟨-, -, hcase⟩ | ⟨-, hcase⟩ <;>
      rw [hcase, Prod.mk.injEq, Prod.mk.injEq] at hsend <;> rw [← hsend.2.2] <;> exact ⟨rfl, rfl⟩
  · exact ⟨rfl, rfl⟩
  · obtain ⟨-, ⟨-, hshared⟩ | ⟨-, hshared⟩ | ⟨-, hshared, -⟩⟩ := resumeDispatch_cases hresume <;>
      rw [hshared] <;> exact ⟨rfl, rfl⟩
  · rw [hshared]
    exact ⟨rfl, rfl⟩
  · exact ⟨rfl, rfl⟩

/-- A call that returned `false` found the receiver gone. -/
def Truthful (s : QueueState α) : Prop :=
  s.phase = .returned false → s.channel.receiverOpen = false

theorem step_truthful {s next : QueueState α} {act : QueueAct α} {log : List (QueueLog α)}
    (htruthful : s.Truthful) (h : s.step act = some (next, log)) : next.Truthful := by
  intro hreturned
  rcases step_cases h with ⟨item, phase, -, -, hinHand, rfl, -⟩ | ⟨-, overflow, item, -, hsend, -⟩ |
    ⟨-, hopen, rfl, -⟩ | ⟨signal, item, alive, -, -, hresume, hphase, -⟩ |
    ⟨-, entry, hrecv, -, hphase, -⟩ | ⟨-, rfl, -⟩
  · rcases s.flushThen_cases phase with ⟨phase', hnext, hsame⟩ | ⟨sent, hnext, -⟩
    · rw [hnext] at hreturned ⊢
      by_contra hopen
      obtain ⟨rfl, -⟩ := hsame (by simpa using hopen)
      simp only at hreturned
      rw [hreturned] at hinHand
      cases hinHand
    · rw [hnext] at hreturned
      simp only at hreturned
      rw [hreturned] at hinHand
      cases hinHand
  · rcases sendOrPark_cases overflow s.channel s.shared item with ⟨sent, hcase, -⟩ |
      ⟨-, -, hcase⟩ | ⟨-, -, hcase⟩ | ⟨hclosed, hcase⟩ <;>
      rw [hcase, Prod.mk.injEq, Prod.mk.injEq, hreturned] at hsend
    · cases hsend.1
    · cases hsend.1
    · cases hsend.1
    · rw [← hsend.2.1]
      exact hclosed
  · rw [htruthful hreturned] at hopen
    cases hopen
  · rw [hphase] at hreturned
    cases hreturned
    exact resumeDispatch_closed hresume
  · rw [hphase] at hreturned
    have hopen := (EventChannel.recv_eq_some hrecv).1
    rw [htruthful hreturned] at hopen
    cases hopen
  · rfl

end QueueState
end Spec
end EslTokio
