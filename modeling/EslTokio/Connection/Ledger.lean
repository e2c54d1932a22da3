import EslTokio.Connection.EventQueue

/-!
# Accounting for every event

The abstract side of the event queue: a ledger of the item in hand, the entries not yet received,
the unreported drop and the drop counter, with the only moves it has.  The queue of
`EventQueue` refines it step by step while the consumer keeps its receiver.

* `Ledger.Moves` — a history of the ledger; order, conservation and notice causality are read off
  it by induction.
* `QueueState.run_moves` — every run of the code is such a history.
* **`QueueState.event_accounting`** — nothing is lost or reordered without being counted and
  reported.
-/

namespace EslTokio

open Library

/-! ## The abstract ledger -/

/-- What the queue is for: an item in hand, the entries not yet received, whether an unreported
drop exists, and how many drops there were. -/
structure Ledger (α : Type) where
  inHand : Option α
  queue : List (QueueEntry α)
  armed : Bool
  dropped : UInt64

namespace QueueLog

variable {α : Type}

def dispatched? : QueueLog α → Option α
  | .dispatched item => some item
  | _ => none

def dropped? : QueueLog α → Option α
  | .dropped item => some item
  | _ => none

def received? : QueueLog α → Option (QueueEntry α)
  | .received entry => some entry
  | _ => none

/-- The entry put on the channel. -/
def enqueued? : QueueLog α → Option (QueueEntry α)
  | .sent item => some (.item item)
  | .notice => some .queueFull
  | _ => none

theorem dispatched?_ofEntry (entry : QueueEntry α) : (ofEntry entry).dispatched? = none := by
  cases entry <;> rfl

end QueueLog

def QueueEntry.item? {α : Type} : QueueEntry α → Option α
  | .item a => some a
  | .queueFull => none

namespace Ledger

variable {α : Type}

/-- The only moves there are: an item in hand is sent or dropped, a notice is only sent when a drop
is unreported, and entries leave in the order they came. -/
inductive Move : Ledger α → QueueLog α → Ledger α → Prop where
  | dispatched (item : α) (queue : List (QueueEntry α)) (armed : Bool) (dropped : UInt64) :
      Move ⟨none, queue, armed, dropped⟩ (.dispatched item) ⟨some item, queue, armed, dropped⟩
  | sent (item : α) (queue : List (QueueEntry α)) (armed : Bool) (dropped : UInt64) :
      Move ⟨some item, queue, armed, dropped⟩ (.sent item)
        ⟨none, queue ++ [.item item], armed, dropped⟩
  | notice (inHand : Option α) (queue : List (QueueEntry α)) (dropped : UInt64) :
      Move ⟨inHand, queue, true, dropped⟩ .notice ⟨inHand, queue ++ [.queueFull], false, dropped⟩
  | dropped (item : α) (queue : List (QueueEntry α)) (armed : Bool) (dropped : UInt64) :
      Move ⟨some item, queue, armed, dropped⟩ (.dropped item) ⟨none, queue, true, dropped + 1⟩
  | received (inHand : Option α) (entry : QueueEntry α) (queue : List (QueueEntry α))
      (armed : Bool) (dropped : UInt64) :
      Move ⟨inHand, entry :: queue, armed, dropped⟩ (.received entry)
        ⟨inHand, queue, armed, dropped⟩

/-- A history is a sequence of moves. -/
inductive Moves : Ledger α → List (QueueLog α) → Ledger α → Prop where
  | nil (l : Ledger α) : Moves l [] l
  | cons {l m n : Ledger α} {entry : QueueLog α} {rest : List (QueueLog α)}
      (hmove : Move l entry m) (hrest : Moves m rest n) : Moves l (entry :: rest) n

theorem Moves.single {l m : Ledger α} {entry : QueueLog α} (h : Move l entry m) :
    Moves l [entry] m :=
  .cons h (.nil m)

theorem Moves.append {l m n : Ledger α} {first second : List (QueueLog α)}
    (hfirst : Moves l first m) (hsecond : Moves m second n) : Moves l (first ++ second) n := by
  induction hfirst with
  | nil l => exact hsecond
  | cons hmove _ ih => exact .cons hmove (ih hsecond)

theorem Moves.split {l n : Ledger α} {first second : List (QueueLog α)}
    (h : Moves l (first ++ second) n) : ∃ m, Moves l first m ∧ Moves m second n := by
  induction first generalizing l with
  | nil => exact ⟨l, .nil l, h⟩
  | cons entry rest ih =>
      cases h with
      | cons hmove hrest =>
          obtain ⟨m, hfirst, hsecond⟩ := ih hrest
          exact ⟨m, .cons hmove hfirst, hsecond⟩

/-- First in, first out. -/
theorem Moves.fifo {l n : Ledger α} {log : List (QueueLog α)} (h : Moves l log n) :
    l.queue ++ log.filterMap QueueLog.enqueued? = log.filterMap QueueLog.received? ++ n.queue := by
  induction h with
  | nil l => simp
  | cons hmove _ ih =>
      cases hmove <;> simp_all [List.filterMap_cons, QueueLog.enqueued?, QueueLog.received?]

/-- What goes in is what was dispatched, in order, less what was dropped. -/
theorem Moves.order {l n : Ledger α} {log : List (QueueLog α)} (h : Moves l log n) :
    ((log.filterMap QueueLog.enqueued?).filterMap QueueEntry.item? ++ n.inHand.toList).Sublist
      (l.inHand.toList ++ log.filterMap QueueLog.dispatched?) := by
  induction h with
  | nil l => simp
  | cons hmove _ ih =>
      cases hmove with
      | dispatched item =>
          simpa [List.filterMap_cons, QueueLog.enqueued?, QueueLog.dispatched?] using ih
      | sent item =>
          simpa [List.filterMap_cons, QueueLog.enqueued?, QueueLog.dispatched?,
            QueueEntry.item?] using ih
      | notice =>
          simpa [List.filterMap_cons, QueueLog.enqueued?, QueueLog.dispatched?,
            QueueEntry.item?] using ih
      | dropped item =>
          have hskip := ih.trans (List.sublist_cons_self item _)
          simpa [List.filterMap_cons, QueueLog.enqueued?, QueueLog.dispatched?] using hskip
      | received => simpa [List.filterMap_cons, QueueLog.enqueued?, QueueLog.dispatched?] using ih

/-- Every dispatched item is sent, dropped or still in hand, and the counter counts the drops. -/
theorem Moves.conservation {l n : Ledger α} {log : List (QueueLog α)} (h : Moves l log n) :
    l.inHand.toList.length + (log.filterMap QueueLog.dispatched?).length =
        ((log.filterMap QueueLog.enqueued?).filterMap QueueEntry.item?).length +
          (log.filterMap QueueLog.dropped?).length + n.inHand.toList.length ∧
      n.dropped = l.dropped + UInt64.ofNat (log.filterMap QueueLog.dropped?).length := by
  induction h with
  | nil l => simp
  | cons hmove _ ih =>
      obtain ⟨hcount, hdropped⟩ := ih
      refine ⟨?_, ?_⟩
      · cases hmove <;>
          simp_all [List.filterMap_cons, QueueLog.enqueued?, QueueLog.dispatched?,
            QueueLog.dropped?, QueueEntry.item?] <;> omega
      · cases hmove <;>
          simp_all [List.filterMap_cons, QueueLog.dropped?, UInt64.ofNat_add, UInt64.add_assoc,
            UInt64.add_comm]

/-- With no drop in between, a disarmed notice stays disarmed. -/
theorem Moves.disarmed {l n : Ledger α} {log : List (QueueLog α)} (h : Moves l log n)
    (hdisarmed : l.armed = false) (hdrops : log.filterMap QueueLog.dropped? = []) :
    n.armed = false := by
  induction h with
  | nil l => exact hdisarmed
  | cons hmove _ ih =>
      cases hmove with
      | dispatched =>
          exact ih hdisarmed (by simpa [List.filterMap_cons, QueueLog.dropped?] using hdrops)
      | sent => exact ih hdisarmed (by simpa [List.filterMap_cons, QueueLog.dropped?] using hdrops)
      | notice => cases hdisarmed
      | dropped => simp [QueueLog.dropped?] at hdrops
      | received =>
          exact ih hdisarmed (by simpa [List.filterMap_cons, QueueLog.dropped?] using hdrops)

/-- A notice reports a drop: starting disarmed, none is sent before something was dropped. -/
theorem Moves.dropped_before_notice {l n : Ledger α} {before after : List (QueueLog α)}
    (h : Moves l (before ++ .notice :: after) n) (hdisarmed : l.armed = false) :
    before.filterMap QueueLog.dropped? ≠ [] := by
  intro hdrops
  obtain ⟨m, hbefore, hnotice⟩ := h.split
  have hstill : m.armed = false := hbefore.disarmed hdisarmed hdrops
  cases hnotice with
  | cons hmove _ =>
      cases hmove with
      | notice => cases hstill

/-- Each notice reports a drop of its own. -/
theorem Moves.dropped_between_notices {l n : Ledger α}
    {before between after : List (QueueLog α)}
    (h : Moves l (before ++ .notice :: (between ++ .notice :: after)) n) :
    between.filterMap QueueLog.dropped? ≠ [] := by
  obtain ⟨m, -, hnotice⟩ := h.split
  cases hnotice with
  | cons hmove hrest =>
      cases hmove with
      | notice => exact hrest.dropped_before_notice rfl

end Ledger

/-! ## The code refines the ledger -/

section Refinement

variable {α : Type}

namespace QueueState

/-- The ledger a state of the code stands for. -/
def ledger (s : QueueState α) : Ledger α :=
  ⟨s.phase.inHand, s.channel.queue, s.shared.queueFullNoticeArmed, s.shared.droppedEventCount⟩

theorem effects_of_append {s next : QueueState α} (item : α) (added : List (QueueEntry α))
    (hqueue : next.channel.queue = s.channel.queue ++ added)
    (hdropped : next.shared.droppedEventCount = s.shared.droppedEventCount) :
    s.effects next item = added.map QueueLog.ofEntry := by
  simp [effects, hqueue, hdropped]

theorem effects_of_drop {s next : QueueState α} (item : α)
    (hqueue : next.channel.queue = s.channel.queue)
    (hdropped : next.shared.droppedEventCount = s.shared.droppedEventCount + 1) :
    s.effects next item = [.dropped item] := by
  simp [effects, hqueue, hdropped]

/-- An item in hand that was appended to the channel. -/
theorem sent_moves {s next : QueueState α} {item : α} (hinHand : s.phase.inHand = some item)
    (hqueue : next.channel.queue = s.channel.queue ++ [.item item])
    (hshared : next.shared = s.shared) (hdone : next.phase.inHand = none) :
    Ledger.Moves s.ledger (s.effects next item) next.ledger := by
  have heffects : s.effects next item = [.sent item] :=
    effects_of_append item [.item item] hqueue (by rw [hshared])
  rw [heffects]
  refine .single ?_
  simp only [ledger, hinHand, hqueue, hshared, hdone]
  exact .sent item _ _ _

/-- An item in hand that was given up. -/
theorem dropped_moves {s next : QueueState α} {item : α} (hinHand : s.phase.inHand = some item)
    (hqueue : next.channel.queue = s.channel.queue ++ [])
    (hshared : next.shared = dropEvent s.shared) (hdone : next.phase.inHand = none) :
    Ledger.Moves s.ledger (s.effects next item) next.ledger := by
  have hsame : next.channel.queue = s.channel.queue := by simpa using hqueue
  have heffects : s.effects next item = [.dropped item] :=
    effects_of_drop item hsame (by rw [hshared]; rfl)
  rw [heffects]
  refine .single ?_
  simp only [ledger, hinHand, hsame, hshared, hdone]
  exact .dropped item _ _ _

/-- The start of a call takes the item in hand and may report earlier drops. -/
theorem flushThen_moves {s : QueueState α} {phase : DispatchPhase α} {item : α}
    (hopen : s.channel.receiverOpen = true) (hidle : s.phase.inHand = none)
    (hinHand : phase.inHand = some item) :
    Ledger.Moves s.ledger (.dispatched item :: s.effects (s.flushThen phase) item)
      (s.flushThen phase).ledger := by
  have htake : Ledger.Move s.ledger (.dispatched item) ⟨some item, s.channel.queue,
      s.shared.queueFullNoticeArmed, s.shared.droppedEventCount⟩ := by
    unfold ledger
    rw [hidle]
    exact .dispatched item _ _ _
  refine .cons htake ?_
  rcases s.flushThen_cases phase with ⟨next, hnext, hphase⟩ | ⟨sent, hnext, harmed, hextends, -⟩
  · obtain ⟨rfl, -⟩ := hphase hopen
    have heffects : s.effects ⟨s.channel, s.shared, next⟩ item = [] :=
      effects_of_append item [] (by simp) rfl
    rw [hnext, heffects, ← hinHand]
    exact .nil _
  · have heffects : s.effects
        ⟨sent, { s.shared with queueFullNoticeArmed := false }, phase⟩ item = [.notice] :=
      effects_of_append item [.queueFull] hextends.queue rfl
    rw [hnext, heffects, harmed]
    simp only [ledger, hinHand, hextends.queue]
    exact .single (.notice (some item) _ _)

/-- The `try_send` of a call sends its item, drops it, or leaves it parked. -/
theorem sendOrPark_moves {s next : QueueState α} {item : α} {overflow : EventOverflow}
    (hopen : s.channel.receiverOpen = true) (hinHand : s.phase.inHand = some item)
    (hsend : sendOrPark overflow s.channel s.shared item =
      (next.phase, next.channel, next.shared)) :
    Ledger.Moves s.ledger (s.effects next item) next.ledger := by
  obtain ⟨channel, shared, phase⟩ := next
  rcases sendOrPark_cases overflow s.channel s.shared item with ⟨sent, hcase, hextends, -⟩ |
    ⟨-, -, hcase⟩ | ⟨-, -, hcase⟩ | ⟨hclosed, -⟩
  · rw [hcase] at hsend
    obtain ⟨rfl, rfl, rfl⟩ := by simpa using hsend
    exact sent_moves hinHand hextends.queue rfl rfl
  · rw [hcase] at hsend
    obtain ⟨rfl, rfl, rfl⟩ := by simpa using hsend
    exact dropped_moves hinHand (by simp) rfl rfl
  · rw [hcase] at hsend
    obtain ⟨rfl, rfl, rfl⟩ := by simpa using hsend
    have heffects : s.effects ⟨s.channel, { s.shared with
        eventStallCount := s.shared.eventStallCount + 1 }, .parked item⟩ item = [] :=
      effects_of_append item [] (by simp) rfl
    rw [heffects]
    simp only [ledger, hinHand]
    exact .nil _
  · rw [hopen] at hclosed
    cases hclosed

/-- The end of a wait sends or drops the parked item. -/
theorem resume_moves {s next : QueueState α} {item : α} {signal : WaitSignal} {alive : Bool}
    (hopen : s.channel.receiverOpen = true) (hinHand : s.phase.inHand = some item)
    (hresume : resumeDispatch s.channel s.shared item signal =
      some (alive, next.channel, next.shared))
    (hreturned : next.phase = .returned alive) :
    Ledger.Moves s.ledger (s.effects next item) next.ledger := by
  have hdone : next.phase.inHand = none := by rw [hreturned]; rfl
  obtain ⟨-, ⟨hextends, hshared⟩ | ⟨hextends, hshared⟩ | ⟨-, -, hclosed⟩⟩ :=
    resumeDispatch_cases hresume
  · exact sent_moves hinHand hextends.queue hshared hdone
  · exact dropped_moves hinHand hextends.queue hshared hdone
  · rw [hopen] at hclosed
    cases hclosed

/-- Every step that leaves the receiver in place is a sequence of ledger moves. -/
theorem step_moves {s next : QueueState α} {act : QueueAct α} {log : List (QueueLog α)}
    (hopen : next.channel.receiverOpen = true) (h : s.step act = some (next, log)) :
    s.channel.receiverOpen = true ∧ Ledger.Moves s.ledger log next.ledger := by
  have hbefore : s.channel.receiverOpen = true := by
    by_contra hclosed
    rw [step_of_closed (by simpa using hclosed) h] at hopen
    cases hopen
  refine ⟨hbefore, ?_⟩
  rcases step_cases h with ⟨item, phase, -, hidle, hinHand, rfl, rfl⟩ |
    ⟨-, overflow, item, hphase, hsend, rfl⟩ | ⟨-, -, rfl, rfl⟩ |
    ⟨signal, item, alive, -, hphase, hresume, hreturned, rfl⟩ |
    ⟨-, entry, hrecv, hshared, hphase, rfl⟩ | ⟨-, rfl, -⟩
  · exact flushThen_moves hbefore hidle hinHand
  · have hinHand : s.phase.inHand = some item := by
      rcases hphase with hphase | ⟨-, hphase⟩ <;> rw [hphase] <;> rfl
    exact sendOrPark_moves hbefore hinHand hsend
  · have hsame : s.channel.reserve.queue = s.channel.queue := by
      simpa using s.channel.reserve_extends.queue
    simp only [ledger, hsame]
    exact .nil _
  · have hinHand : s.phase.inHand = some item := by rw [hphase]; rfl
    exact resume_moves hbefore hinHand hresume hreturned
  · obtain ⟨-, hqueue, -⟩ := EventChannel.recv_eq_some hrecv
    simp only [ledger, hqueue, hshared, hphase]
    exact .single (.received ..)
  · cases hopen

/-- A run that leaves the receiver in place is a history of the ledger. -/
theorem run_moves {s final : QueueState α} {acts : List (QueueAct α)} {log : List (QueueLog α)}
    (hopen : final.channel.receiverOpen = true) (hrun : run step s acts = some (final, log)) :
    s.channel.receiverOpen = true ∧ Ledger.Moves s.ledger log final.ledger := by
  induction acts generalizing s log with
  | nil =>
      obtain ⟨rfl, rfl⟩ : s = final ∧ [] = log := by simpa [run] using hrun
      exact ⟨hopen, .nil _⟩
  | cons act rest ih =>
      obtain ⟨next, outputs, later, hstep, hlater, rfl⟩ := run_cons_eq_some hrun
      obtain ⟨hnextOpen, hrest⟩ := ih hlater
      obtain ⟨hstartOpen, hfirst⟩ := step_moves hnextOpen hstep
      exact ⟨hstartOpen, hfirst.append hrest⟩

/-! ## Accounting -/

/-- The items dispatched, in order. -/
def dispatchedItems (acts : List (QueueAct α)) : List α := acts.filterMap QueueAct.item?

/-- The items delivered: those the consumer took, then those that wait for it on the channel. -/
def deliveredItems (log : List (QueueLog α)) (s : QueueState α) : List α :=
  (log.filterMap QueueLog.received? ++ s.channel.queue).filterMap QueueEntry.item?

theorem effects_dispatched (s next : QueueState α) (item : α) :
    (s.effects next item).filterMap QueueLog.dispatched? = [] := by
  have hadded : ∀ added : List (QueueEntry α),
      (added.map QueueLog.ofEntry).filterMap QueueLog.dispatched? = [] := by
    intro added
    induction added with
    | nil => rfl
    | cons entry rest ih =>
        rw [List.map_cons, List.filterMap_cons, QueueLog.dispatched?_ofEntry, ih]
  unfold effects
  rw [List.filterMap_append, hadded]
  split <;> rfl

/-- The history records each call once, with its item. -/
theorem step_dispatched {s next : QueueState α} {act : QueueAct α} {log : List (QueueLog α)}
    (h : s.step act = some (next, log)) :
    log.filterMap QueueLog.dispatched? = act.item?.toList := by
  rcases step_cases h with ⟨item, phase, hact, -, -, -, rfl⟩ | ⟨rfl, overflow, item, -, -, rfl⟩ |
    ⟨rfl, -, -, rfl⟩ | ⟨signal, item, alive, rfl, -, -, -, rfl⟩ | ⟨rfl, entry, -, -, -, rfl⟩ |
    ⟨rfl, -, rfl⟩
  · rw [hact, List.filterMap_cons_some (by rfl), effects_dispatched]
    rfl
  · exact effects_dispatched s next item
  · rfl
  · exact effects_dispatched s next item
  · rfl
  · rfl

theorem run_dispatched {s final : QueueState α} {acts : List (QueueAct α)}
    {log : List (QueueLog α)} (hrun : run step s acts = some (final, log)) :
    log.filterMap QueueLog.dispatched? = dispatchedItems acts := by
  induction acts generalizing s log with
  | nil =>
      obtain ⟨rfl, rfl⟩ : s = final ∧ [] = log := by simpa [run] using hrun
      rfl
  | cons act rest ih =>
      obtain ⟨next, outputs, later, hstep, hlater, rfl⟩ := run_cons_eq_some hrun
      rw [List.filterMap_append, step_dispatched hstep, ih hlater]
      unfold dispatchedItems
      cases hitem : act.item? with
      | none => rw [List.filterMap_cons_none hitem]; rfl
      | some item => rw [List.filterMap_cons_some hitem]; rfl

/-- While the receiver is open: what is delivered is a subsequence of what was dispatched, in
order; what is missing, apart from the item of a call that has not returned, is what the counter
counts; the consumer sees the channel in the order it was filled; and every notice reports a drop
made since the one before. -/
theorem event_accounting {eventQueueSize : Nat} {acts : List (QueueAct α)}
    {final : QueueState α} {log : List (QueueLog α)}
    (hrun : run step (new eventQueueSize) acts = some (final, log))
    (hopen : final.channel.receiverOpen = true) :
    (deliveredItems log final ++ final.phase.inHand.toList).Sublist (dispatchedItems acts) ∧
      UInt64.ofNat ((dispatchedItems acts).length - (deliveredItems log final).length -
        final.phase.inHand.toList.length) = final.shared.droppedEventCount ∧
      log.filterMap QueueLog.received? ++ final.channel.queue =
        log.filterMap QueueLog.enqueued? ∧
      (∀ before after, log = before ++ .notice :: after →
        ∃ item, QueueLog.dropped item ∈ before) ∧
      (∀ before between after, log = before ++ .notice :: (between ++ .notice :: after) →
        ∃ item, QueueLog.dropped item ∈ between) := by
  obtain ⟨-, hmoves⟩ := run_moves hopen hrun
  have hdispatched := run_dispatched hrun
  have hfifo : log.filterMap QueueLog.enqueued? =
      log.filterMap QueueLog.received? ++ final.channel.queue := hmoves.fifo
  have hdrop : ∀ part : List (QueueLog α), part.filterMap QueueLog.dropped? ≠ [] →
      ∃ item, QueueLog.dropped item ∈ part := by
    intro part hpart
    obtain ⟨item, hitem⟩ := List.exists_mem_of_ne_nil _ hpart
    obtain ⟨entry, hentry, heq⟩ := List.mem_filterMap.mp hitem
    cases entry with
    | dropped dropped => exact ⟨dropped, hentry⟩
    | _ => cases heq
  refine ⟨?_, ?_, hfifo.symm, ?_, ?_⟩
  · have horder := hmoves.order
    rw [hdispatched, hfifo] at horder
    exact horder
  · obtain ⟨hcount, hdropped⟩ := hmoves.conservation
    rw [hdispatched, hfifo] at hcount
    have hlength : 0 + (dispatchedItems acts).length = (deliveredItems log final).length +
        (log.filterMap QueueLog.dropped?).length + final.phase.inHand.toList.length := hcount
    have hcounter : final.shared.droppedEventCount =
        0 + UInt64.ofNat (log.filterMap QueueLog.dropped?).length := hdropped
    rw [hcounter, UInt64.zero_add]
    congr 1
    omega
  · rintro before after rfl
    exact hdrop before (hmoves.dropped_before_notice rfl)
  · rintro before between after rfl
    exact hdrop between hmoves.dropped_between_notices

/-- A queue of one slot under `DropIncoming`: one event fills it, the next is dropped, and after a
receive the notice of that drop takes the slot of a third. -/
def overflowingActs : List (QueueAct Nat) :=
  [.dispatchEvent .dropIncoming 0, .trySend, .dispatchEvent .dropIncoming 1, .trySend, .recv,
    .dispatchEvent .dropIncoming 2, .trySend]

theorem event_accounting_overflowingActs :
    ∃ final log, run step (new 1) overflowingActs = some (final, log) ∧
      deliveredItems log final = [0] ∧ final.shared.droppedEventCount = 2 ∧
      (deliveredItems log final ++ final.phase.inHand.toList).Sublist [0, 1, 2] := by
  obtain ⟨final, log, hrun, hopen, hdelivered, hdropped⟩ : ∃ final log,
      run step (new 1) overflowingActs = some (final, log) ∧
        final.channel.receiverOpen = true ∧ deliveredItems log final = [0] ∧
        final.shared.droppedEventCount = 2 := ⟨_, _, rfl, rfl, rfl, rfl⟩
  exact ⟨final, log, hrun, hdelivered, hdropped, (event_accounting hrun hopen).1⟩

end QueueState
end Refinement
end EslTokio
