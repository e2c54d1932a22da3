import EslTokio.Error

/-!
# State shared between the client and the reader task

`SharedState` of `src/connection/mod.rs` and the operations that touch its reply slot.  A waiter is
the sender half of a oneshot channel; the model names it by the command whose `send_command` call
holds the receiver.

The `u32` counter of stale replies is a natural number whose increment is refused at the bound, as
an overflowing `+=` is an arithmetic fault of the source.  Stall durations are real time and left
out.
-/

namespace EslTokio

open Library

/-- Reason for disconnection. -/
inductive DisconnectReason where
  | serverNotice (controlledSessionUuid body : Option Text)
  | heartbeatExpired
  | ioError (message : Text)
  | connectionClosed
  | clientRequested
  | reexecTeardown
  | protocolError (message : Text)
  | accessDenied (message : Text)
deriving DecidableEq, Repr

/-- Connection status held by the status watch. -/
inductive ConnectionStatus where
  | connected
  | disconnected (reason : DisconnectReason)
deriving DecidableEq, Repr

/-- One `send_command` call, and the oneshot channel it creates. -/
abbrev CommandId := Nat

/-- Slot for the in-flight command waiter and its stale-reply counter. -/
structure PendingReply where
  waiting : Option CommandId
  staleReplies : Nat
  readerDead : Bool
deriving DecidableEq, Repr

/-- What the reader does with one command reply. -/
inductive Delivery where
  /-- Discarded: the reply of a command that timed out. -/
  | stale
  /-- Handed to the installed waiter. -/
  | handed (id : CommandId)
  /-- Nobody is waiting. -/
  | unsolicited
deriving DecidableEq, Repr

namespace PendingReply

def new : PendingReply := ⟨none, 0, false⟩

/-- Install a waiter, unless the reader is gone (`send_command`, before the write). -/
def install (p : PendingReply) (id : CommandId) : Except EslError PendingReply :=
  if p.readerDead then .error .connectionClosed
  else .ok { p with waiting := some id }

/-- The write failed, so no reply can be in flight (`send_command`, write error branch). -/
def clearWaiting (p : PendingReply) : PendingReply :=
  { p with waiting := none }

/-- The command timed out: a waiter that is still installed leaves a reply in flight to discard
later (`send_command`, timeout branch).  `none` when the counter would overflow. -/
def expire (p : PendingReply) : Option PendingReply :=
  match p.waiting with
  | none => some p
  | some _ =>
      if p.staleReplies + 1 < 2 ^ 32 then
        some { p with waiting := none, staleReplies := p.staleReplies + 1 }
      else none

/-- Route one reply (`dispatch_message`, command reply arm). -/
def route (p : PendingReply) : Delivery × PendingReply :=
  if p.staleReplies > 0 then (.stale, { p with staleReplies := p.staleReplies - 1 })
  else
    match p.waiting with
    | some id => (.handed id, { p with waiting := none })
    | none => (.unsolicited, p)

/-- Fail the in-flight waiter and refuse later ones (`fail_pending_reply`). -/
def fail (_ : PendingReply) : PendingReply := ⟨none, 0, true⟩

end PendingReply

/-- What the reader does when the event queue is full. -/
inductive EventOverflow where
  | dropIncoming
  | blockFor (budgetMs : Nat)
deriving DecidableEq, Repr

/-- State shared between the client handles and the reader task. -/
structure SharedState where
  pendingReply : PendingReply
  status : ConnectionStatus
  livenessTimeoutMs : Nat
  queueFullNoticeArmed : Bool
  droppedEventCount : UInt64
  eventStallCount : UInt64
deriving DecidableEq, Repr

/-- The shared state a connection is spawned with. -/
def SharedState.new : SharedState := ⟨PendingReply.new, .connected, 0, false, 0, 0⟩

end EslTokio
