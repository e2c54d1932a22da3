import EslTokio.Connection.Client

/-!
# Every reply reaches the command it answers

ESL has no correlation ids: the reader hands a reply to whoever is waiting, after discarding as
many replies as commands timed out.  The invariant behind this is an equation between the replies
the server still owes and the reply slot.

* `Client.outstanding` — the commands whose replies the server owes, in the order they will come.
* `Client.Correlated` — the timed-out commands come first, then the waiting one, and nothing else.
* `Client.SlotFree` — no install replaces the sender of a command whose reply is still owed.
* **`Client.reply_correlation`** — with no call dropped, `Ok` carries the reply to that command.
* **`Client.reply_correlation_of_slotFree`** — with dropped calls, under `SlotFree`.
-/

namespace EslTokio

open Library

namespace CallPhase

variable {μ : Type}

/-- The call holds the writer lock and has installed its sender. -/
def installed : CallPhase μ → Bool
  | .writing => true
  | .clearing _ => true
  | .awaitingReply => true
  | .settlingTimeout _ => true
  | _ => false

/-- The call is past the point where it installs its sender, or over. -/
def issued : CallPhase μ → Bool
  | .notStarted => false
  | .lockingWriter => false
  | .installing => false
  | _ => true

/-- The call wrote its command, or is over. -/
def pastWrite : CallPhase μ → Bool
  | .awaitingReply => true
  | .settlingTimeout _ => true
  | .returned _ => true
  | .dropped _ => true
  | _ => false

theorem locked_of_installed {phase : CallPhase μ} (h : phase.installed = true) :
    phase.locked = true := by
  cases phase <;> first | rfl | cases h

end CallPhase

namespace Client

variable {μ : Type}

/-- The commands whose replies the server still owes, oldest first. -/
def outstanding (s : Client μ) : List CommandId :=
  s.wire.map Reply.command ++ s.unanswered

/-- The reply owed to the sender in the slot, once its command went out. -/
def owedToWaiter (s : Client μ) : List CommandId :=
  match s.pendingReply.waiting with
  | none => []
  | some id => if (s.calls id).written then [id] else []

/-- Replies come in the order: those of timed-out commands, then the one of the waiting command. -/
def Owes (s : Client μ) : Prop :=
  s.pendingReply.readerDead = false →
    s.pendingReply.staleReplies ≤ s.outstanding.length ∧
      s.outstanding.drop s.pendingReply.staleReplies = s.owedToWaiter

/-- The invariant of a connection on which replies reach their commands. -/
structure Correlated (s : Client μ) : Prop where
  -- one call at a time is past the writer lock
  lock : ∀ id, (s.calls id).locked = true → s.writerLock = some id
  -- while a call holds the lock with its sender installed, no other sender is in the slot
  slot : ∀ id, (s.calls id).installed = true →
    ∀ other, s.pendingReply.waiting = some other → other = id
  sender : ∀ id, s.calls id = .writing → s.pendingReply.readerDead = false →
    s.pendingReply.waiting = some id
  owed : s.Owes
  alive : s.reader.reading = true → s.pendingReply.readerDead = false
  past : ∀ id, s.pendingReply.waiting = some id → (s.calls id).issued = true
  mail : ∀ id reply, s.mailbox id = some reply →
    (s.calls id).issued = true ∧ s.pendingReply.waiting ≠ some id ∧ reply.command = id
  result : ∀ id reply, s.calls id = .returned (.ok reply) → reply.command = id

theorem new_correlated : (new : Client μ).Correlated where
  lock := by
    intro id hlocked
    cases hlocked
  slot := by
    intro id hinstalled
    cases hinstalled
  sender := by
    intro id hphase
    cases hphase
  owed := fun _ => ⟨Nat.le_refl 0, rfl⟩
  alive := fun _ => rfl
  past := by
    intro id hwaiting
    cases hwaiting
  mail := by
    intro id reply hmail
    cases hmail
  result := by
    intro id reply hresult
    cases hresult

namespace Correlated

variable {s : Client μ}

/-- The invariant reads the slot, the calls and the two queues, and only that. -/
theorem frame {next : Client μ} (h : s.Correlated)
    (hpending : next.pendingReply = s.pendingReply) (hcalls : next.calls = s.calls)
    (hmailbox : next.mailbox = s.mailbox) (hlock : next.writerLock = s.writerLock)
    (hwire : next.wire = s.wire) (hunanswered : next.unanswered = s.unanswered)
    (hreader : next.reader.reading = true → s.reader.reading = true) : next.Correlated := by
  have houtstanding : next.outstanding = s.outstanding := by
    unfold outstanding
    rw [hwire, hunanswered]
  have howed : next.owedToWaiter = s.owedToWaiter := by
    unfold owedToWaiter
    rw [hpending, hcalls]
  constructor
  · rw [hcalls, hlock]
    exact h.lock
  · rw [hcalls, hpending]
    exact h.slot
  · rw [hcalls, hpending]
    exact h.sender
  · unfold Owes
    rw [hpending, houtstanding, howed]
    exact h.owed
  · intro hreading
    rw [hpending]
    exact h.alive (hreader hreading)
  · rw [hcalls, hpending]
    exact h.past
  · rw [hcalls, hpending, hmailbox]
    exact h.mail
  · rw [hcalls]
    exact h.result

/-- A call moves on to `phase`; what the server owes may change with it. -/
theorem advance (h : s.Correlated) (next : Client μ) (id : CommandId) (phase : CallPhase μ)
    (hcalls : next.calls = Function.update s.calls id phase)
    (hpending : next.pendingReply = s.pendingReply) (hmailbox : next.mailbox = s.mailbox)
    (hlock : next.writerLock = s.writerLock) (hreader : next.reader = s.reader)
    (hlocked : phase.locked = true → s.writerLock = some id)
    (hinstalled : phase.installed = true → (s.calls id).installed = true)
    (hwriting : phase ≠ .writing) (hissued : (s.calls id).issued = true → phase.issued = true)
    (hresult : ∀ reply, phase = .returned (.ok reply) → reply.command = id) (howed : next.Owes) :
    next.Correlated := by
  have hsame : next.calls id = phase := by
    rw [hcalls]
    exact Function.update_self ..
  have hother : ∀ other, other ≠ id → next.calls other = s.calls other := by
    intro other hne
    rw [hcalls]
    exact Function.update_of_ne hne ..
  have hpast : ∀ other, (s.calls other).issued = true → (next.calls other).issued = true := by
    intro other hpast
    by_cases heq : other = id
    · subst heq
      rw [hsame]
      exact hissued hpast
    · rw [hother other heq]
      exact hpast
  refine ⟨?_, ?_, ?_, howed, ?_, ?_, ?_, ?_⟩
  · intro other hphase
    rw [hlock]
    by_cases heq : other = id
    · subst heq
      rw [hsame] at hphase
      exact hlocked hphase
    · rw [hother other heq] at hphase
      exact h.lock other hphase
  · intro other hphase
    rw [hpending]
    by_cases heq : other = id
    · subst heq
      rw [hsame] at hphase
      exact h.slot other (hinstalled hphase)
    · rw [hother other heq] at hphase
      exact h.slot other hphase
  · intro other hphase
    rw [hpending]
    by_cases heq : other = id
    · subst heq
      rw [hsame] at hphase
      exact absurd hphase hwriting
    · rw [hother other heq] at hphase
      exact h.sender other hphase
  · rw [hreader, hpending]
    exact h.alive
  · intro waiter hwaiting
    rw [hpending] at hwaiting
    exact hpast waiter (h.past waiter hwaiting)
  · intro other reply hmail
    rw [hmailbox] at hmail
    obtain ⟨hbefore, hwaiting, hcommand⟩ := h.mail other reply hmail
    rw [hpending]
    exact ⟨hpast other hbefore, hwaiting, hcommand⟩
  · intro other reply hphase
    by_cases heq : other = id
    · subst heq
      rw [hsame] at hphase
      exact hresult reply hphase
    · rw [hother other heq] at hphase
      exact h.result other reply hphase

/-- A call moves on to `phase` and nothing else changes. -/
theorem setCall (h : s.Correlated) {id : CommandId} {phase : CallPhase μ}
    (hlocked : phase.locked = true → s.writerLock = some id)
    (hinstalled : phase.installed = true → (s.calls id).installed = true)
    (hwriting : phase ≠ .writing)
    (hwritten : s.pendingReply.waiting = some id → phase.written = (s.calls id).written)
    (hissued : (s.calls id).issued = true → phase.issued = true)
    (hresult : ∀ reply, phase = .returned (.ok reply) → reply.command = id) :
    (s.setCall id phase).Correlated := by
  have howed : (s.setCall id phase).owedToWaiter = s.owedToWaiter := by
    unfold owedToWaiter
    show (match s.pendingReply.waiting with
      | none => []
      | some waiter => if (Function.update s.calls id phase waiter).written then [waiter]
          else []) = _
    cases hwaiting : s.pendingReply.waiting with
    | none => rfl
    | some waiter =>
        by_cases heq : waiter = id
        · subst heq
          simp only [Function.update_self, hwritten hwaiting]
        · simp only [Function.update_of_ne heq]
  apply h.advance (s.setCall id phase) id phase rfl rfl rfl rfl rfl hlocked hinstalled hwriting
    hissued hresult
  unfold Owes
  rw [howed]
  exact h.owed

/-- The lock can be given up when no call is past it. -/
theorem unlock (h : s.Correlated) (hnone : ∀ id, (s.calls id).locked = false) :
    s.unlock.Correlated := by
  constructor
  · intro id hlocked
    have hfree : (s.calls id).locked = false := hnone id
    rw [show (s.unlock.calls id) = s.calls id from rfl, hfree] at hlocked
    cases hlocked
  · exact h.slot
  · exact h.sender
  · exact h.owed
  · exact h.alive
  · exact h.past
  · exact h.mail
  · exact h.result

/-- Only the holder is past the writer lock. -/
theorem eq_of_locked (h : s.Correlated) {id other : CommandId}
    (hid : (s.calls id).locked = true) (hother : (s.calls other).locked = true) : other = id := by
  have hholder := h.lock id hid
  rw [h.lock other hother] at hholder
  exact Option.some.inj hholder

/-- The holder moves on to `phase`, past its lock, and drops its guard. -/
theorem release (h : s.Correlated) {id : CommandId} {phase : CallPhase μ}
    (hholder : (s.calls id).locked = true) (hlocked : phase.locked = false)
    (hwritten : s.pendingReply.waiting = some id → phase.written = (s.calls id).written)
    (hissued : phase.issued = true)
    (hresult : ∀ reply, phase = .returned (.ok reply) → reply.command = id) :
    (s.unlock.setCall id phase).Correlated := by
  have hphase : (s.setCall id phase).Correlated := by
    apply h.setCall _ _ _ hwritten (fun _ => hissued) hresult
    · intro hlock
      rw [hlocked] at hlock
      cases hlock
    · intro hinstalled
      rw [CallPhase.locked_of_installed hinstalled] at hlocked
      cases hlocked
    · rintro rfl
      cases hlocked
  apply hphase.unlock
  intro other
  by_cases heq : other = id
  · subst heq
    show (Function.update s.calls other phase other).locked = false
    rw [Function.update_self]
    exact hlocked
  · show (Function.update s.calls id phase other).locked = false
    rw [Function.update_of_ne heq]
    cases hother : (s.calls other).locked with
    | false => rfl
    | true => exact absurd (h.eq_of_locked hholder hother) heq

/-- A call takes the free writer lock. -/
theorem acquire (h : s.Correlated) {id : CommandId} (hphase : s.calls id = .lockingWriter)
    (hfree : s.writerLock = none) :
    ({ s with writerLock := some id }.setCall id .installing).Correlated := by
  have hnone : ∀ other, (s.calls other).locked = false := by
    intro other
    cases hlocked : (s.calls other).locked with
    | false => rfl
    | true =>
        have hholder := h.lock other hlocked
        rw [hfree] at hholder
        cases hholder
  have htaken : ({ s with writerLock := some id } : Client μ).Correlated := by
    refine ⟨?_, h.slot, h.sender, h.owed, h.alive, h.past, h.mail, h.result⟩
    intro other hlocked
    have hfalse : (s.calls other).locked = false := hnone other
    rw [show (({ s with writerLock := some id } : Client μ).calls other) = s.calls other from rfl,
      hfalse] at hlocked
    cases hlocked
  apply htaken.setCall
  · intro _
    rfl
  · intro hinstalled
    cases hinstalled
  · simp
  · intro hwaiting
    have hpast := h.past id hwaiting
    rw [hphase] at hpast
    cases hpast
  · intro hissued
    have hpast : (s.calls id).issued = true := hissued
    rw [hphase] at hpast
    cases hpast
  · intro reply hreply
    cases hreply

/-- Nothing is owed to a slot that is empty or holds the sender of an unwritten command. -/
theorem owedToWaiter_eq_nil
    (hslot : ∀ id, s.pendingReply.waiting = some id → (s.calls id).written = false) :
    s.owedToWaiter = [] := by
  unfold owedToWaiter
  cases hwaiting : s.pendingReply.waiting with
  | none => rfl
  | some id => simp [hslot id hwaiting]

/-- The holder installs its sender in a slot to which no reply is owed. -/
theorem install (h : s.Correlated) {id : CommandId} (hphase : s.calls id = .installing)
    (halive : s.pendingReply.readerDead = false)
    (hslot : ∀ other, s.pendingReply.waiting = some other → (s.calls other).written = false) :
    ({ s with pendingReply := { s.pendingReply with waiting := some id } }.setCall id
      .writing).Correlated := by
  have hholder : (s.calls id).locked = true := by
    rw [hphase]
    rfl
  have hfresh : (s.calls id).issued = false := by
    rw [hphase]
    rfl
  have hsame : Function.update s.calls id .writing id = .writing := Function.update_self ..
  have hother : ∀ other, other ≠ id →
      Function.update s.calls id .writing other = s.calls other := by
    intro other hne
    exact Function.update_of_ne hne ..
  have honly : ∀ other, other ≠ id → (s.calls other).locked = false := by
    intro other hne
    cases hlocked : (s.calls other).locked with
    | false => rfl
    | true => exact absurd (h.eq_of_locked hholder hlocked) hne
  constructor
  · intro other hlocked
    have hcase : (Function.update s.calls id .writing other).locked = true := hlocked
    by_cases heq : other = id
    · subst heq
      exact h.lock other hholder
    · rw [hother other heq, honly other heq] at hcase
      cases hcase
  · intro other hinstalled waiter hwaiting
    have hcase : (Function.update s.calls id .writing other).installed = true := hinstalled
    have hwaiter : id = waiter := Option.some.inj hwaiting
    by_cases heq : other = id
    · rw [heq]
      exact hwaiter.symm
    · have hlocked := CallPhase.locked_of_installed hcase
      rw [hother other heq, honly other heq] at hlocked
      cases hlocked
  · intro other hwriting _
    have hcase : Function.update s.calls id .writing other = .writing := hwriting
    by_cases heq : other = id
    · rw [heq]
      rfl
    · have hlocked := honly other heq
      rw [← hother other heq, hcase] at hlocked
      cases hlocked
  · intro _
    obtain ⟨hle, hdrop⟩ := h.owed halive
    refine ⟨hle, ?_⟩
    rw [owedToWaiter_eq_nil hslot] at hdrop
    refine Eq.trans hdrop (Eq.symm (owedToWaiter_eq_nil ?_))
    intro waiter hwaiting
    obtain rfl : id = waiter := Option.some.inj hwaiting
    show (Function.update s.calls id .writing id).written = false
    rw [hsame]
    rfl
  · exact h.alive
  · intro waiter hwaiting
    obtain rfl : id = waiter := Option.some.inj hwaiting
    show (Function.update s.calls id .writing id).issued = true
    rw [hsame]
    rfl
  · intro other reply hmail
    obtain ⟨hpast, -, hcommand⟩ := h.mail other reply hmail
    have hne : other ≠ id := by
      rintro rfl
      rw [hfresh] at hpast
      cases hpast
    refine ⟨?_, ?_, hcommand⟩
    · show (Function.update s.calls id .writing other).issued = true
      rw [hother other hne]
      exact hpast
    · intro hwaiting
      exact hne (Option.some.inj hwaiting).symm
  · intro other reply hreturned
    have hcase : Function.update s.calls id .writing other = .returned (.ok reply) := hreturned
    by_cases heq : other = id
    · subst heq
      rw [hsame] at hcase
      cases hcase
    · rw [hother other heq] at hcase
      exact h.result other reply hcase

/-- The bytes of a command go out: the server owes one more reply, to the sender in the slot. -/
theorem write (h : s.Correlated) {id : CommandId} (hphase : s.calls id = .writing) :
    ({ s with unanswered := s.unanswered ++ [id] }.setCall id .awaitingReply).Correlated := by
  refine h.advance _ id .awaitingReply rfl rfl rfl rfl rfl ?_ ?_ ?_ ?_ ?_ ?_
  · intro _
    apply h.lock id
    rw [hphase]
    rfl
  · intro _
    rw [hphase]
    rfl
  · simp
  · intro _
    rfl
  · intro reply hreply
    cases hreply
  · intro halive
    have hwaiting : s.pendingReply.waiting = some id := h.sender id hphase halive
    obtain ⟨hle, hdrop⟩ := h.owed halive
    have hbefore : s.owedToWaiter = [] := by
      apply owedToWaiter_eq_nil
      intro waiter hwaiter
      rw [hwaiting] at hwaiter
      obtain rfl := Option.some.inj hwaiter
      rw [hphase]
      rfl
    have hafter : owedToWaiter
        ({ s with unanswered := s.unanswered ++ [id] }.setCall id .awaitingReply) = [id] := by
      show (match s.pendingReply.waiting with
        | none => []
        | some waiter => if (Function.update s.calls id .awaitingReply waiter).written then [waiter]
            else []) = _
      rw [hwaiting]
      simp only [Function.update_self]
      rfl
    have houtstanding : outstanding
        ({ s with unanswered := s.unanswered ++ [id] }.setCall id .awaitingReply) =
          s.outstanding ++ [id] := by
      show s.wire.map Reply.command ++ (s.unanswered ++ [id]) = _
      rw [← List.append_assoc]
      rfl
    rw [hafter, houtstanding]
    show s.pendingReply.staleReplies ≤ _ ∧
      (s.outstanding ++ [id]).drop s.pendingReply.staleReplies = _
    rw [hbefore] at hdrop
    rw [List.drop_append_of_le_length hle, hdrop]
    refine ⟨?_, rfl⟩
    rw [List.length_append]
    omega

/-- The server answers the oldest command. -/
theorem answer (h : s.Correlated) {id : CommandId} {rest : List CommandId}
    (hunanswered : s.unanswered = id :: rest) (message : μ) :
    ({ s with unanswered := rest, wire := s.wire ++ [⟨id, message⟩] } : Client μ).Correlated := by
  refine ⟨h.lock, h.slot, h.sender, ?_, h.alive, h.past, h.mail, h.result⟩
  have houtstanding : outstanding
      { s with unanswered := rest, wire := s.wire ++ [⟨id, message⟩] } = s.outstanding := by
    unfold outstanding
    rw [hunanswered]
    simp
  intro halive
  rw [houtstanding]
  exact h.owed halive

/-- A slot to which nothing is owed may be emptied, unless a call is about to write. -/
theorem clearWaiting (h : s.Correlated)
    (hslot : ∀ id, s.pendingReply.waiting = some id → (s.calls id).written = false)
    (hwriting : ∀ id, s.calls id ≠ .writing) :
    ({ s with pendingReply := s.pendingReply.clearWaiting } : Client μ).Correlated := by
  refine ⟨h.lock, ?_, ?_, ?_, h.alive, ?_, ?_, h.result⟩
  · intro id _ other hwaiting
    cases hwaiting
  · intro id hphase
    exact absurd hphase (hwriting id)
  · intro halive
    obtain ⟨hle, hdrop⟩ := h.owed halive
    rw [owedToWaiter_eq_nil hslot] at hdrop
    exact ⟨hle, hdrop⟩
  · intro id hwaiting
    cases hwaiting
  · intro id reply hmail
    obtain ⟨hpast, -, hcommand⟩ := h.mail id reply hmail
    refine ⟨hpast, ?_, hcommand⟩
    intro hwaiting
    cases hwaiting

/-- A timed-out command leaves its reply to be discarded. -/
theorem expire (h : s.Correlated) {id : CommandId} {timeoutMs : Nat} {pending : PendingReply}
    (hphase : s.calls id = .settlingTimeout timeoutMs)
    (hexpire : s.pendingReply.expire = some pending) :
    ({ s with pendingReply := pending } : Client μ).Correlated := by
  unfold PendingReply.expire at hexpire
  cases hwaiting : s.pendingReply.waiting with
  | none =>
      rw [hwaiting] at hexpire
      obtain rfl := Option.some.inj hexpire
      exact h
  | some waiter =>
      rw [hwaiting] at hexpire
      simp only at hexpire
      split at hexpire
      · obtain rfl := Option.some.inj hexpire
        have hinstalled : (s.calls id).installed = true := by
          rw [hphase]
          rfl
        obtain rfl : waiter = id := h.slot id hinstalled waiter hwaiting
        have hholder := CallPhase.locked_of_installed hinstalled
        refine ⟨h.lock, ?_, ?_, ?_, h.alive, ?_, ?_, h.result⟩
        · intro other _ next hnext
          cases hnext
        · intro other hwriting
          have hlocked : (s.calls other).locked = true := by
            rw [show s.calls other = .writing from hwriting]
            rfl
          obtain rfl := h.eq_of_locked hholder hlocked
          rw [show s.calls other = .writing from hwriting] at hphase
          cases hphase
        · intro halive
          obtain ⟨hle, hdrop⟩ := h.owed halive
          have howed : s.owedToWaiter = [waiter] := by
            unfold owedToWaiter
            rw [hwaiting]
            simp only [hphase]
            rfl
          rw [howed] at hdrop
          have hlength : s.outstanding.length - s.pendingReply.staleReplies = 1 := by
            rw [← List.length_drop, hdrop]
            rfl
          show s.pendingReply.staleReplies + 1 ≤ s.outstanding.length ∧
            s.outstanding.drop (s.pendingReply.staleReplies + 1) = []
          refine ⟨by omega, ?_⟩
          apply List.drop_eq_nil_of_le
          omega
        · intro other hnext
          cases hnext
        · intro other reply hmail
          obtain ⟨hpast, -, hcommand⟩ := h.mail other reply hmail
          refine ⟨hpast, ?_, hcommand⟩
          intro hnext
          cases hnext
      · cases hexpire

/-- A reply that the slot has to discard is the reply of a timed-out command. -/
theorem routeStale (h : s.Correlated) {reply : Reply μ} {rest : List (Reply μ)}
    (hwire : s.wire = reply :: rest) (hstale : 0 < s.pendingReply.staleReplies) :
    ({ s with
      wire := rest
      pendingReply := { s.pendingReply with
        staleReplies := s.pendingReply.staleReplies - 1 } } : Client μ).Correlated := by
  refine ⟨h.lock, h.slot, h.sender, ?_, h.alive, h.past, h.mail, h.result⟩
  intro halive
  obtain ⟨hle, hdrop⟩ := h.owed halive
  have houtstanding : s.outstanding =
      reply.command :: (rest.map Reply.command ++ s.unanswered) := by
    unfold outstanding
    rw [hwire]
    rfl
  rw [houtstanding] at hle hdrop
  show s.pendingReply.staleReplies - 1 ≤ (rest.map Reply.command ++ s.unanswered).length ∧
    (rest.map Reply.command ++ s.unanswered).drop (s.pendingReply.staleReplies - 1) = _
  obtain ⟨stale, hsucc⟩ : ∃ stale, s.pendingReply.staleReplies = stale + 1 :=
    ⟨s.pendingReply.staleReplies - 1, by omega⟩
  rw [hsucc] at hle hdrop ⊢
  rw [List.length_cons] at hle
  rw [List.drop_succ_cons] at hdrop
  exact ⟨by omega, hdrop⟩

/-- With none to discard, the next reply is the one owed to the sender in the slot. -/
theorem next_is_waiter (h : s.Correlated) {reply : Reply μ} {rest : List (Reply μ)}
    (halive : s.pendingReply.readerDead = false) (hwire : s.wire = reply :: rest)
    (hstale : s.pendingReply.staleReplies = 0) :
    s.pendingReply.waiting = some reply.command ∧ (s.calls reply.command).written = true ∧
      rest.map Reply.command ++ s.unanswered = [] := by
  obtain ⟨-, hdrop⟩ := h.owed halive
  have houtstanding : s.outstanding =
      reply.command :: (rest.map Reply.command ++ s.unanswered) := by
    unfold outstanding
    rw [hwire]
    rfl
  rw [hstale, List.drop_zero, houtstanding] at hdrop
  unfold owedToWaiter at hdrop
  cases hwaiting : s.pendingReply.waiting with
  | none =>
      rw [hwaiting] at hdrop
      cases hdrop
  | some id =>
      rw [hwaiting] at hdrop
      simp only at hdrop
      split at hdrop
      · rename_i hwritten
        obtain ⟨hcommand, hrest⟩ := List.cons.inj hdrop
        rw [hcommand]
        exact ⟨rfl, hwritten, hrest⟩
      · cases hdrop

/-- The reply is handed to the sender in the slot. -/
theorem routeHanded (h : s.Correlated) {reply : Reply μ} {rest : List (Reply μ)}
    (halive : s.pendingReply.readerDead = false) (hwire : s.wire = reply :: rest)
    (hstale : s.pendingReply.staleReplies = 0) :
    (({ s with
      wire := rest
      pendingReply := { s.pendingReply with waiting := none } } : Client μ).deliver reply.command
        reply).Correlated := by
  obtain ⟨hwaiting, hwritten, hrest⟩ := h.next_is_waiter halive hwire hstale
  have hemptied : ({ s with
      wire := rest
      pendingReply := { s.pendingReply with waiting := none } } : Client μ).Correlated := by
    refine ⟨h.lock, ?_, ?_, ?_, h.alive, ?_, ?_, h.result⟩
    · intro id _ other hnone
      cases hnone
    · intro id hwriting _
      -- A call about to write has its own sender in the slot, and its command is not written.
      have hsender := h.sender id hwriting halive
      rw [hwaiting] at hsender
      obtain rfl := Option.some.inj hsender
      rw [show s.calls reply.command = .writing from hwriting] at hwritten
      cases hwritten
    · intro _
      show s.pendingReply.staleReplies ≤ (rest.map Reply.command ++ s.unanswered).length ∧
        (rest.map Reply.command ++ s.unanswered).drop s.pendingReply.staleReplies = []
      rw [hrest, hstale]
      exact ⟨Nat.le_refl 0, rfl⟩
    · intro id hnone
      cases hnone
    · intro id mail hmail
      obtain ⟨hpast, -, hcommand⟩ := h.mail id mail hmail
      refine ⟨hpast, ?_, hcommand⟩
      intro hnone
      cases hnone
  unfold deliver
  split
  · refine ⟨hemptied.lock, hemptied.slot, hemptied.sender, hemptied.owed, hemptied.alive,
      hemptied.past, ?_, hemptied.result⟩
    intro id mail hmail
    have hcase : Function.update s.mailbox reply.command (some reply) id = some mail := hmail
    by_cases heq : id = reply.command
    · subst heq
      rw [Function.update_self] at hcase
      obtain rfl := Option.some.inj hcase
      refine ⟨h.past _ hwaiting, ?_, rfl⟩
      intro hnone
      cases hnone
    · rw [Function.update_of_ne heq] at hcase
      exact hemptied.mail id mail hcase
  · exact hemptied

/-- The reader exits: the slot is emptied for good. -/
theorem fail (h : s.Correlated) {phase : ReaderPhase} (hphase : phase.reading = false) :
    ({ s with pendingReply := s.pendingReply.fail, reader := phase } : Client μ).Correlated := by
  refine ⟨h.lock, ?_, ?_, ?_, ?_, ?_, ?_, h.result⟩
  · intro id _ other hwaiting
    cases hwaiting
  · intro id _ halive
    cases halive
  · intro halive
    cases halive
  · intro hreading
    rw [show phase.reading = true from hreading] at hphase
    cases hphase
  · intro id hwaiting
    cases hwaiting
  · intro id reply hmail
    obtain ⟨hpast, -, hcommand⟩ := h.mail id reply hmail
    refine ⟨hpast, ?_, hcommand⟩
    intro hwaiting
    cases hwaiting

end Correlated

/-! ## Steps and runs -/

/-- No call installs its sender over the sender of a command whose reply is still owed. -/
def SlotFree (s : Client μ) : ClientAct μ → Prop
  | .call id .install => s.calls id = .installing →
      ∀ other, s.pendingReply.waiting = some other → (s.calls other).written = false
  | _ => True

/-- A call that has not installed its sender is not waiting. -/
theorem Correlated.not_waiting {s : Client μ} (h : s.Correlated) {id : CommandId}
    (hfresh : (s.calls id).issued = false) : s.pendingReply.waiting ≠ some id := by
  intro hwaiting
  have hpast := h.past id hwaiting
  rw [hfresh] at hpast
  cases hpast

theorem expire_waiting {before after : PendingReply} (h : before.expire = some after) :
    after.waiting = none := by
  unfold PendingReply.expire at h
  split at h
  · rename_i hnone
    obtain rfl := Option.some.inj h
    exact hnone
  · split at h
    · obtain rfl := Option.some.inj h
      rfl
    · cases h

/-- The caller gives up before it has the writer lock, or before its first await. -/
theorem Correlated.leave {s : Client μ} (h : s.Correlated) {id : CommandId} {phase : CallPhase μ}
    (hfresh : (s.calls id).issued = false) (hlocked : phase.locked = false)
    (hresult : ∀ reply, phase = .returned (.ok reply) → reply.command = id) :
    (s.setCall id phase).Correlated := by
  apply h.setCall _ _ _ _ _ hresult
  · intro hlock
    rw [hlocked] at hlock
    cases hlock
  · intro hinstalled
    rw [CallPhase.locked_of_installed hinstalled] at hlocked
    cases hlocked
  · rintro rfl
    cases hlocked
  · intro hwaiting
    exact absurd hwaiting (h.not_waiting hfresh)
  · intro hissued
    rw [hfresh] at hissued
    cases hissued

/-- One piece of `send_command`, case by case. -/
theorem callStep_correlated {s next : Client μ} {id : CommandId} {act : CallAct}
    {log : List (ClientLog μ)} (h : s.Correlated) (hguard : s.SlotFree (.call id act))
    (hstep : s.callStep id act = some (next, log)) : next.Correlated := by
  have hnoResult : ∀ (e : EslError) (reply : Reply μ),
      CallPhase.returned (.error e) = .returned (.ok reply) → reply.command = id := by
    intro e reply hreply
    cases hreply
  cases callStep_move hstep with
  | started hphase _ =>
      apply h.leave (by rw [hphase]; rfl) rfl
      intro reply hreply
      cases hreply
  | refused hphase => exact h.leave (by rw [hphase]; rfl) rfl (hnoResult .notConnected)
  | locked hphase hfree => exact h.acquire hphase hfree
  | readerGone hphase _ =>
      apply h.release (by rw [hphase]; rfl) rfl _ rfl (hnoResult _)
      intro hwaiting
      exact absurd hwaiting (h.not_waiting (by rw [hphase]; rfl))
  | installed hphase halive => exact h.install hphase halive (hguard hphase)
  | wrote hphase _ => exact h.write hphase
  | writeFailed message hphase =>
      have hholder : s.writerLock = some id := h.lock id (by rw [hphase]; rfl)
      apply h.setCall (fun _ => hholder) _ _ _ (fun _ => rfl)
      · intro reply hreply
        cases hreply
      · intro _
        rw [hphase]
        rfl
      · simp
      · intro _
        rw [hphase]
        rfl
  | cleared message hphase =>
      have hholder : (s.calls id).locked = true := by
        rw [hphase]
        rfl
      have hcleared : ({ s with
          pendingReply := s.pendingReply.clearWaiting } : Client μ).Correlated := by
        apply h.clearWaiting
        · intro other hwaiting
          obtain rfl := h.slot id (by rw [hphase]; rfl) other hwaiting
          rw [hphase]
          rfl
        · intro other hwriting
          have hlocked : (s.calls other).locked = true := by
            rw [hwriting]
            rfl
          obtain rfl := h.eq_of_locked hholder hlocked
          rw [hwriting] at hphase
          cases hphase
      apply hcleared.release hholder rfl _ rfl (hnoResult _)
      intro hwaiting
      cases hwaiting
  | replied reply hphase hmail =>
      obtain ⟨-, hwaiting, hcommand⟩ := h.mail id reply hmail
      apply h.release (by rw [hphase]; rfl) rfl _ rfl
      · intro returned hreturned
        cases hreturned
        exact hcommand
      · intro hstill
        exact absurd hstill hwaiting
  | closed hphase _ hgone =>
      apply h.release (by rw [hphase]; rfl) rfl _ rfl (hnoResult _)
      intro hstill
      exact absurd hstill hgone
  | timedOut timeoutMs hphase _ _ =>
      have hholder : s.writerLock = some id := h.lock id (by rw [hphase]; rfl)
      apply h.setCall (fun _ => hholder) _ _ _ (fun _ => rfl)
      · intro reply hreply
        cases hreply
      · intro _
        rw [hphase]
        rfl
      · simp
      · intro _
        rw [hphase]
        rfl
  | settled timeoutMs pending hphase hexpire =>
      have hexpired := h.expire hphase hexpire
      apply hexpired.release (by rw [hphase]; rfl) rfl _ rfl (hnoResult _)
      intro hwaiting
      have hstill : pending.waiting = some id := hwaiting
      rw [expire_waiting hexpire] at hstill
      cases hstill
  | left hphase =>
      apply h.leave (by rw [hphase]; rfl) rfl
      intro reply hreply
      cases hreply
  | abandoned hlocked =>
      refine h.release hlocked rfl (fun _ => rfl) rfl ?_
      intro reply hreply
      cases hreply

theorem routeReply_correlated {s : Client μ} (h : s.Correlated) {reply : Reply μ}
    {rest : List (Reply μ)} (hreading : s.reader.reading = true) (hwire : s.wire = reply :: rest) :
    ({ s with wire := rest }.routeReply reply).1.Correlated := by
  have halive := h.alive hreading
  by_cases hstale : 0 < s.pendingReply.staleReplies
  · have hroute : s.pendingReply.route = (.stale, { s.pendingReply with
        staleReplies := s.pendingReply.staleReplies - 1 }) := by
      simp [PendingReply.route, hstale]
    simp only [routeReply, hroute]
    exact h.routeStale hwire hstale
  · have hzero : s.pendingReply.staleReplies = 0 := by omega
    obtain ⟨hwaiting, -⟩ := h.next_is_waiter halive hwire hzero
    have hroute : s.pendingReply.route =
        (.handed reply.command, { s.pendingReply with waiting := none }) := by
      simp [PendingReply.route, hstale, hwaiting]
    simp only [routeReply, hroute]
    exact h.routeHanded halive hwire hzero

theorem readerStep_correlated {s next : Client μ} {act : ReaderAct} {log : List (ClientLog μ)}
    (h : s.Correlated) (hstep : s.readerStep act = some (next, log)) : next.Correlated := by
  -- Once the loop has returned there is nothing left to say about the reader.
  have hreturned : ∀ next : Client μ, next.pendingReply = s.pendingReply → next.calls = s.calls →
      next.mailbox = s.mailbox → next.writerLock = s.writerLock → next.wire = s.wire →
      next.unanswered = s.unanswered → next.reader.reading = false → next.Correlated := by
    intro next hpending hcalls hmailbox hlock hwire hunanswered hreading
    apply h.frame hpending hcalls hmailbox hlock hwire hunanswered
    intro hstill
    rw [hreading] at hstill
    cases hstill
  cases readerStep_move hstep with
  | routed reply rest hreading hwire => exact routeReply_correlated h hreading hwire
  | stopped hrunning _ =>
      refine h.frame rfl rfl rfl rfl rfl rfl ?_
      intro _
      rw [hrunning]
      rfl
  | exited => exact hreturned _ rfl rfl rfl rfl rfl rfl rfl
  | exitedWith => exact hreturned _ rfl rfl rfl rfl rfl rfl rfl
  | silent => exact hreturned _ rfl rfl rfl rfl rfl rfl rfl
  | published => exact hreturned _ rfl rfl rfl rfl rfl rfl rfl
  | failed => exact h.fail rfl

theorem step_correlated {s next : Client μ} {act : ClientAct μ} {log : List (ClientLog μ)}
    (h : s.Correlated) (hguard : s.SlotFree act) (hstep : s.step act = some (next, log)) :
    next.Correlated := by
  cases act with
  | call id act => exact callStep_correlated h hguard hstep
  | answer message =>
      simp only [step] at hstep
      split at hstep
      · cases hstep
      · rename_i id rest hunanswered
        obtain ⟨rfl, -⟩ := by simpa using hstep
        exact h.answer hunanswered message
  | reader act => exact readerStep_correlated h hstep
  | teardown act =>
      cases teardownStep_move hstep <;> exact h.frame rfl rfl rfl rfl rfl rfl id
  | disconnect =>
      obtain ⟨rfl, -⟩ := by simpa [step] using hstep
      exact h.frame rfl rfl rfl rfl rfl rfl id
  | shutdown =>
      simp only [step] at hstep
      split at hstep
      · obtain ⟨rfl, -⟩ := by simpa using hstep
        exact h.frame rfl rfl rfl rfl rfl rfl id
      · cases hstep
  | setLivenessTimeout timeoutMs =>
      obtain ⟨rfl, -⟩ := by simpa [step] using hstep
      exact h.frame rfl rfl rfl rfl rfl rfl id

/-- Along a run that never installs over a reply still owed, the slot and the server agree. -/
theorem run_correlated {acts : List (ClientAct μ)} {start final : Client μ}
    {log : List (ClientLog μ)} (hstart : start.Correlated)
    (hguard : Along step SlotFree start acts) (hrun : run step start acts = some (final, log)) :
    final.Correlated :=
  run_invariant (fun _ _ _ _ h hg hs => step_correlated h hg hs) hstart hguard hrun

/-! ## No reply is delivered twice -/

/-- The commands written, in order. -/
def writtenCommands (log : List (ClientLog μ)) : List CommandId :=
  log.filterMap fun
    | .wrote id => some id
    | _ => none

/-- The replies the reader routed, in order. -/
def routedReplies (log : List (ClientLog μ)) : List (Reply μ) :=
  log.filterMap fun
    | .routed reply _ => some reply
    | _ => none

theorem writtenCommands_append (first second : List (ClientLog μ)) :
    writtenCommands (first ++ second) = writtenCommands first ++ writtenCommands second :=
  List.filterMap_append ..

theorem routedReplies_append (first second : List (ClientLog μ)) :
    routedReplies (first ++ second) = routedReplies first ++ routedReplies second :=
  List.filterMap_append ..

/-- The server answers once for each written command, in order, and the reader takes each answer
once. -/
theorem step_replies {s next : Client μ} {act : ClientAct μ} {log : List (ClientLog μ)}
    (hstep : s.step act = some (next, log)) :
    (routedReplies log).map Reply.command ++ next.outstanding =
      s.outstanding ++ writtenCommands log := by
  -- Most steps neither write nor route, and leave both queues alone.
  have hquiet : ∀ other : Client μ, other.wire = s.wire → other.unanswered = s.unanswered →
      other.outstanding = s.outstanding ++ [] := by
    intro other hwire hunanswered
    unfold outstanding
    rw [hwire, hunanswered, List.append_nil]
  cases act with
  | call id act =>
      cases callStep_move hstep with
      | wrote hphase hopen =>
          show s.wire.map Reply.command ++ (s.unanswered ++ [id]) = s.outstanding ++ [id]
          rw [← List.append_assoc]
          rfl
      | _ => exact hquiet _ rfl rfl
  | answer message =>
      simp only [step] at hstep
      split at hstep
      · cases hstep
      · rename_i id rest hunanswered
        obtain ⟨rfl, rfl⟩ := by simpa using hstep
        show (s.wire ++ [(⟨id, message⟩ : Reply μ)]).map Reply.command ++ rest = s.outstanding ++ []
        unfold outstanding
        rw [hunanswered]
        simp
  | reader act =>
      cases readerStep_move hstep with
      | routed reply rest _ hwire =>
          show reply.command :: outstanding ({ s with wire := rest }.routeReply reply).1 =
            s.outstanding ++ []
          have hframe := routeReply_frame { s with wire := rest } reply
          unfold outstanding
          rw [hframe.wire, hframe.unanswered, hwire]
          simp
      | _ => exact hquiet _ rfl rfl
  | teardown act => cases teardownStep_move hstep <;> exact hquiet _ rfl rfl
  | disconnect =>
      obtain ⟨rfl, rfl⟩ := by simpa [step] using hstep
      exact hquiet _ rfl rfl
  | shutdown =>
      simp only [step] at hstep
      split at hstep
      · obtain ⟨rfl, rfl⟩ := by simpa using hstep
        exact hquiet _ rfl rfl
      · cases hstep
  | setLivenessTimeout timeoutMs =>
      obtain ⟨rfl, rfl⟩ := by simpa [step] using hstep
      exact hquiet _ rfl rfl

theorem run_replies {start final : Client μ} {acts : List (ClientAct μ)} {log : List (ClientLog μ)}
    (hrun : run step start acts = some (final, log)) :
    (routedReplies log).map Reply.command ++ final.outstanding =
      start.outstanding ++ writtenCommands log := by
  refine run_history (motive := fun s log => (routedReplies log).map Reply.command ++
    s.outstanding = start.outstanding ++ writtenCommands log) ?_ ?_ hrun
  · intro s log act next outputs hbefore hstep
    have hmove := step_replies hstep
    rw [routedReplies_append, writtenCommands_append, List.map_append, List.append_assoc, hmove,
      ← List.append_assoc, hbefore, List.append_assoc]
  · show start.outstanding = start.outstanding ++ []
    rw [List.append_nil]

/-- No call goes back before its write. -/
theorem step_pastWrite {s next : Client μ} {act : ClientAct μ} {log : List (ClientLog μ)}
    (hstep : s.step act = some (next, log)) (id : CommandId)
    (hpast : (s.calls id).pastWrite = true) : (next.calls id).pastWrite = true := by
  have hmoved : ∀ (caller : CommandId) (phase : CallPhase μ),
      (s.calls caller).pastWrite = false ∨ phase.pastWrite = true →
      (Function.update s.calls caller phase id).pastWrite = true := by
    intro caller phase hphase
    by_cases heq : id = caller
    · subst heq
      rw [Function.update_self]
      rcases hphase with hbefore | hafter
      · rw [hpast] at hbefore
        cases hbefore
      · exact hafter
    · rw [Function.update_of_ne heq]
      exact hpast
  cases act with
  | call caller act =>
      cases callStep_move hstep <;> first
        | exact hmoved caller _ (Or.inr rfl)
        | exact hmoved caller _ (Or.inl (by simp only [*]; rfl))
  | reader act =>
      cases readerStep_move hstep with
      | routed reply rest _ _ =>
          rw [(routeReply_frame { s with wire := rest } reply).calls]
          exact hpast
      | _ => exact hpast
  | teardown act => cases teardownStep_move hstep <;> exact hpast
  | answer message =>
      simp only [step] at hstep
      split at hstep
      · cases hstep
      · obtain ⟨rfl, -⟩ := by simpa using hstep
        exact hpast
  | disconnect =>
      obtain ⟨rfl, -⟩ := by simpa [step] using hstep
      exact hpast
  | shutdown =>
      simp only [step] at hstep
      split at hstep
      · obtain ⟨rfl, -⟩ := by simpa using hstep
        exact hpast
      · cases hstep
  | setLivenessTimeout timeoutMs =>
      obtain ⟨rfl, -⟩ := by simpa [step] using hstep
      exact hpast

/-- A step writes at most one command, and that one for the first time. -/
theorem step_written {s next : Client μ} {act : ClientAct μ} {log : List (ClientLog μ)}
    (hstep : s.step act = some (next, log)) :
    writtenCommands log = [] ∨ ∃ id, act = .call id .write ∧ writtenCommands log = [id] ∧
      (s.calls id).pastWrite = false ∧ (next.calls id).pastWrite = true := by
  cases act with
  | call id act =>
      cases callStep_move hstep with
      | wrote hphase _ =>
          refine Or.inr ⟨id, rfl, rfl, ?_, ?_⟩
          · rw [hphase]
            rfl
          · show (Function.update s.calls id .awaitingReply id).pastWrite = true
            rw [Function.update_self]
            rfl
      | _ => exact Or.inl rfl
  | reader act => cases readerStep_move hstep <;> exact Or.inl rfl
  | teardown act => cases teardownStep_move hstep <;> exact Or.inl rfl
  | answer message =>
      simp only [step] at hstep
      split at hstep
      · cases hstep
      · obtain ⟨-, rfl⟩ := by simpa using hstep
        exact Or.inl rfl
  | disconnect =>
      obtain ⟨-, rfl⟩ := by simpa [step] using hstep
      exact Or.inl rfl
  | shutdown =>
      simp only [step] at hstep
      split at hstep
      · obtain ⟨-, rfl⟩ := by simpa using hstep
        exact Or.inl rfl
      · cases hstep
  | setLivenessTimeout timeoutMs =>
      obtain ⟨-, rfl⟩ := by simpa [step] using hstep
      exact Or.inl rfl

/-- Every command is written at most once. -/
theorem run_written {start final : Client μ} {acts : List (ClientAct μ)} {log : List (ClientLog μ)}
    (hrun : run step start acts = some (final, log)) :
    (writtenCommands log).Nodup ∧
      ∀ id ∈ writtenCommands log, (final.calls id).pastWrite = true := by
  refine run_history (motive := fun s log => (writtenCommands log).Nodup ∧
    ∀ id ∈ writtenCommands log, (s.calls id).pastWrite = true) ?_ ?_ hrun
  · intro s log act next outputs hbefore hstep
    obtain ⟨hnodup, hpast⟩ := hbefore
    have hkept : ∀ id ∈ writtenCommands log, (next.calls id).pastWrite = true := by
      intro id hid
      exact step_pastWrite hstep id (hpast id hid)
    rw [writtenCommands_append]
    rcases step_written hstep with hnone | ⟨id, -, hone, hfirst, hafter⟩
    · rw [hnone, List.append_nil]
      exact ⟨hnodup, hkept⟩
    · rw [hone]
      have hnew : id ∉ writtenCommands log := by
        intro hid
        rw [hpast id hid] at hfirst
        cases hfirst
      refine ⟨List.nodup_append.mpr ⟨hnodup, List.pairwise_singleton _ id, ?_⟩, ?_⟩
      · intro written hwritten other hother
        rw [List.mem_singleton.mp hother]
        rintro rfl
        exact hnew hwritten
      · intro written hwritten
        rcases List.mem_append.mp hwritten with hold | hone'
        · exact hkept written hold
        · rw [List.mem_singleton.mp hone']
          exact hafter
  · exact ⟨List.nodup_nil, fun id hid => by cases hid⟩

/-- A command written in a run had not been written when the run began. -/
theorem written_fresh {start final : Client μ} {acts : List (ClientAct μ)}
    {log : List (ClientLog μ)} (hrun : run step start acts = some (final, log)) {id : CommandId}
    (hid : id ∈ writtenCommands log) : (start.calls id).pastWrite = false := by
  induction acts generalizing start log with
  | nil =>
      obtain ⟨rfl, rfl⟩ : start = final ∧ [] = log := by simpa [run] using hrun
      cases hid
  | cons act rest ih =>
      obtain ⟨next, outputs, later, hstep, hlater, rfl⟩ := run_cons_eq_some hrun
      rw [writtenCommands_append] at hid
      rcases List.mem_append.mp hid with hfirst | hlast
      · rcases step_written hstep with hnone | ⟨written, -, hone, hfresh, -⟩
        · rw [hnone] at hfirst
          cases hfirst
        · rw [hone] at hfirst
          rw [List.mem_singleton.mp hfirst]
          exact hfresh
      · have hnext := ih hlater hlast
        cases hpast : (start.calls id).pastWrite with
        | false => rfl
        | true =>
            rw [step_pastWrite hstep id hpast] at hnext
            cases hnext

/-- No reply is routed twice. -/
theorem routed_nodup {final : Client μ} {acts : List (ClientAct μ)} {log : List (ClientLog μ)}
    (hrun : run step new acts = some (final, log)) :
    ((routedReplies log).map Reply.command).Nodup := by
  have hall : (routedReplies log).map Reply.command ++ final.outstanding =
      [] ++ writtenCommands log := run_replies hrun
  have hnodup := (run_written hrun).1
  rw [List.nil_append] at hall
  rw [← hall] at hnodup
  exact (List.nodup_append.mp hnodup).1

/-! ## Runs without a dropped call -/

/-- The sender in the slot belongs to the call that holds the writer lock. -/
def Held (s : Client μ) : Prop :=
  ∀ id, s.pendingReply.waiting = some id → (s.calls id).installed = true

theorem slotFree_of_held {s : Client μ} (h : s.Correlated) (hheld : s.Held) (act : ClientAct μ) :
    s.SlotFree act := by
  cases act with
  | call id act =>
      cases act with
      | install =>
          intro hphase other hwaiting
          have hinstalled := hheld other hwaiting
          have hlocked : (s.calls id).locked = true := by
            rw [hphase]
            rfl
          obtain rfl := h.eq_of_locked hlocked (CallPhase.locked_of_installed hinstalled)
          rw [hphase]
          rfl
      | _ => trivial
  | _ => trivial

/-- A call that moves within the lock, or leaves a slot that is not its own, keeps `Held`. -/
theorem Held.update {s : Client μ} (hheld : s.Held) {id : CommandId} {phase : CallPhase μ}
    (hphase : phase.installed = true ∨ s.pendingReply.waiting ≠ some id) :
    ∀ waiter, s.pendingReply.waiting = some waiter →
      (Function.update s.calls id phase waiter).installed = true := by
  intro waiter hwaiting
  by_cases heq : waiter = id
  · subst heq
    rw [Function.update_self]
    rcases hphase with hinstalled | hgone
    · exact hinstalled
    · exact absurd hwaiting hgone
  · rw [Function.update_of_ne heq]
    exact hheld waiter hwaiting

theorem callStep_held {s next : Client μ} {id : CommandId} {act : CallAct}
    {log : List (ClientLog μ)} (h : s.Correlated) (hheld : s.Held) (hact : act ≠ .drop)
    (hstep : s.callStep id act = some (next, log)) : next.Held := by
  have hfresh : ∀ phase, s.calls id = phase → phase.installed = false →
      s.pendingReply.waiting ≠ some id := by
    intro phase hphase hfalse hwaiting
    have hinstalled := hheld id hwaiting
    rw [hphase, hfalse] at hinstalled
    cases hinstalled
  cases callStep_move hstep with
  | started hphase _ => exact hheld.update (Or.inr (hfresh _ hphase rfl))
  | refused hphase => exact hheld.update (Or.inr (hfresh _ hphase rfl))
  | locked hphase _ => exact hheld.update (Or.inr (hfresh _ hphase rfl))
  | readerGone hphase _ => exact hheld.update (Or.inr (hfresh _ hphase rfl))
  | installed hphase _ =>
      intro waiter hwaiting
      obtain rfl : id = waiter := Option.some.inj hwaiting
      show (Function.update s.calls id .writing id).installed = true
      rw [Function.update_self]
      rfl
  | wrote hphase _ => exact hheld.update (Or.inl rfl)
  | writeFailed message hphase => exact hheld.update (Or.inl rfl)
  | cleared message hphase =>
      intro waiter hwaiting
      cases hwaiting
  | replied reply hphase hmail =>
      obtain ⟨-, hgone, -⟩ := h.mail id reply hmail
      exact hheld.update (Or.inr hgone)
  | closed hphase _ hgone => exact hheld.update (Or.inr hgone)
  | timedOut timeoutMs hphase _ _ => exact hheld.update (Or.inl rfl)
  | settled timeoutMs pending hphase hexpire =>
      intro waiter hwaiting
      have hstill : pending.waiting = some waiter := hwaiting
      rw [expire_waiting hexpire] at hstill
      cases hstill
  | left => exact absurd rfl hact
  | abandoned => exact absurd rfl hact

theorem step_held {s next : Client μ} {act : ClientAct μ} {log : List (ClientLog μ)}
    (h : s.Correlated) (hheld : s.Held) (hact : act.drops = false)
    (hstep : s.step act = some (next, log)) : next.Held := by
  cases act with
  | call id act =>
      apply callStep_held h hheld _ hstep
      rintro rfl
      cases hact
  | reader act =>
      cases readerStep_move hstep with
      | routed reply rest _ _ =>
          have hframe := routeReply_frame { s with wire := rest } reply
          intro waiter hwaiter
          rw [hframe.calls]
          rcases hframe.waiting with hsame | hnone
          · rw [hsame] at hwaiter
            exact hheld waiter hwaiter
          · rw [hnone] at hwaiter
            cases hwaiter
      | failed =>
          intro waiter hwaiting
          cases hwaiting
      | _ => exact hheld
  | teardown act => cases teardownStep_move hstep <;> exact hheld
  | answer message =>
      simp only [step] at hstep
      split at hstep
      · cases hstep
      · obtain ⟨rfl, -⟩ := by simpa using hstep
        exact hheld
  | disconnect =>
      obtain ⟨rfl, -⟩ := by simpa [step] using hstep
      exact hheld
  | shutdown =>
      simp only [step] at hstep
      split at hstep
      · obtain ⟨rfl, -⟩ := by simpa using hstep
        exact hheld
      · cases hstep
  | setLivenessTimeout timeoutMs =>
      obtain ⟨rfl, -⟩ := by simpa [step] using hstep
      exact hheld

/-- Where no call is dropped, every install finds the slot free. -/
theorem along_slotFree {acts : List (ClientAct μ)} {start : Client μ} (hstart : start.Correlated)
    (hheld : start.Held) (hacts : ∀ act ∈ acts, act.drops = false) :
    Along step SlotFree start acts := by
  refine along_of_invariant (motive := fun s => s.Correlated ∧ s.Held) ?_ ?_ ⟨hstart, hheld⟩
    hacts
  · intro s act next outputs hboth hact hstep
    have hfree := slotFree_of_held hboth.1 hboth.2 act
    exact ⟨step_correlated hboth.1 hfree hstep, step_held hboth.1 hboth.2 hact hstep⟩
  · intro s act hboth _
    exact slotFree_of_held hboth.1 hboth.2 act

/-! ## Correlation -/

/-- Over any interleaving of calls, timeouts, write failures, replies and the exit of the reader, a
call that returns `Ok` returns the reply to its own command, and no reply is delivered twice. -/
theorem reply_correlation {acts : List (ClientAct μ)} {final : Client μ}
    {log : List (ClientLog μ)} (hacts : ∀ act ∈ acts, act.drops = false)
    (hrun : run step new acts = some (final, log)) :
    (∀ id reply, final.calls id = .returned (.ok reply) → reply.command = id) ∧
      ((routedReplies log).map Reply.command).Nodup := by
  have hheld : (new : Client μ).Held := by
    intro id hwaiting
    cases hwaiting
  have hguard := along_slotFree new_correlated hheld hacts
  exact ⟨(run_correlated new_correlated hguard hrun).result, routed_nodup hrun⟩

/-- Command 0 times out and its reply comes late, after command 1 has been written. -/
def lateReplyActs : List (ClientAct Nat) :=
  [.call 0 .start, .call 0 .lockWriter, .call 0 .install, .call 0 .write, .call 0 (.timeout 5000),
    .call 0 .settle, .call 1 .start, .call 1 .lockWriter, .call 1 .install, .call 1 .write,
    .answer 10, .answer 11, .reader .route, .reader .route, .call 1 .wake]

theorem reply_correlation_lateReply :
    ∃ final log, run step new lateReplyActs = some (final, log) ∧
      final.calls 0 = .returned (.error (.timeout 5000)) ∧
      final.calls 1 = .returned (.ok ⟨1, 11⟩) ∧
      ∀ id reply, final.calls id = .returned (.ok reply) → reply.command = id := by
  obtain ⟨final, log, hrun, hzero, hone⟩ : ∃ final log,
      run step new lateReplyActs = some (final, log) ∧
        final.calls 0 = .returned (.error (.timeout 5000)) ∧
        final.calls 1 = .returned (.ok ⟨1, 11⟩) := ⟨_, _, rfl, rfl, rfl⟩
  have hacts : ∀ act ∈ lateReplyActs, act.drops = false := by
    simp [lateReplyActs, ClientAct.drops]
  exact ⟨final, log, hrun, hzero, hone, (reply_correlation hacts hrun).1⟩

/-- With dropped calls the same holds as long as no install replaces the sender of a command whose
reply is still owed: the reply of a dropped command reaches nobody else. -/
theorem reply_correlation_of_slotFree {acts : List (ClientAct μ)} {final : Client μ}
    {log : List (ClientLog μ)} (hguard : Along step SlotFree new acts)
    (hrun : run step new acts = some (final, log)) {id : CommandId} {reply : Reply μ}
    (hreturned : final.calls id = .returned (.ok reply)) :
    reply.command = id ∧
      ∀ other written, final.calls other = .dropped written → reply.command ≠ other := by
  have hown := (run_correlated new_correlated hguard hrun).result id reply hreturned
  refine ⟨hown, ?_⟩
  rintro other written hdropped rfl
  rw [hown, hreturned] at hdropped
  cases hdropped

/-- Command 0 is dropped after its write; its reply comes before command 1 installs. -/
def droppedActs : List (ClientAct Nat) :=
  [.call 0 .start, .call 0 .lockWriter, .call 0 .install, .call 0 .write, .call 0 .drop,
    .answer 10, .reader .route, .call 1 .start, .call 1 .lockWriter, .call 1 .install,
    .call 1 .write, .answer 11, .reader .route, .call 1 .wake]

theorem reply_correlation_of_slotFree_droppedActs :
    ∃ final log, run step new droppedActs = some (final, log) ∧
      final.calls 0 = .dropped true ∧ final.calls 1 = .returned (.ok ⟨1, 11⟩) ∧
      (⟨1, 11⟩ : Reply Nat).command ≠ 0 := by
  obtain ⟨final, log, hrun, hzero, hone⟩ : ∃ final log,
      run step new droppedActs = some (final, log) ∧ final.calls 0 = .dropped true ∧
        final.calls 1 = .returned (.ok ⟨1, 11⟩) := ⟨_, _, rfl, rfl, rfl⟩
  have hguard : Along step SlotFree new droppedActs := by
    -- Both installs find the slot empty; the other steps are not guarded.
    refine .cons trivial rfl (.cons trivial rfl (.cons ?_ rfl (.cons trivial rfl (.cons trivial rfl
      (.cons trivial rfl (.cons trivial rfl (.cons trivial rfl (.cons trivial rfl (.cons ?_ rfl
      (.cons trivial rfl (.cons trivial rfl (.cons trivial rfl (.cons trivial rfl
        trivial)))))))))))))
    · intro _ other hwaiting
      cases hwaiting
    · intro _ other hwaiting
      cases hwaiting
  exact ⟨final, log, hrun, hzero, hone,
    (reply_correlation_of_slotFree hguard hrun hone).2 0 true hzero⟩

/-- Command 0 is dropped while it awaits its reply, and command 1 is sent before that reply comes:
command 1 returns the reply to command 0. -/
theorem dropped_reply_misrouted :
    ∃ final log, run step (new : Client Nat)
        [.call 0 .start, .call 0 .lockWriter, .call 0 .install, .call 0 .write, .call 0 .drop,
          .call 1 .start, .call 1 .lockWriter, .call 1 .install, .call 1 .write, .answer 10,
          .reader .route, .call 1 .wake] = some (final, log) ∧
      final.calls 0 = .dropped true ∧ final.calls 1 = .returned (.ok ⟨0, 10⟩) :=
  ⟨_, _, rfl, rfl, rfl⟩

end Client
end EslTokio
