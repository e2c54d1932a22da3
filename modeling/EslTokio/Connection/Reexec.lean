import EslTokio.Connection.Correlation
import EslTokio.Connection.Status

/-!
# Handing the socket over to a new process

`teardown_for_reexec` checks once that no command is waiting, and then lets the reader drain.  The
check does not see the replies of commands that timed out, and commands may be written after it.
A reply the server still owes when the new process adopts the socket goes to the first command of
that process, whose reply slot starts afresh.

* `Client.HandoffSafe` — no reply to a command of the old process reaches the new one.
* `Client.Quiescent` — the drain completes with no reply owed, and nothing is written after it.
* **`Client.handoff_safe_of_quiescent`** — the hand-off is safe along such runs, where moreover no
  call installs over a reply still owed.
-/

namespace EslTokio

open Library

namespace Client

variable {μ : Type}

/-- Whatever the new process does, the replies it takes off the socket are replies to its own
commands. -/
def HandoffSafe (s : Client μ) : Prop :=
  ∀ acts final log, run step s.adopt acts = some (final, log) →
    ∀ reply ∈ routedReplies log, s.calls reply.command = .notStarted

/-- The drain completes only when no reply is owed to a timed-out or a waiting command, and no
command is written once it has. -/
def Quiescent (s : Client μ) : ClientAct μ → Prop
  | .reader (.exit .drained) => s.pendingReply.staleReplies = 0 ∧
      ∀ id, s.pendingReply.waiting = some id → (s.calls id).written = false
  | .call _ .write => s.reader.reason ≠ some .reexecTeardown
  | _ => True

/-- A socket on which nothing is owed can be handed over. -/
theorem handoffSafe_of_settled {s : Client μ} (hnone : s.outstanding = []) : s.HandoffSafe := by
  intro acts final log hrun reply hreply
  have hreplies := run_replies hrun
  have hadopted : s.adopt.outstanding = [] := hnone
  rw [hadopted, List.nil_append] at hreplies
  have hwritten : reply.command ∈ writtenCommands log := by
    rw [← hreplies]
    exact List.mem_append_left _ (List.mem_map_of_mem hreply)
  have hfresh := written_fresh hrun hwritten
  -- A command of the old process counts as written in the new one.
  cases hphase : s.calls reply.command with
  | notStarted => rfl
  | _ => simp [adopt, hphase, CallPhase.pastWrite] at hfresh

/-- The invariant of a connection that is drained with nothing owed. -/
structure Drained (s : Client μ) : Prop where
  correlated : s.Correlated
  agrees : s.Agrees
  settled : s.reader.reason = some .reexecTeardown → s.outstanding = []

theorem new_drained : (new : Client μ).Drained where
  correlated := new_correlated
  agrees := new_agrees
  settled := fun _ => rfl

/-- Only a completed drain returns `ReexecTeardown`. -/
theorem drained_of_reason {cause : ReaderExit} (h : cause.reason = some .reexecTeardown) :
    cause = .drained := by
  cases cause <;> first | rfl | cases h

/-- What is owed when a drain completes under the guard: nothing. -/
theorem outstanding_of_quiescent {s : Client μ} (h : s.Correlated)
    (hreading : s.reader.reading = true) (hstale : s.pendingReply.staleReplies = 0)
    (hslot : ∀ id, s.pendingReply.waiting = some id → (s.calls id).written = false) :
    s.outstanding = [] := by
  obtain ⟨-, hdrop⟩ := h.owed (h.alive hreading)
  rw [hstale, List.drop_zero, Correlated.owedToWaiter_eq_nil hslot] at hdrop
  exact hdrop

/-- Once the drain has completed under the guard, nothing is owed and nothing more is written. -/
theorem step_outstanding {s next : Client μ} {act : ClientAct μ} {log : List (ClientLog μ)}
    (h : s.Drained) (hguard : s.Quiescent act) (hstep : s.step act = some (next, log))
    (hreason : next.reader.reason = some .reexecTeardown) : next.outstanding = [] := by
  rcases step_reader hstep with ⟨hsame, -, -⟩ | ⟨own, rfl, hroute, hmove⟩
  · rw [hsame] at hreason
    have hreplies := step_replies hstep
    rcases step_written hstep with hnone | ⟨id, rfl, -⟩
    · rw [h.settled hreason, hnone] at hreplies
      exact (List.append_eq_nil_iff.mp hreplies).2
    · exact absurd hreason hguard
  · have hexit : ∀ cause, own = .exit cause → s.reader.reading = true →
        cause.reason = some .reexecTeardown → s.outstanding = [] := by
      rintro cause rfl hreading hcause
      obtain rfl := drained_of_reason hcause
      exact outstanding_of_quiescent h.correlated hreading hguard.1 hguard.2
    cases hmove with
    | routed => exact absurd rfl hroute
    | stopped => cases hreason
    | exited cause hreading => exact hexit cause rfl hreading hreason
    | exitedWith cause result hreading => exact hexit cause rfl hreading hreason
    | silent => cases hreason
    | published reason hreturned =>
        apply h.settled
        rw [hreturned]
        exact hreason
    | failed reason hpublished =>
        apply h.settled
        rw [hpublished]
        exact hreason

theorem step_drained {s next : Client μ} {act : ClientAct μ} {log : List (ClientLog μ)}
    (h : s.Drained) (hfree : s.SlotFree act) (hguard : s.Quiescent act)
    (hstep : s.step act = some (next, log)) : next.Drained where
  correlated := step_correlated h.correlated hfree hstep
  agrees := step_agrees h.agrees hstep
  settled := step_outstanding h hguard hstep

/-- Where no call installs over a sender whose reply is still owed, the drain of every teardown
completes with no reply owed and nothing is written after it, a teardown that returned `Ok` leaves
no reply behind, and none reaches the new process. -/
theorem handoff_safe_of_quiescent {acts : List (ClientAct μ)} {final : Client μ}
    {log : List (ClientLog μ)} (hfree : Along step SlotFree new acts)
    (hguard : Along step Quiescent new acts) (hrun : run step new acts = some (final, log))
    (hok : final.teardown = .returned (.ok ())) :
    final.outstanding = [] ∧ final.HandoffSafe := by
  have hdrained : final.Drained := by
    refine run_invariant ?_ new_drained (hfree.and hguard) hrun
    intro s act next outputs h hact hstep
    exact step_drained h hact.1 hact.2 hstep
  have hreason := hdrained.agrees.drained (hdrained.agrees.returned hok)
  have hnone := hdrained.settled hreason
  exact ⟨hnone, handoffSafe_of_settled hnone⟩

/-- Command 0 is answered after its caller dropped it, and then the connection is torn down. -/
def answeredThenTornDown : List (ClientAct Nat) :=
  [.call 0 .start, .call 0 .lockWriter, .call 0 .install, .call 0 .write, .call 0 .drop, .answer 10,
    .reader .route, .teardown .check, .teardown .take, .teardown .signal,
    .reader .observeStop, .reader (.exit .drained), .teardown .result, .teardown .finish]

theorem handoff_safe_of_quiescent_answered :
    ∃ final log, run step new answeredThenTornDown = some (final, log) ∧
      final.calls 0 = .dropped true ∧ final.teardown = .returned (.ok ()) ∧ final.HandoffSafe := by
  obtain ⟨final, log, hrun, hdropped, hok⟩ : ∃ final log,
      run step new answeredThenTornDown = some (final, log) ∧ final.calls 0 = .dropped true ∧
        final.teardown = .returned (.ok ()) := ⟨_, _, rfl, rfl, rfl⟩
  have hfree : Along step SlotFree new answeredThenTornDown := by
    -- The one install finds the slot empty.
    refine .cons trivial rfl (.cons trivial rfl (.cons ?_ rfl (.cons trivial rfl (.cons trivial rfl
      (.cons trivial rfl (.cons trivial rfl (.cons trivial rfl (.cons trivial rfl (.cons trivial rfl
      (.cons trivial rfl (.cons trivial rfl (.cons trivial rfl (.cons trivial rfl
        trivial)))))))))))))
    intro _ other hwaiting
    cases hwaiting
  have hguard : Along step Quiescent new answeredThenTornDown := by
    -- The guarded steps are the write, before the drain, and the end of the drain.
    refine .cons trivial rfl (.cons trivial rfl (.cons trivial rfl (.cons ?_ rfl (.cons trivial rfl
      (.cons trivial rfl (.cons trivial rfl (.cons trivial rfl (.cons trivial rfl (.cons trivial rfl
      (.cons trivial rfl (.cons ⟨rfl, ?_⟩ rfl (.cons trivial rfl (.cons trivial rfl
        trivial)))))))))))))
    · intro hreason
      cases hreason
    · intro id hwaiting
      cases hwaiting
  exact ⟨final, log, hrun, hdropped, hok,
    (handoff_safe_of_quiescent hfree hguard hrun hok).2⟩

/-- Command 0 times out, the teardown finds no command waiting and succeeds, and the first command
of the new process returns the late reply to command 0. -/
theorem late_reply_handed_over :
    ∃ old log, run step (new : Client Nat)
        [.call 0 .start, .call 0 .lockWriter, .call 0 .install, .call 0 .write,
          .call 0 (.timeout 5000), .call 0 .settle, .teardown .check, .teardown .take,
          .teardown .signal, .reader .observeStop, .reader (.exit .drained), .teardown .result,
          .teardown .finish] = some (old, log) ∧
      old.teardown = .returned (.ok ()) ∧
      ∃ final later, run step old.adopt
          [.call 1 .start, .call 1 .lockWriter, .call 1 .install, .call 1 .write, .answer 10,
            .reader .route, .call 1 .wake] = some (final, later) ∧
        final.calls 1 = .returned (.ok ⟨0, 10⟩) :=
  ⟨_, _, rfl, rfl, _, _, rfl, rfl⟩

end Client
end EslTokio
